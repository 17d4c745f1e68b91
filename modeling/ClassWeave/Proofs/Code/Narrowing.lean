import ClassWeave.Proofs.Class.Restoring
import ClassWeave.Proofs.Code.Marking
import ClassWeave.Proofs.Code.Shrinking
import ClassWeave.Proofs.Frame.Compressing

/-!
Numbers that are narrowed when a body that was read is written again. Its offsets, distances and deltas
always fit their fields. Rows that the class file had in several parts are joined, though, and locals that
frames append add up, so that there may be more of them than two bytes count.
-/

namespace ClassWeave

/-- Two bytes hold the number. -/
def FitsU16 (n : Nat) : Prop := (UInt16.ofNat n).toNat = n

/-- Two bytes hold the distance. -/
def FitsI16 (distance : Int) : Prop := (Int16.ofInt distance).toInt = distance

/-- Four bytes hold the number. -/
def FitsI32 (n : Int) : Prop := (Int32.ofInt n).toInt = n

theorem fitsU16_iff {n : Nat} : FitsU16 n ↔ n ≤ 65535 := by
  unfold FitsU16
  refine ⟨fun h => ?_, ConstantPool.toNat_ofNat_of_lt⟩
  have hlt := (UInt16.ofNat n).toNat_lt
  omega

theorem fitsI16_iff {distance : Int} : FitsI16 distance ↔ isShortDistance distance = true := by
  unfold FitsI16 isShortDistance
  rw [decide_eq_true_eq]
  constructor
  · intro h
    have hlow := (Int16.ofInt distance).le_toInt
    have hhigh := (Int16.ofInt distance).toInt_lt
    omega
  · rintro ⟨hlow, hhigh⟩
    exact Int16.toInt_ofInt_of_le hlow (by omega)

theorem fitsI32_iff {n : Int} : FitsI32 n ↔ -2147483648 ≤ n ∧ n ≤ 2147483647 := by
  unfold FitsI32
  constructor
  · intro h
    have hlow := (Int32.ofInt n).le_toInt
    have hhigh := (Int32.ofInt n).toInt_lt
    omega
  · rintro ⟨hlow, hhigh⟩
    exact Int32.toInt_ofInt_of_le hlow (by omega)

namespace Branch

variable {labels : LabelTable} {offset : Nat} {wide : Bool} {branch : Branch Label} {content : Bytes}

/-- The branch is written at an offset with the numbers that it has: distances fit the fields of its jumps,
counts those of its tables, and the last number of a table is the exact one. On the way to that one, the first
number and the count are only too much for an int if the last number is the largest int. -/
structure Exact (labels : LabelTable) (offset : Nat) (wide : Bool) (branch : Branch Label) : Prop where
  jumps : ∀ target ∈ branch.jumpTargets, ∃ distance, labels.distance offset target = .ok distance ∧
    FitsI32 distance ∧ (branch.near? wide = some target → FitsI16 distance)
  table : ∀ default low targets, branch = .tableSwitch default low targets →
    FitsI32 targets.length ∧ FitsI32 (low.toInt + targets.length - 1) ∧
    (low + Int32.ofNat targets.length - 1).toInt = low.toInt + targets.length - 1 ∧
    (FitsI32 (low.toInt + targets.length) ↔ low.toInt + targets.length ≠ 2147483648)
  pairs : ∀ default targets, branch = .lookupSwitch default targets → FitsI32 targets.length

/-- The targets of a branch that is written have offsets, and that of a short jump is near. -/
theorem offset_of_bytes (h : branch.bytes labels offset wide = .ok content) :
    ∀ target ∈ branch.jumpTargets, ∃ found : Nat, labels.offset target = .ok found ∧
      (branch.near? wide = some target → isShortDistance ((found : Int) - offset) = true) := by
  have short : ∀ {opcode : UInt8} {label : Label}, labels.shortJump offset opcode label = .ok content →
      ∀ target ∈ [label], ∃ found : Nat, labels.offset target = .ok found ∧
        (branch.near? wide = some target → isShortDistance ((found : Int) - offset) = true) := by
    intro opcode label h target ht
    obtain ⟨found, hfound, hshort, -⟩ := LabelTable.shortJump_eq_ok h
    rw [List.mem_singleton.1 ht]
    exact ⟨found, hfound, fun _ => hshort⟩
  have long : ∀ {label : Label} {jump : Bytes}, labels.longJump offset label = .ok jump →
      ∃ found : Nat, labels.offset label = .ok found := fun h =>
    (LabelTable.longJump_eq_ok h).imp fun _ => And.left
  cases branch with
  | ifZero comparison label => exact short h
  | ifInts comparison label => exact short h
  | ifRefs equality label => exact short h
  | ifNull equality label => exact short h
  | goto label =>
    cases wide with
    | false => exact short h
    | true =>
      obtain ⟨jump, hjump, -⟩ := except_bind_eq_ok.1 h
      exact List.forall_mem_singleton.2 ((long hjump).imp fun _ hfound => ⟨hfound, nofun⟩)
  | tableSwitch default low targets =>
    obtain ⟨first, hfirst, h⟩ := except_bind_eq_ok.1 h
    obtain ⟨jumps, hjumps, -⟩ := except_bind_eq_ok.1 h
    refine List.forall_mem_cons.2 ⟨(long hfirst).imp fun _ hfound => ⟨hfound, nofun⟩, fun target ht => ?_⟩
    obtain ⟨jump, -, hjump⟩ := exists_left_of_mem (ClassWeave.mapM_eq_ok.1 hjumps).flip ht
    exact (long hjump).imp fun _ hfound => ⟨hfound, nofun⟩
  | lookupSwitch default targets =>
    obtain ⟨first, hfirst, h⟩ := except_bind_eq_ok.1 h
    obtain ⟨pairs, hpairs, -⟩ := except_bind_eq_ok.1 h
    refine List.forall_mem_cons.2 ⟨(long hfirst).imp fun _ hfound => ⟨hfound, nofun⟩, fun target ht => ?_⟩
    obtain ⟨pair, hp, rfl⟩ := List.mem_map.1 ht
    obtain ⟨chunk, -, hchunk⟩ := exists_left_of_mem (ClassWeave.mapM_eq_ok.1 hpairs).flip hp
    obtain ⟨jump, hjump, -⟩ := except_bind_eq_ok.1 hchunk
    exact (long hjump).imp fun _ hfound => ⟨hfound, nofun⟩
  | «return» kind => exact nofun
  | raise => exact nofun

theorem exact_of_bytes (h : branch.bytes labels offset wide = .ok content) (sized : branch.Sized)
    (bounded : ∀ found, labels.Marks found → found ≤ 65535)
    (hend : offset + branch.width offset wide ≤ 65535) : branch.Exact labels offset wide where
  jumps target ht := by
    obtain ⟨found, hfound, hnear⟩ := offset_of_bytes h target ht
    have hle := bounded found ⟨target, hfound⟩
    exact ⟨(found : Int) - offset, except_bind_eq_ok.2 ⟨found, hfound, rfl⟩, fitsI32_iff.2 (by omega),
      fun hn => fitsI16_iff.2 (hnear hn)⟩
  table default low targets hbranch := by
    subst hbranch
    obtain ⟨hne, hbound⟩ := sized
    have hpos : 0 < targets.length := List.length_pos_iff.2 hne
    have hlow := low.le_toInt
    have hcount : targets.length ≤ 65535 := by
      simp only [width] at hend
      omega
    rw [fitsI32_iff, fitsI32_iff, fitsI32_iff]
    exact ⟨by omega, by omega, toInt_high hpos hbound, by omega⟩
  pairs default targets hbranch := by
    subst hbranch
    simp only [width] at hend
    exact fitsI32_iff.2 (by omega)

end Branch

namespace Layout

variable {layout : Layout} {nodes : List Node}

theorem IsOf.end_le (h : layout.IsOf nodes) {placed : Placed} (hm : placed ∈ layout.nodes) :
    placed.offset + placed.width ≤ layout.length := by
  obtain ⟨flagged, -, rfl⟩ := h
  obtain ⟨front, back, rfl, hoffset⟩ := mem_spread hm
  obtain ⟨node, wide, offset⟩ := placed
  cases hoffset
  dsimp only
  rw [reach_append]
  exact le_reach _ back

/-- Labels in front of earlier instructions have lower offsets. -/
theorem IsOf.offset_le_of_index (h : layout.IsOf nodes) (hnodup : (nodes.filterMap Node.label?).Nodup)
    {label other : Label} {i j offset last : Nat} (hi : Node.indexOf? nodes label = some i)
    (hj : Node.indexOf? nodes other = some j) (hle : i ≤ j) (ho : layout.labels.offset label = .ok offset)
    (hl : layout.labels.offset other = .ok last) : offset ≤ last := by
  obtain ⟨i', hi', hoffset⟩ := h.index_of_offset hnodup ho
  obtain ⟨j', hj', hlast⟩ := h.index_of_offset hnodup hl
  cases hi.symm.trans hi'
  cases hj.symm.trans hj'
  rcases Nat.eq_or_lt_of_le hle with rfl | hlt
  · cases hoffset.symm.trans hlast
    exact Nat.le_refl _
  · exact Nat.le_of_lt (lt_of_index h.pairwise_boundaries hlt hoffset hlast)

/-- The branches of a layout that is short enough are written exactly. -/
theorem IsOf.branch_exact (h : layout.IsOf nodes) (hnodup : (nodes.filterMap Node.label?).Nodup)
    {code : Bytes} (hbytes : layout.bytes = .ok code) (hshort : layout.length ≤ 65535)
    (sized : ∀ branch, .branch branch ∈ nodes → branch.Sized) {placed : Placed} (hm : placed ∈ layout.nodes)
    {branch : Branch Label} (hbranch : placed.node = .branch branch) :
    branch.Exact layout.labels placed.offset placed.wide := by
  obtain ⟨chunks, hchunks, -⟩ := except_bind_eq_ok.1 hbytes
  obtain ⟨content, -, hcontent⟩ := exists_left_of_mem (mapM_eq_ok.1 hchunks).flip hm
  have hend := h.end_le hm
  have hnode : .branch branch ∈ nodes := h.map_node ▸ hbranch ▸ List.mem_map_of_mem hm
  unfold Placed.bytes at hcontent
  unfold Placed.width at hend
  rw [hbranch] at hcontent hend
  exact Branch.exact_of_bytes hcontent (sized branch hnode)
    (fun found hf => Nat.le_trans (mem_boundaries_of_marks h hnodup hf).2 hshort) (Nat.le_trans hend hshort)

end Layout

/-- Offsets as they are told by deltas: the first itself, and each further one from behind the one before. -/
def deltas : (before : Option Nat) → (offsets : List Nat) → List Int
  | _, [] => []
  | none, offset :: rest => offset :: deltas (some offset) rest
  | some before, offset :: rest => (offset - before - 1 : Int) :: deltas (some offset) rest

theorem deltas_stackMapOffsets (before : Option Nat) (frames : List StackMapFrame) :
    deltas before ((stackMapOffsets before frames).map Prod.fst) =
      frames.map fun frame => (frame.delta.toNat : Int) := by
  induction frames generalizing before with
  | nil => cases before <;> rfl
  | cons frame rest ih =>
    cases before with
    | none => exact congrArg _ (ih _)
    | some before =>
      rw [stackMapOffsets_next, List.map_cons, List.map_cons, deltas, ih]
      refine congrArg (· :: _) ?_
      push_cast
      omega

namespace Frame

variable {C P : Type} [DecidableEq C] [DecidableEq P]

/-- A frame has no more types on its stack than a full stack map frame lists. -/
theorem length_stack_of_applyStackMap {previous next : Frame C P} {frame : StackMapFrame} (fits : frame.Fits)
    {convert : StoredType → Except FrameFault (VerificationType C P)}
    (h : previous.applyStackMap frame convert = .ok next) : next.stack.length ≤ 65535 := by
  unfold applyStackMap at h
  cases frame with
  | same delta =>
    cases h
    exact Nat.zero_le _
  | sameOne delta type =>
    obtain ⟨out, -, h⟩ := except_bind_eq_ok.1 h
    cases h
    exact Nat.le_add_left 1 65534
  | chop delta count =>
    dsimp only at h
    split at h
    · cases h
    · cases h
      exact Nat.zero_le _
  | append delta added =>
    obtain ⟨out, -, h⟩ := except_bind_eq_ok.1 h
    cases h
    exact Nat.zero_le _
  | full delta locals stack =>
    obtain ⟨out, -, h⟩ := except_bind_eq_ok.1 h
    obtain ⟨types, htypes, h⟩ := except_bind_eq_ok.1 h
    cases h
    rw [ofCompact, List.length_reverse, ← (mapM_eq_ok.1 htypes).length_eq]
    exact Nat.le_of_lt_succ fits.2

end Frame

/-- A full frame lists all of a frame that is stored. -/
theorem StoredFrame.full_of_stackMapFrame {frame previous : StoredFrame} {delta other : UInt16}
    {locals stack : List StoredType} (h : frame.stackMapFrame delta previous = .full other locals stack) :
    locals = frame.compactLocals ∧ stack = frame.stack.reverse := by
  have hfull : ∀ {d : UInt16}, StackMapFrame.full d frame.compactLocals frame.stack.reverse =
      .full other locals stack → locals = frame.compactLocals ∧ stack = frame.stack.reverse := by
    rintro d ⟨⟩
    exact ⟨rfl, rfl⟩
  unfold stackMapFrame at h
  extract_lets now before full fewer at h
  repeat' split at h
  all_goals first | exact hfull h | cases h

/-- All frames that are read have what each stack map frame gives its frame. -/
theorem OffsetLabels.all_of_frames {labels : OffsetLabels} {pool : ConstantPool}
    {entries : List (Nat × StackMapFrame)} {previous : EditFrame} {found table : FrameTable}
    {P : EditFrame → Prop} (h : labels.frames pool entries previous found = .ok table)
    (hframe : ∀ entry ∈ entries, ∀ previous next : EditFrame,
      previous.applyStackMap entry.2 (labels.convert pool) = .ok next → P next)
    (hfound : ∀ entry ∈ found, P entry.2) : ∀ entry ∈ table, P entry.2 := by
  induction entries generalizing previous found with
  | nil =>
    cases h
    exact hfound
  | cons first rest ih =>
    obtain ⟨hfirst, hrest⟩ := List.forall_mem_cons.1 hframe
    unfold frames at h
    split at h
    · cases h
    next next hnext =>
    split at h
    · cases h
    next label hlabel =>
    refine ih h hrest fun entry hm => ?_
    rcases FrameTable.mem_set hm with rfl | hm
    · exact hfirst _ _ hnext
    · exact hfound entry hm

namespace CodeTables

variable {pool : ConstantPool} {item : Attribute} {attributes : List Attribute} {tables table : CodeTables}

/-- Attributes with the name. -/
def parts (pool : ConstantPool) (name : String) (attributes : List Attribute) : Nat :=
  attributes.countP fun item => pool.utf8 item.name = .ok name

/-- No part of a table has more rows than two bytes count, and the frames fit their fields. -/
structure Joins (pool : ConstantPool) (attributes : List Attribute) (tables table : CodeTables) : Prop where
  frames : (∀ frame ∈ tables.frames, frame.Fits) → ∀ frame ∈ table.frames, frame.Fits
  lines : table.lines.length ≤ tables.lines.length + 65535 * parts pool LineNumber.table.name attributes
  locals : table.locals.length ≤ tables.locals.length + 65535 * parts pool LocalVariable.table.name attributes
  localTypes : table.localTypes.length ≤
    tables.localTypes.length + 65535 * parts pool LocalVariable.typeTable.name attributes

theorem Adds.joins (h : Adds pool tables item table) : Joins pool [item] tables table := by
  have counted : ∀ {α : Type} {reader : Reader α} {name : String} {bytes : List α → Except FormatError Bytes}
      {before rows : List α}, pool.utf8 item.name = .ok name →
      item.parse ⟨name, Reader.list reader, bytes⟩ = .ok rows →
      (before ++ rows).length ≤ before.length + 65535 * parts pool name [item] := by
    intro α reader name bytes before rows hname hparse
    have hcount : rows.length < 65536 := Reader.gives_length _ _ _ (Attribute.parse_eq_ok.1 hparse)
    unfold parts
    rw [List.length_append, List.countP_singleton, if_pos (decide_eq_true hname)]
    omega
  cases h with
  | frames hname hparse =>
    obtain ⟨_, -, hfits, -⟩ := lossless_stackMapTable.consumes _ _ _ (Attribute.parse_eq_ok.1 hparse)
    exact ⟨fun _ => hfits.fits, Nat.le_add_right _ _, Nat.le_add_right _ _, Nat.le_add_right _ _⟩
  | lines hname hparse => exact ⟨id, counted hname hparse, Nat.le_add_right _ _, Nat.le_add_right _ _⟩
  | locals hname hparse => exact ⟨id, Nat.le_add_right _ _, counted hname hparse, Nat.le_add_right _ _⟩
  | localTypes hname hparse => exact ⟨id, Nat.le_add_right _ _, Nat.le_add_right _ _, counted hname hparse⟩
  | other hname => exact ⟨id, Nat.le_add_right _ _, Nat.le_add_right _ _, Nat.le_add_right _ _⟩

theorem joins_of_fold (h : attributes.foldlM (add pool) tables = .ok table) :
    Joins pool attributes tables table := by
  induction attributes generalizing tables with
  | nil =>
    cases h
    exact ⟨id, Nat.le_add_right _ _, Nat.le_add_right _ _, Nat.le_add_right _ _⟩
  | cons item rest ih =>
    obtain ⟨next, hnext, h⟩ := except_bind_eq_ok.1 h
    have hfirst := (adds_of_add hnext).joins
    have hrest := ih h
    have hparts : ∀ name, parts pool name (item :: rest) = parts pool name [item] + parts pool name rest := by
      intro name
      unfold parts
      rw [← List.countP_append]
      rfl
    have hlines := hfirst.lines
    have hlocals := hfirst.locals
    have hlocalTypes := hfirst.localTypes
    exact {
      frames := hrest.frames ∘ hfirst.frames
      lines := by
        have hle := hrest.lines
        rw [hparts]
        omega
      locals := by
        have hle := hrest.locals
        rw [hparts]
        omega
      localTypes := by
        have hle := hrest.localTypes
        rw [hparts]
        omega }

end CodeTables

/-- As many rows are written as were joined. Two bytes count them unless the parts that they stood in have too
many together. -/
structure Counted {α : Type} (parts : Nat) (joined written : List α) : Prop where
  length : written.length = joined.length
  bound : joined.length ≤ 65535 * parts
  fits : FitsU16 written.length ↔ joined.length ≤ 65535
  whole : parts ≤ 1 → FitsU16 written.length

theorem Counted.of_length {α : Type} {parts : Nat} {joined written : List α}
    (length : written.length = joined.length) (bound : joined.length ≤ 65535 * parts) :
    Counted parts joined written where
  length := length
  bound := bound
  fits := length ▸ fitsU16_iff
  whole hone := fitsU16_iff.2 (by omega)

/-- The row has the offset of the entry's first label, and with its length that of the second. -/
def LocalEntry.Covers (labels : LabelTable) (entry : LocalEntry) (row : LocalVariable) : Prop :=
  labels.offset entry.start = .ok row.start.toNat ∧
    labels.offset entry.stop = .ok (row.start.toNat + row.length.toNat)

namespace MethodBody

variable {body : MethodBody} {version : Version} {pool rest : ConstantPool} {code out : Code} {shape : MethodShape}
  {layout : Layout} {found written : CodeTables}

/-- A body is written with the numbers that it has: those of its labels and branches, the deltas of its frames and
the lengths of its variables. Of its lists, the frames and their stacks are counted in full; the locals of a frame
are if the frame has no more than two bytes count, and rows are if those that were found together are no more. -/
structure WrittenExactly (body : MethodBody) (version : Version) (pool : ConstantPool) (code : Code)
    (layout : Layout) (found written : CodeTables) : Prop where
  offsets : ∀ offset, layout.labels.Marks offset → FitsU16 offset
  branches : ∀ placed ∈ layout.nodes, ∀ branch, placed.node = .branch branch →
    branch.Exact layout.labels placed.offset placed.wide
  frames : FitsU16 written.frames.length
  deltas : version.hasStackMaps = true → ∃ placed, OffsetFrames.ofLabels layout body.frames = .ok placed ∧
    written.frames.map (fun frame => (frame.delta.toNat : Int)) = ClassWeave.deltas none (placed.map Prod.fst)
  full : ∀ delta locals stack, .full delta locals stack ∈ written.frames → FitsU16 stack.length ∧
    ∃ entry ∈ body.frames, locals.length = entry.2.compactLocals.length
  ranges : List.Forall₂ (LocalEntry.Covers layout.labels) (body.locals ++ body.localTypes)
    (written.locals ++ written.localTypes)
  lines : Counted (CodeTables.parts pool LineNumber.table.name code.attributes) found.lines written.lines
  locals : Counted (CodeTables.parts pool LocalVariable.table.name code.attributes) found.locals written.locals
  localTypes : Counted (CodeTables.parts pool LocalVariable.typeTable.name code.attributes)
    found.localTypes written.localTypes

/-- Each full frame lists as many types as a frame of the body has. -/
theorem full_of_stackMap (bounded : ∀ offset, layout.labels.Marks offset → offset ≤ 65535)
    {frames : List StackMapFrame} (h : body.stackMap layout pool = .ok frames pool) {delta : UInt16}
    {locals stack : List StoredType} (hm : .full delta locals stack ∈ frames) :
    ∃ entry ∈ body.frames, locals.length = entry.2.compactLocals.length ∧
      stack.length = entry.2.stack.length := by
  obtain ⟨placed, entry, hplaced, -, -, -, h⟩ := stackMap_eq_ok.1 h
  obtain ⟨stored, hstored, rfl⟩ := OffsetFrames.differences_of_compress h
  obtain ⟨other, ho, _, _, hfull⟩ := StoredFrame.mem_differences hm
  obtain ⟨rfl, rfl⟩ := StoredFrame.full_of_stackMapFrame hfull.symm
  obtain ⟨first, hf, -, p, q, hstore⟩ := exists_left_of_mem hstored ho
  obtain ⟨label, hl, -⟩ := OffsetFrames.mem_ofLabels hplaced hf
  have hstore := (EditFrame.settled_store _ _ _ _ hstore).2 q (ConstantPool.le_refl q)
  obtain ⟨hlocals, hstack⟩ := EditFrame.length_of_store bounded hstore
  exact ⟨_, hl, hlocals, by rw [List.length_reverse, hstack]⟩

namespace WrittenAs

variable (h : body.WrittenAs version rest out layout written)

include h

theorem deltas (hv : version.hasStackMaps = true) :
    ∃ placed, OffsetFrames.ofLabels layout body.frames = .ok placed ∧ placed.length < 65536 ∧
      written.frames.length = placed.length ∧
      written.frames.map (fun frame => (frame.delta.toNat : Int)) = ClassWeave.deltas none (placed.map Prod.fst) := by
  obtain ⟨-, hmaps⟩ | ⟨hnone, -⟩ := h.frames
  · obtain ⟨placed, entry, hplaced, hwritten, -, hlength, -⟩ :=
      written_of_stackMap (fun offset hm => (h.mem_boundaries hm).2) h.short hmaps
    refine ⟨placed, hplaced, hlength, ?_, ?_⟩
    · rw [← length_stackMapOffsets none, ← List.length_map (f := Prod.fst), hwritten.offsets, List.length_map]
    · rw [← hwritten.offsets, deltas_stackMapOffsets]
  · rw [hv] at hnone
    cases hnone

theorem length_frames : written.frames.length ≤ 65535 := by
  cases hv : version.hasStackMaps with
  | true =>
    obtain ⟨placed, -, hlength, hsame, -⟩ := h.deltas hv
    omega
  | false =>
    obtain ⟨hv', -⟩ | ⟨-, hnone⟩ := h.frames
    · rw [hv] at hv'
      cases hv'
    · exact hnone ▸ Nat.zero_le _

/-- The row of a variable whose labels stand in order has both their offsets. -/
theorem covers {entry : LocalEntry} {row : LocalVariable}
    (hrow : encodeLocal layout.labels entry rest = .ok row rest) {i j : Nat}
    (hi : Node.indexOf? body.nodes entry.start = some i) (hj : Node.indexOf? body.nodes entry.stop = some j)
    (hle : i ≤ j) : entry.Covers layout.labels row := by
  obtain ⟨hof, hnodup⟩ := Layout.isOf_of_compute h.placed
  obtain ⟨start, stop, hstart, hstop, hfirst, hlength, -⟩ := encodeLocal_eq_ok.1 hrow
  have hordered := hof.offset_le_of_index hnodup hi hj hle hstart hstop
  have hbound := h.bounded stop ⟨_, hstop⟩
  unfold LocalEntry.Covers
  rw [hfirst, hlength, ConstantPool.toNat_ofNat_of_lt (Nat.le_trans hordered hbound),
    ConstantPool.toNat_ofNat_of_lt (Nat.le_trans (Nat.sub_le _ _) hbound), Nat.add_sub_cancel' hordered]
  exact ⟨hstart, hstop⟩

end WrittenAs

/-- A body that was read is written with the numbers that it has, whatever the version. -/
theorem exact_of_encode {start : ConstantPool} (hbody : decode code pool shape = .ok body)
    (hout : body.encode version start = .ok out rest) :
    ∃ layout found written, code.attributes.foldlM (CodeTables.add pool) .empty = .ok found ∧
      body.WrittenAs version rest out layout written ∧
      body.WrittenExactly version pool code layout found written := by
  obtain ⟨layout, written, h⟩ := writtenAs_of_encode hout
  obtain ⟨entries, found, labels, decoded⟩ := decodedAs_of_decode hbody
  obtain ⟨hof, hnodup⟩ := Layout.isOf_of_compute h.placed
  obtain ⟨stackMaps, debug, -, -, hdebug⟩ := h.attributes
  have joins := CodeTables.joins_of_fold decoded.attributes
  have hfits : ∀ entry ∈ stackMapOffsets none found.frames, entry.2.Fits := fun entry hm =>
    joins.frames nofun entry.2 (mem_of_mem_stackMapOffsets hm)
  have hstacks : ∀ entry ∈ body.frames, entry.2.stack.length ≤ 65535 :=
    OffsetLabels.all_of_frames (P := fun frame => frame.stack.length ≤ 65535) decoded.frames
      (fun entry hm _ _ => Frame.length_stack_of_applyStackMap (hfits entry hm)) nofun
  refine ⟨layout, found, written, decoded.attributes, h, ?_⟩
  exact {
    offsets := fun offset hm => fitsU16_iff.2 (h.bounded offset hm)
    branches := fun placed hm branch hbranch =>
      hof.branch_exact hnodup h.bytes h.short (keeps_of_decode hbody).2.1 hm hbranch
    frames := fitsU16_iff.2 h.length_frames
    deltas := fun hv => by
      obtain ⟨placed, hplaced, -, -, hdeltas⟩ := h.deltas hv
      exact ⟨placed, hplaced, hdeltas⟩
    full := fun delta locals stack hm => by
      obtain ⟨-, hmaps⟩ | ⟨-, hnone⟩ := h.frames
      · obtain ⟨entry, he, hlocals, hstack⟩ := full_of_stackMap h.bounded hmaps hm
        exact ⟨fitsU16_iff.2 (hstack ▸ hstacks entry he), entry, he, hlocals⟩
      · rw [hnone] at hm
        cases hm
    ranges := by
      have hrows := List.rel_append hdebug.locals hdebug.localTypes
      refine List.forall₂_iff_get.2 ⟨hrows.length_eq, fun i hi hi' => ?_⟩
      have hentry := List.get_mem (body.locals ++ body.localTypes) ⟨i, hi⟩
      obtain ⟨row, -, hstart, hstop⟩ := exists_left_of_mem decoded.tablesMarked.locals hentry
      obtain ⟨j, k, hj, hk, hle⟩ := hstart.index_le_iff hstop
      exact h.covers (List.forall₂_iff_get.1 hrows |>.2 i hi hi') hj hk (hle.2 (Nat.le_add_right _ _))
    lines := .of_length (hdebug.lines.length_eq.symm.trans (mapM_eq_ok.1 decoded.lines).length_eq.symm)
      (by simpa [CodeTables.empty] using joins.lines)
    locals := .of_length (hdebug.locals.length_eq.symm.trans (mapM_eq_ok.1 decoded.locals).length_eq.symm)
      (by simpa [CodeTables.empty] using joins.locals)
    localTypes := .of_length
      (hdebug.localTypes.length_eq.symm.trans (mapM_eq_ok.1 decoded.localTypes).length_eq.symm)
      (by simpa [CodeTables.empty] using joins.localTypes) }

/-- A table of one target whose number is the largest int, with a full frame, lines in two parts and a variable. -/
def brimming : Code where
  maxStack := 2
  maxLocals := 1
  code := [0x1A, 0xAA, 0, 0, 0, 0, 0, 19, 127, 255, 255, 255, 127, 255, 255, 255, 0, 0, 0, 20, 0, 0xB1]
  exceptions := []
  attributes := [⟨⟨1⟩, [0, 2, 20, 255, 0, 0, 0, 1, 1, 0, 2, 1, 1]⟩, ⟨⟨2⟩, [0, 1, 0, 20, 0, 7]⟩,
    ⟨⟨2⟩, [0, 1, 0, 0, 0, 6]⟩, ⟨⟨3⟩, [0, 1, 0, 0, 0, 22, 0, 4, 0, 5, 0, 0]⟩]

theorem exact_brimming : ∃ body out rest,
    decode brimming tablesPool ⟨"a/B", true, false, ⟨[.base .int], none⟩⟩ = .ok body ∧
      .branch (.tableSwitch ⟨1⟩ 2147483647 [⟨2⟩]) ∈ body.nodes ∧
      body.encode .java6 tablesPool = .ok out rest ∧
      ∃ layout found written, brimming.attributes.foldlM (CodeTables.add tablesPool) .empty = .ok found ∧
        body.WrittenAs .java6 rest out layout written ∧
        body.WrittenExactly .java6 tablesPool brimming layout found written := by
  have encoded : (match decode brimming tablesPool ⟨"a/B", true, false, ⟨[.base .int], none⟩⟩ with
      | .ok body => (match body.encode .java6 tablesPool with
        | .ok _ _ => decide (.branch (.tableSwitch ⟨1⟩ 2147483647 [⟨2⟩]) ∈ body.nodes)
        | .error _ _ => false)
      | .error _ => false) = true := by decide +kernel
  split at encoded
  · next body hbody =>
    split at encoded
    · next out rest hout =>
      exact ⟨body, out, rest, hbody, of_decide_eq_true encoded, hout, exact_of_encode hbody hout⟩
    · cases encoded
  · cases encoded

/-- A return, with its line in each row of two tables. -/
def parted (count : Nat) : Code where
  maxStack := 0
  maxLocals := 0
  code := [0xB1]
  exceptions := []
  attributes := List.replicate 2 ⟨⟨2⟩, Bytes.list LineNumber.bytes (List.replicate count ⟨0, 1⟩)⟩

theorem readAll_parted (count : Nat) :
    Decoded.readAll (parted count).code = .ok [(0, .branch (.return none))] := rfl

theorem fold_parted {count : Nat} (h : count ≤ 65535) :
    (parted count).attributes.foldlM (CodeTables.add tablesPool) .empty =
      .ok { CodeTables.empty with lines := List.replicate (count + count) ⟨0, 1⟩ } := by
  have hname : tablesPool.utf8 ⟨2⟩ = .ok LineNumber.table.name := by decide +kernel
  have hparse : ∀ name, Attribute.parse LineNumber.table
      ⟨name, Bytes.list LineNumber.bytes (List.replicate count ⟨0, 1⟩)⟩ = .ok (List.replicate count ⟨0, 1⟩) :=
    Attribute.parse_of_reads (Reader.reads_list (by rw [List.length_replicate]; omega)
      fun entry _ => entry.reads_bytes)
  refine except_bind_eq_ok.2 ⟨_, CodeTables.add_lines hname (hparse _), ?_⟩
  refine except_bind_eq_ok.2 ⟨_, CodeTables.add_lines hname (hparse _), ?_⟩
  rw [← List.replicate_append_replicate]
  rfl

theorem decode_parted {count : Nat} (h : count ≤ 65535) (shape : MethodShape) :
    ∃ body, decode (parted count) tablesPool shape = .ok body := by
  refine decode_ok (readAll_parted count) (fold_parted h) (fun offset hm => ?_) (by nofun)
    (fun labels _ => ⟨[], rfl⟩) (by nofun)
  obtain ⟨entry, he, ht⟩ | ⟨_, he, -⟩ | ⟨_, he, -⟩ | ⟨entry, he, rfl⟩ | ⟨_, he, -⟩ := mem_references.1 hm
  · cases List.mem_singleton.1 he
    cases ht
  · cases he
  · cases he
  · rw [List.eq_of_mem_replicate he]
    exact List.mem_cons_self
  · cases he

/-- Nothing keeps the body from being written, with the rows of both tables in one. -/
theorem writtenAs_parted {count : Nat} (h : count ≤ 65535) (hpos : 0 < count)
    (hbody : decode (parted count) tablesPool shape = .ok body) :
    ∃ out layout written item, body.WrittenAs ⟨49, 0⟩ tablesPool out layout written ∧
      written.lines.length = count + count ∧ out.attributes = [item] ∧
      item.content = Bytes.list LineNumber.bytes written.lines := by
  obtain ⟨entries, tables, labels, decoded⟩ := decodedAs_of_decode hbody
  cases decoded.read.symm.trans (readAll_parted count)
  cases decoded.attributes.symm.trans (fold_parted h)
  obtain ⟨layout, hlayout, hof⟩ := compute_isOf (wellPlaced_of_decode hbody)
  have located : body.Located layout.labels fun _ => False := WellPlaced.located hof (wellPlaced_of_decode hbody)
  have plain : ∀ branch, .branch branch ∈ body.nodes → branch = .return none := by
    intro branch hm
    obtain ⟨entry, he, hshows⟩ := exists_left_of_mem decoded.shows (List.mem_filter.2 ⟨hm, rfl⟩)
    cases List.mem_singleton.1 he
    cases hshows with
    | branch related =>
      cases related
      rfl
  have roomy : Decoded.Roomy (parted count).code [(0, .branch (.return none))] := by
    intro start found target hm _ hnear _
    cases List.mem_singleton.1 hm
    cases hnear
  obtain ⟨content, hcontent⟩ := FailsOnly.exists_ok (Layout.bytes_fails (located.targets_of_placed hof)
    fun placed hm branch hbranch target hnear => by
      cases plain branch (hof.map_node ▸ hbranch ▸ List.mem_map_of_mem hm)
      cases hnear)
  obtain ⟨lines, hlines⟩ := FailsOnly.exists_ok (FailsOnly.mapM (f := encodeLine layout.labels)
    fun entry hm => .bind (LabelTable.index_fails (located.lines entry hm)) fun _ _ => .ok _)
  have hcount : lines.length = count + count := by
    rw [← (mapM_eq_ok.1 hlines).length_eq, ← (mapM_eq_ok.1 decoded.lines).length_eq, List.length_replicate]
  have hname : (liftM (ConstantPool.internUtf8 LineNumber.table.name) : Encoding PoolIndex) tablesPool =
      .ok ⟨2⟩ tablesPool :=
    adaptExcept_eq_ok.2 (ConstantPool.intern_eq_ok.2 (.inl ⟨by decide +kernel, rfl⟩))
  have hstore : storeUnlessEmpty LineNumber.table lines tablesPool =
      .ok [⟨⟨2⟩, Bytes.list LineNumber.bytes lines⟩] tablesPool := by
    unfold storeUnlessEmpty
    rw [if_neg (by simp only [List.isEmpty_iff_length_eq_zero]; omega)]
    exact bind_eq_ok.2 ⟨_, tablesPool, bind_eq_ok.2 ⟨⟨2⟩, tablesPool, hname, rfl⟩, rfl⟩
  refine ⟨⟨body.envelope.maxStack, body.envelope.maxLocals, content, [], [⟨⟨2⟩, Bytes.list LineNumber.bytes lines⟩]⟩,
    layout, ⟨[], lines, [], []⟩, _, ?_, hcount, rfl, rfl⟩
  have hlength : layout.length ≤ 1 := (decoded.length_le roomy hlayout).1
  exact {
    placed := hlayout
    envelope := rfl
    short := Nat.le_trans hlength (by decide)
    bytes := hcontent
    exceptions := Except.ok.inj decoded.handlers ▸ .nil
    frames := .inr ⟨rfl, rfl⟩
    attributes := ⟨[], [_], rfl, rfl, mapM_eq_ok.1 hlines, Except.ok.inj decoded.locals ▸ .nil,
      Except.ok.inj decoded.localTypes ▸ .nil, _, [], [], rfl, hstore, rfl, rfl⟩ }

/-- Two tables with half of 65536 rows each: all rows are written, but two bytes count none of them. -/
theorem not_fitsU16_parted : ∃ body out layout written item,
    decode (parted 32768) tablesPool ⟨"a/B", true, false, ⟨[], none⟩⟩ = .ok body ∧
      body.encode ⟨49, 0⟩ tablesPool = .ok out tablesPool ∧
      body.WrittenAs ⟨49, 0⟩ tablesPool out layout written ∧ out.attributes = [item] ∧
      item.content = Bytes.u16 0 ++ written.lines.flatMap LineNumber.bytes ∧
      written.lines.length = 65536 ∧ ¬FitsU16 written.lines.length := by
  obtain ⟨body, hbody⟩ := decode_parted (by decide : 32768 ≤ 65535) ⟨"a/B", true, false, ⟨[], none⟩⟩
  obtain ⟨out, layout, written, item, h, hlength, hitem, hcontent⟩ :=
    writtenAs_parted (by decide) (by decide) hbody
  refine ⟨body, out, layout, written, item, hbody, h.encode_eq_ok, h, hitem, ?_, hlength, ?_⟩
  · rw [hcontent, Bytes.list, hlength]
    rfl
  · rw [hlength, fitsU16_iff]
    decide

end MethodBody

end ClassWeave
