import ClassWeave.Proofs.Class.Reading
import ClassWeave.Proofs.Code.Resolving
import ClassWeave.Proofs.Code.Rows

/-!
Reading back a body that was written. Writing is settled, so all of it can be looked at on the pool that
is left in the end, where every name that the tables refer to is found.
-/

namespace ClassWeave

theorem ConstantPool.get_zero_ne_ok (pool : ConstantPool) (constant : Constant) :
    pool.get ⟨0⟩ ≠ .ok constant := by
  intro h
  have hs := get_eq_ok.1 h
  rw [← Array.getElem?_toList, pool.layout] at hs
  cases hs

/-- The offset is that of a label. -/
def LabelTable.Marks (labels : LabelTable) (offset : Nat) : Prop :=
  ∃ label, labels.offset label = .ok offset

section Written

variable {labels : LabelTable} {pool : ConstantPool}

theorem LabelTable.marks_of_index (bounded : ∀ offset, labels.Marks offset → offset ≤ 65535)
    {label : Label} {index : UInt16} (h : labels.index label = .ok index) :
    labels.Marks index.toNat := by
  obtain ⟨offset, ho, h⟩ := except_bind_eq_ok.1 h
  cases h
  rw [ConstantPool.toNat_ofNat_of_lt (bounded offset ⟨label, ho⟩)]
  exact ⟨label, ho⟩

/-- A row of the exception table has a range, and its class is in the pool. -/
structure ExceptionEntry.Written (labels : LabelTable) (pool : ConstantPool)
    (entry : ExceptionEntry) : Prop where
  range : entry.start < entry.stop
  start : labels.Marks entry.start.toNat
  stop : labels.Marks entry.stop.toNat
  handler : labels.Marks entry.handler.toNat
  catches : ∀ index, entry.catchType = some index → ∃ name, pool.className index = .ok name

theorem ExceptionEntry.Written.fits {entry : ExceptionEntry} (h : entry.Written labels pool) :
    entry.Fits := fun hzero => by
  obtain ⟨name, hname⟩ := h.catches ⟨0⟩ hzero
  obtain ⟨text, hg, -⟩ := ConstantPool.className_eq_ok.1 hname
  exact pool.get_zero_ne_ok _ hg

theorem Handler.written_of_encode (bounded : ∀ offset, labels.Marks offset → offset ≤ 65535)
    {handler : Handler} {entry : ExceptionEntry} (h : handler.encode labels pool = .ok entry pool) :
    entry.Written labels pool := by
  obtain ⟨hstart, hstop, hrange, htarget, hcatch⟩ := Handler.encode_eq_ok.1 h
  refine ⟨hrange, LabelTable.marks_of_index bounded hstart, LabelTable.marks_of_index bounded hstop,
    LabelTable.marks_of_index bounded htarget, fun index hindex => ?_⟩
  rw [hindex] at hcatch
  generalize handler.catchType = caught at hcatch
  cases hcatch with
  | some hname => exact ⟨_, ConstantPool.className_of_internClass hname⟩

/-- The class that a stored type names is in the pool, and its allocation is at a label. -/
structure StoredType.Written (labels : LabelTable) (pool : ConstantPool) (type : StoredType) :
    Prop where
  named : ∀ index, type = .object index → ∃ name, pool.className index = .ok name
  allocated : ∀ allocation, type = .uninitialized allocation → labels.Marks allocation.toNat

open VerificationType (erase)

theorem EditType.written_of_storedAs (bounded : ∀ offset, labels.Marks offset → offset ≤ 65535)
    {type : EditType} {stored : StoredType} (h : EditType.StoredAs labels pool type stored) :
    StoredType.Written labels pool stored := by
  cases h with
  | object hname =>
    refine ⟨fun found hf => ?_, nofun⟩
    cases hf
    exact ⟨_, ConstantPool.className_of_internClass hname⟩
  | uninitialized hlabel =>
    refine ⟨nofun, fun found hf => ?_⟩
    cases hf
    exact LabelTable.marks_of_index bounded hlabel
  | _ => exact ⟨nofun, nofun⟩

/-- A frame is stored with the types it has, and all they name can be found. -/
theorem EditFrame.written_of_store (bounded : ∀ offset, labels.Marks offset → offset ≤ 65535)
    {frame : EditFrame} {stored : StoredFrame}
    (h : EditFrame.store labels frame pool = .ok stored pool) :
    (∀ type ∈ stored.locals ++ stored.stack, StoredType.Written labels pool type) ∧
      stored.locals.map erase = frame.locals.map erase ∧
      stored.stack.map erase = frame.stack.map erase := by
  have kept : ∀ {types : List EditType} {out : List StoredType},
      List.Forall₂ (EditType.StoredAs labels pool) types out → out.map erase = types.map erase := by
    intro types out h
    induction h with
    | nil => rfl
    | cons first _ ih => rw [List.map_cons, List.map_cons, first.erase_eq, ih]
  obtain ⟨hlocals, hstack⟩ := EditFrame.store_eq_ok.1 h
  refine ⟨fun type hm => ?_, kept hlocals, kept hstack⟩
  have hstored : ∃ type', EditType.StoredAs labels pool type' type := by
    rcases List.mem_append.1 hm with hm | hm
    · obtain ⟨type', -, hs⟩ := exists_left_of_mem hlocals hm
      exact ⟨type', hs⟩
    · obtain ⟨type', -, hs⟩ := exists_left_of_mem hstack hm
      exact ⟨type', hs⟩
  obtain ⟨type', hs⟩ := hstored
  exact EditType.written_of_storedAs bounded hs

/-- A frame is stored with as many locals and as many types on the stack as it has. -/
theorem EditFrame.length_of_store (bounded : ∀ offset, labels.Marks offset → offset ≤ 65535)
    {frame : EditFrame} {stored : StoredFrame}
    (h : EditFrame.store labels frame pool = .ok stored pool) :
    stored.compactLocals.length = frame.compactLocals.length ∧ stored.stack.length = frame.stack.length := by
  obtain ⟨-, hlocals, hstack⟩ := EditFrame.written_of_store bounded h
  constructor
  · rw [← List.length_map (f := erase), Frame.map_erase_compactLocals hlocals, List.length_map]
  · rw [← List.length_map (f := erase), hstack, List.length_map]

theorem OffsetLabels.convert_ok {known : OffsetLabels} {type : StoredType}
    (h : StoredType.Written labels pool type)
    (hknown : ∀ allocation, type = .uninitialized allocation → known.Knows allocation.toNat) :
    ∃ out, known.convert pool type = .ok out ∧ out.erase = type.erase := by
  cases type with
  | object index =>
    obtain ⟨name, hname⟩ := h.named index rfl
    refine ⟨.object name, except_bind_eq_ok.2 ⟨name, ?_, rfl⟩, rfl⟩
    dsimp only
    rw [hname]
    rfl
  | uninitialized allocation =>
    obtain ⟨label, hlabel⟩ := hknown allocation rfl
    refine ⟨.uninitialized label, except_bind_eq_ok.2 ⟨label, ?_, rfl⟩, rfl⟩
    dsimp only
    rw [OffsetLabels.label_eq_ok.1 hlabel]
  | _ => exact ⟨_, rfl, rfl⟩

/-- Every offset and allocation of the frames has a label. -/
def OffsetLabels.Covers (known : OffsetLabels) (frames : List (Nat × StackMapFrame)) : Prop :=
  ∀ entry ∈ frames, known.Knows entry.1 ∧
    ∀ allocation, .uninitialized allocation ∈ entry.2.types → known.Knows allocation.toNat

/-- A table of frames behind a given frame: its offsets are those of the frames, and the frames can be
taken up again one after another. -/
structure StackMapsWritten (labels : LabelTable) (pool : ConstantPool) (frames : OffsetFrames)
    (previous : StoredFrame) (previousOffset : Option Nat) (written : List StackMapFrame) : Prop where
  fits : (∀ entry ∈ frames, entry.2.compactLocals.length < 65536 ∧ entry.2.stack.length < 65536) →
    ∀ frame ∈ written, frame.Fits
  offsets : (stackMapOffsets previousOffset written).map Prod.fst = frames.map Prod.fst
  types : ∀ entry ∈ stackMapOffsets previousOffset written, ∀ type ∈ entry.2.types,
    StoredType.Written labels pool type
  taken : ∀ known : OffsetLabels, known.Covers (stackMapOffsets previousOffset written) →
    ∀ (before : EditFrame) (found : FrameTable),
      before.compactLocals.map erase = previous.compactLocals.map erase →
      ∃ table, known.frames pool (stackMapOffsets previousOffset written) before found = .ok table

theorem StackMapsWritten.cons {rest : OffsetFrames} {offset : Nat} {frame : EditFrame}
    {stored previous : StoredFrame} {previousOffset : Option Nat} {delta : UInt16}
    {written : List StackMapFrame} (h : StackMapsWritten labels pool rest stored (some offset) written)
    (hstored : ∀ type ∈ stored.locals ++ stored.stack, StoredType.Written labels pool type)
    (hlocals : stored.compactLocals.length = frame.compactLocals.length)
    (hstack : stored.stack.length = frame.stack.length)
    (hplace : ∀ (first : StackMapFrame) (others : List StackMapFrame), first.delta = delta →
      stackMapOffsets previousOffset (first :: others) =
        (offset, first) :: stackMapOffsets (some offset) others) :
    StackMapsWritten labels pool ((offset, frame) :: rest) previous previousOffset
      (stored.stackMapFrame delta previous :: written) := by
  have hall := hplace (stored.stackMapFrame delta previous) written StoredFrame.delta_stackMapFrame
  have htypes : ∀ type ∈ (stored.stackMapFrame delta previous).types,
      StoredType.Written labels pool type := fun type hm => hstored type (StoredFrame.mem_types hm)
  refine ⟨fun fits => ?_, ?_, ?_, ?_⟩
  · obtain ⟨⟨hwide, hhigh⟩, hrest⟩ := List.forall_mem_cons.1 fits
    exact List.forall_mem_cons.2
      ⟨StoredFrame.fits_stackMapFrame (hlocals ▸ hwide) (hstack ▸ hhigh), h.fits hrest⟩
  · rw [hall, List.map_cons, List.map_cons, h.offsets]
  · rw [hall]
    exact List.forall_mem_cons.2 ⟨htypes, h.types⟩
  · intro known hcovers before found hbefore
    rw [hall] at hcovers ⊢
    obtain ⟨⟨label, hlabel⟩, hallocations⟩ := hcovers _ List.mem_cons_self
    have hconvert : ∀ type ∈ (stored.stackMapFrame delta previous).types,
        ∃ out, known.convert pool type = .ok out ∧ out.erase = type.erase := fun type hm =>
      OffsetLabels.convert_ok (htypes type hm) fun allocation he => hallocations allocation (he ▸ hm)
    obtain ⟨next, hnext, hkept⟩ := Frame.applyStackMap_stackMapFrame hbefore hconvert
    unfold OffsetLabels.frames
    rw [hnext]
    dsimp only
    rw [hlabel]
    exact h.taken known (fun entry hm => hcovers entry (List.mem_cons_of_mem _ hm)) next _ hkept

theorem stackMapOffsets_first (frame : StackMapFrame) (others : List StackMapFrame) :
    stackMapOffsets none (frame :: others) =
      (frame.delta.toNat, frame) :: stackMapOffsets (some frame.delta.toNat) others := rfl

theorem stackMapOffsets_next (before : Nat) (frame : StackMapFrame) (others : List StackMapFrame) :
    stackMapOffsets (some before) (frame :: others) =
      (before + frame.delta.toNat + 1, frame) ::
        stackMapOffsets (some (before + frame.delta.toNat + 1)) others := rfl

/-- The first frame of a table: it is stored at its offset as its difference from the one before. -/
theorem OffsetFrames.compress_cons {rest : OffsetFrames} {offset : Nat} {frame : EditFrame}
    {previous : StoredFrame} {previousOffset : Option Nat} {done out : List StackMapFrame}
    (h : OffsetFrames.compress labels ((offset, frame) :: rest) previous previousOffset done pool =
      .ok out pool) (hoffset : offset ≤ 65535)
    (hbehind : ∀ before, previousOffset = some before → before < offset) :
    ∃ stored delta, EditFrame.store labels frame pool = .ok stored pool ∧
      OffsetFrames.compress labels rest stored (some offset)
        (stored.stackMapFrame delta previous :: done) pool = .ok out pool ∧
      ∀ (first : StackMapFrame) (others : List StackMapFrame), first.delta = delta →
        stackMapOffsets previousOffset (first :: others) =
          (offset, first) :: stackMapOffsets (some offset) others := by
  obtain ⟨stored, hstored, h⟩ := (Settled.bind_eq_ok (EditFrame.settled_store frame) fun _ =>
    OffsetFrames.settled_compress _ _ _ _).1 h
  refine ⟨stored, _, hstored, h, fun first others hdelta => ?_⟩
  cases previousOffset with
  | none =>
    dsimp only at hdelta
    rw [stackMapOffsets_first, hdelta, ConstantPool.toNat_ofNat_of_lt hoffset]
  | some before =>
    have hlt : before < offset := hbehind before rfl
    have hsum : before + (offset - before - 1) + 1 = offset := by omega
    dsimp only at hdelta
    rw [stackMapOffsets_next, hdelta, ConstantPool.toNat_ofNat_of_lt (by omega), hsum]

theorem OffsetFrames.written_of_compress
    (bounded : ∀ offset, labels.Marks offset → offset ≤ 65535) {frames : OffsetFrames}
    {previous : StoredFrame} {previousOffset : Option Nat} {done out : List StackMapFrame}
    (h : frames.compress labels previous previousOffset done pool = .ok out pool)
    (hs : frames.Sorted) (hoffsets : ∀ entry ∈ frames, entry.1 ≤ 65535)
    (hbehind : ∀ before, previousOffset = some before → ∀ entry ∈ frames, before < entry.1) :
    ∃ written, out = done.reverse ++ written ∧
      StackMapsWritten labels pool frames previous previousOffset written := by
  induction frames generalizing previous previousOffset done with
  | nil =>
    obtain ⟨rfl, -⟩ := pure_eq_ok.1 h
    exact ⟨[], by simp, fun _ => nofun, rfl, nofun, fun known _ before found _ => ⟨found, rfl⟩⟩
  | cons entry rest ih =>
    obtain ⟨offset, frame⟩ := entry
    obtain ⟨hfirst, hrest⟩ := List.pairwise_cons.1 hs
    obtain ⟨stored, delta, hstored, h, hplace⟩ := OffsetFrames.compress_cons h
      (hoffsets (offset, frame) List.mem_cons_self)
      fun before hb => hbehind before hb (offset, frame) List.mem_cons_self
    obtain ⟨hwritten, -⟩ := EditFrame.written_of_store bounded hstored
    obtain ⟨hcompact, hheight⟩ := EditFrame.length_of_store bounded hstored
    obtain ⟨written, rfl, hrestWritten⟩ := ih h hrest
      (fun entry hm => hoffsets entry (List.mem_cons_of_mem _ hm))
      (fun before hb entry hm => by cases hb; exact hfirst entry hm)
    exact ⟨_ :: written, by rw [List.reverse_cons, List.append_assoc]; rfl,
      hrestWritten.cons hwritten hcompact hheight hplace⟩

/-- A row of a table of variables starts and ends at labels, and its names are in the pool. -/
structure LocalVariable.Written (labels : LabelTable) (pool : ConstantPool)
    (entry : LocalVariable) : Prop where
  start : labels.Marks entry.start.toNat
  stop : labels.Marks (entry.start.toNat + entry.length.toNat)
  name : ∃ name, pool.utf8 entry.name = .ok name
  descriptor : ∃ descriptor, pool.utf8 entry.descriptor = .ok descriptor

/-- The attributes that hold a table: none if it is empty. -/
def HoldsTable {α : Type} (pool : ConstantPool) (format : AttributeFormat (List α))
    (entries : List α) (attributes : List Attribute) : Prop :=
  (entries = [] ∧ attributes = []) ∨ ∃ item, attributes = [item] ∧
    pool.utf8 item.name = .ok format.name ∧ format.bytes entries = .ok item.content

namespace MethodBody

theorem written_of_encodeLocal (bounded : ∀ offset, labels.Marks offset → offset ≤ 65535)
    {entry : LocalEntry} {row : LocalVariable} (h : encodeLocal labels entry pool = .ok row pool) :
    row.Written labels pool := by
  obtain ⟨start, stop, hstart, hstop, hfirst, hlast, hname, hdescriptor, -⟩ := encodeLocal_eq_ok.1 h
  have hstart : labels.Marks start := ⟨_, hstart⟩
  have hstop : labels.Marks stop := ⟨_, hstop⟩
  have hlow := bounded start hstart
  have hhigh := bounded stop hstop
  have hindex : row.start.toNat = start := by
    rw [hfirst]
    exact ConstantPool.toNat_ofNat_of_lt hlow
  have hlength : row.length.toNat = stop - start := by
    rw [hlast]
    exact ConstantPool.toNat_ofNat_of_lt (by omega)
  refine ⟨by rwa [hindex], ?_, ⟨_, ConstantPool.utf8_of_internUtf8 hname⟩, _,
    ConstantPool.utf8_of_internUtf8 hdescriptor⟩
  rw [hindex, hlength]
  -- A range that ends before its start was written as one without length.
  rcases Nat.le_total start stop with hle | hle
  · rwa [Nat.add_sub_cancel' hle]
  · rwa [Nat.sub_eq_zero_of_le hle]

theorem holdsTable_of_store {α : Type} {format : AttributeFormat (List α)} {entries : List α}
    {attributes : List Attribute}
    (h : storeUnlessEmpty format entries pool = .ok attributes pool) :
    HoldsTable pool format entries attributes := by
  unfold storeUnlessEmpty at h
  split at h
  · next hempty =>
    obtain ⟨rfl, -⟩ := pure_eq_ok.1 h
    exact .inl ⟨List.isEmpty_iff.1 hempty, rfl⟩
  · obtain ⟨item, hitem, h⟩ := (Settled.bind_eq_ok (format.settled_store entries) fun _ =>
      .pure _).1 h
    obtain ⟨rfl, -⟩ := pure_eq_ok.1 h
    obtain ⟨name, hname, hitem⟩ := (Settled.bind_eq_ok (settled_internUtf8 _) fun _ =>
      .bind (.except _) fun _ => .pure _).1 hitem
    obtain ⟨content, hcontent, hitem⟩ := (Settled.bind_eq_ok (.except _) fun _ => .pure _).1 hitem
    obtain ⟨rfl, -⟩ := pure_eq_ok.1 hitem
    refine .inr ⟨_, rfl, ConstantPool.utf8_of_internUtf8 (adaptExcept_eq_ok.1 hname), ?_⟩
    have hlifted := (except_eq_ok.1 hcontent).1
    cases hbytes : format.bytes entries with
    | ok bytes =>
      rw [hbytes] at hlifted
      cases hlifted
      rfl
    | error problem =>
      rw [hbytes] at hlifted
      cases hlifted

end MethodBody

end Written

end ClassWeave
