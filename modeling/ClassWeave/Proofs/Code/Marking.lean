import ClassWeave.Proofs.Code.Advancing
import ClassWeave.Proofs.Code.Covering

/-!
Bodies that are read are well formed. The instructions are those of the code array, each label stands
where the class file says, and a handler covers at least one instruction, so that no label is missing,
placed twice or in the wrong order when such a body is written.
-/

namespace ClassWeave

namespace Node

/-- The node is the instruction that was read, with labels for where its jumps lead to. -/
inductive Shows (marks : Nat → Label → Prop) : Decoded → Node → Prop where
  | insn (insn : Insn) : Shows marks (.insn insn) (.insn insn)
  | branch {found : Branch Nat} {branch : Branch Label} :
    found.Related marks branch → Shows marks (.branch found) (.branch branch)

theorem shows_of_node {labels : OffsetLabels} {marks : Nat → Label → Prop} {decoded : Decoded} {node : Node}
    (hmarks : ∀ offset label, labels.label offset = .ok label → marks offset label)
    (h : labels.node decoded = .ok node) : Shows marks decoded node := by
  cases decoded with
  | insn insn =>
    cases h
    exact .insn insn
  | branch found =>
    obtain ⟨branch, hbranch, h⟩ := except_bind_eq_ok.1 h
    cases h
    exact .branch ((Branch.related_of_mapM hbranch).imp hmarks)

theorem mem_of_indexOf? {nodes : List Node} {label : Label} {i : Nat} (h : indexOf? nodes label = some i) :
    .label label ∈ nodes := by
  obtain ⟨before, after, rfl, -⟩ := indexOf?_eq_some.1 h
  exact List.mem_append_right _ List.mem_cons_self

/-- There is an instruction behind the first label and in front of the second. -/
def Between (nodes : List Node) (label other : Label) : Prop :=
  ∃ before between after, nodes = before ++ .label label :: between ++ .label other :: after ∧
    ∃ node ∈ between, node.isLabel = false

theorem between_of_indexOf? {nodes : List Node} {label other : Label} {i j : Nat}
    (hi : indexOf? nodes label = some i) (hj : indexOf? nodes other = some j) (h : i < j) :
    Between nodes label other := by
  obtain ⟨before, after, rfl, -, rfl⟩ := indexOf?_eq_some.1 hi
  obtain ⟨front, back, hsplit, -, rfl⟩ := indexOf?_eq_some.1 hj
  -- The label with fewer instructions in front of it comes first.
  rcases List.append_eq_append_iff.1 hsplit with ⟨more, rfl, hmore⟩ | ⟨more, rfl, -⟩
  · rw [instructions_append, List.length_append] at h
    cases more with
    | nil => exact absurd h (by simp [instructions])
    | cons first between =>
      obtain ⟨rfl, rfl⟩ := List.cons.inj hmore
      refine ⟨before, between, back, by simp, ?_⟩
      have hpos : 0 < (instructions (.label label :: between)).length := by omega
      obtain ⟨node, hm⟩ := List.exists_mem_of_length_pos hpos
      obtain ⟨hm, hplain⟩ := List.mem_filter.1 hm
      rw [Bool.not_eq_true'] at hplain
      rcases List.mem_cons.1 hm with rfl | hm
      · cases hplain
      · exact ⟨node, hm, hplain⟩
  · rw [instructions_append, List.length_append] at h
    omega

end Node

/-- The handler covers at least one of the instructions. -/
def Handler.Spans (nodes : List Node) (handler : Handler) : Prop :=
  ∃ i j, Node.indexOf? nodes handler.start = some i ∧ Node.indexOf? nodes handler.stop = some j ∧ i < j

/-- The range of such a handler has code in each layout. -/
theorem Layout.IsOf.lt_of_spans {layout : Layout} {nodes : List Node} (h : layout.IsOf nodes)
    (hnodup : (nodes.filterMap Node.label?).Nodup) (hshort : layout.length ≤ MethodBody.maxCodeLength)
    {handler : Handler} (spans : handler.Spans nodes) {start stop : UInt16}
    (hstart : layout.labels.index handler.start = .ok start)
    (hstop : layout.labels.index handler.stop = .ok stop) : start < stop := by
  obtain ⟨i, j, hi, hj, hlt⟩ := spans
  have bounded : ∀ offset, layout.labels.Marks offset → offset ≤ 65535 := fun offset hm =>
    Nat.le_trans (mem_boundaries_of_marks h hnodup hm).2 hshort
  obtain ⟨i', hi', hfirst⟩ := h.index_of_offset hnodup (LabelTable.offset_of_index bounded hstart)
  obtain ⟨j', hj', hlast⟩ := h.index_of_offset hnodup (LabelTable.offset_of_index bounded hstop)
  cases hi.symm.trans hi'
  cases hj.symm.trans hj'
  rw [UInt16.lt_iff_toNat_lt]
  by_contra hle
  exact absurd (le_of_getElem? h.pairwise_boundaries hlast hfirst (Nat.le_of_not_lt hle)) (by omega)

namespace FrameTable

variable {pool : ConstantPool} {labels : OffsetLabels} {found table : FrameTable} {label : Label}

theorem isSome_find?_set (frames : FrameTable) (other : Label) (frame : EditFrame)
    (h : (frames.find? label).isSome = true) : ((frames.set other frame).find? label).isSome = true := by
  rw [find?_set]
  split
  · rfl
  · exact h

/-- A frame that is read is put at the label of its offset, and frames that were there before stay. -/
theorem isSome_of_frames {entries : List (Nat × StackMapFrame)} {previous : EditFrame}
    (h : labels.frames pool entries previous found = .ok table) :
    (∀ label, (found.find? label).isSome = true → (table.find? label).isSome = true) ∧
      ∀ entry ∈ entries, ∃ label, labels.label entry.1 = .ok label ∧ (table.find? label).isSome = true := by
  induction entries generalizing previous found with
  | nil =>
    cases h
    exact ⟨fun _ => id, by simp⟩
  | cons entry rest ih =>
    obtain ⟨offset, frame⟩ := entry
    unfold OffsetLabels.frames at h
    split at h
    · cases h
    next next hnext =>
    split at h
    · cases h
    next label hlabel =>
    obtain ⟨hkept, hrest⟩ := ih h
    have hset : ((found.set label next).find? label).isSome = true := by
      rw [find?_set, if_pos rfl]
      rfl
    exact ⟨fun other ho => hkept other (isSome_find?_set found label next ho),
      List.forall_mem_cons.2 ⟨⟨label, hlabel, hkept label hset⟩, hrest⟩⟩

end FrameTable

namespace MethodBody

variable {code : Code} {pool : ConstantPool} {shape : MethodShape} {body : MethodBody}

/-- Where the tables of the class file have an offset the body has a label that stands there, and it has no
others. -/
structure TablesMarked (body : MethodBody) (code : Bytes) (tables : CodeTables) : Prop where
  lines : List.Forall₂ (fun row entry => body.StandsAt code entry.start row.start.toNat)
    tables.lines body.lines
  locals : List.Forall₂ (fun row entry => body.StandsAt code entry.start row.start.toNat ∧
    body.StandsAt code entry.stop (row.start.toNat + row.length.toNat))
    (tables.locals ++ tables.localTypes) (body.locals ++ body.localTypes)
  framed : ∀ offset ∈ (stackMapOffsets none tables.frames).map Prod.fst,
    ∃ entry ∈ body.frames, body.StandsAt code entry.1 offset
  frames : ∀ entry ∈ body.frames, ∃ offset ∈ (stackMapOffsets none tables.frames).map Prod.fst,
    body.StandsAt code entry.1 offset
  allocations : ∀ entry ∈ body.frames, ∀ label, .uninitialized label ∈ entry.2.locals ++ entry.2.stack →
    ∃ frame ∈ tables.frames, ∃ allocation, .uninitialized allocation ∈ frame.types ∧
      body.StandsAt code label allocation.toNat

/-- What holds of a body that was read from a code attribute. -/
structure WellRead (body : MethodBody) (code : Code) (pool : ConstantPool) : Prop where
  nodup : (body.nodes.filterMap Node.label?).Nodup
  mentioned : ∀ label, body.Mentions label →
    .label label ∈ body.nodes ∧ label.number < body.labels.allocated
  instructions : ∃ entries, Decoded.readAll code.code = .ok entries ∧
    Decoded.Consecutive code.code 0 entries ∧ List.Forall₂ (fun entry node =>
      node.Shows (fun offset label => body.StandsAt code.code label offset) entry.2)
      entries (Node.instructions body.nodes)
  handlers : List.Forall₂ (fun row handler => body.StandsAt code.code handler.start row.start.toNat ∧
    body.StandsAt code.code handler.stop row.stop.toNat ∧
    body.StandsAt code.code handler.handler row.handler.toNat) code.exceptions body.handlers
  spans : ∀ handler ∈ body.handlers, Node.Between body.nodes handler.start handler.stop
  tables : ∃ tables, code.attributes.foldlM (CodeTables.add pool) .empty = .ok tables ∧
    body.TablesMarked code.code tables

theorem mem_of_mem_stackMapOffsets {previous : Option Nat} {frames : List StackMapFrame}
    {entry : Nat × StackMapFrame} (h : entry ∈ stackMapOffsets previous frames) : entry.2 ∈ frames := by
  induction frames generalizing previous with
  | nil => cases h
  | cons frame rest ih =>
    rcases List.mem_cons.1 h with rfl | h
    · exact List.mem_cons_self
    · exact List.mem_cons_of_mem _ (ih h)

/-- Labels stand in the order of their offsets. -/
theorem StandsAt.index_le_iff {code : Bytes} {label other : Label} {offset last : Nat}
    (h : body.StandsAt code label offset) (hlast : body.StandsAt code other last) :
    ∃ i j, Node.indexOf? body.nodes label = some i ∧ Node.indexOf? body.nodes other = some j ∧
      (i ≤ j ↔ offset ≤ last) := by
  obtain ⟨entries, i, hread, hi, hoffset⟩ := h
  obtain ⟨again, j, hread', hj, hlast⟩ := hlast
  cases hread.symm.trans hread'
  have hordered := Decoded.pairwise_readAll hread
  refine ⟨i, j, hi, hj, fun hle => ?_, le_of_getElem? hordered hoffset hlast⟩
  by_contra hlt
  have hback := le_of_getElem? hordered hlast hoffset (Nat.le_of_not_le hlt)
  cases Nat.le_antisymm hle hback
  cases hoffset.symm.trans hlast
  exact hlt (Nat.le_refl _)

theorem StandsAt.lt_of_lt {code : Bytes} {label other : Label} {offset last : Nat}
    (h : body.StandsAt code label offset) (hlast : body.StandsAt code other last) (hlt : offset < last) :
    ∃ i j, Node.indexOf? body.nodes label = some i ∧ Node.indexOf? body.nodes other = some j ∧ i < j := by
  obtain ⟨j, i, hj, hi, hle⟩ := hlast.index_le_iff h
  exact ⟨i, j, hi, hj, Nat.lt_of_not_le fun hback => Nat.not_le_of_lt hlt (hle.1 hback)⟩

namespace DecodedAs

variable {entries : List (Nat × Decoded)} {tables : CodeTables} {labels : OffsetLabels}
  (h : DecodedAs code pool shape body entries tables labels)

include h

theorem mem_of_mentions {label : Label} (hm : body.Mentions label) : .label label ∈ body.nodes := by
  obtain ⟨offset, ho⟩ := h.label_of_mentions hm
  obtain ⟨-, i, -, hi, -⟩ := h.standsAt ho
  exact Node.mem_of_indexOf? hi

theorem shows : List.Forall₂ (fun entry node => Node.Shows (fun offset label =>
    body.StandsAt code.code label offset) entry.2 node) entries (Node.instructions body.nodes) := by
  obtain ⟨plain, hplain, hnodes⟩ := h.nodes_eq
  have hbare : Node.instructions body.nodes = plain := by
    rw [hnodes]
    exact OffsetLabels.instructions_weave (hplain.imp fun _ _ => OffsetLabels.isLabel_of_node)
  rw [hbare]
  exact hplain.imp fun _ _ hnode => Node.shows_of_node (fun _ _ => h.standsAt) hnode

theorem spans {handler : Handler} (hm : handler ∈ body.handlers) : handler.Spans body.nodes := by
  obtain ⟨row, -, hrow⟩ := exists_left_of_mem (mapM_eq_ok.1 h.handlers) hm
  obtain ⟨hordered, hstart, hstop, -⟩ := OffsetLabels.handler_eq_ok hrow
  exact (h.standsAt hstart).lt_of_lt (h.standsAt hstop) (UInt16.lt_iff_toNat_lt.1 hordered)

theorem tablesMarked : body.TablesMarked code.code tables where
  lines := (mapM_eq_ok.1 h.lines).imp fun _ _ hrow => h.standsAt (OffsetLabels.lineEntry_eq_ok hrow).1
  locals := by
    have rows : ∀ {rows : List LocalVariable} {found : List LocalEntry},
        rows.mapM (labels.localEntry pool) = .ok found →
        List.Forall₂ (fun row entry => body.StandsAt code.code entry.start row.start.toNat ∧
          body.StandsAt code.code entry.stop (row.start.toNat + row.length.toNat)) rows found :=
      fun hrows => (mapM_eq_ok.1 hrows).imp fun _ _ hrow => by
        obtain ⟨hstart, hstop, -⟩ := OffsetLabels.localEntry_eq_ok hrow
        exact ⟨h.standsAt hstart, h.standsAt hstop⟩
    exact List.rel_append (rows h.locals) (rows h.localTypes)
  framed offset ho := by
    obtain ⟨first, hf, rfl⟩ := List.mem_map.1 ho
    obtain ⟨label, hlabel, hsome⟩ := (FrameTable.isSome_of_frames h.frames).2 first hf
    obtain ⟨frame, hframe⟩ := Option.isSome_iff_exists.1 hsome
    exact ⟨_, FrameTable.mem_of_find? hframe, h.standsAt hlabel⟩
  frames entry hm := by
    obtain ⟨first, hf, hl⟩ := (h.labels_of_frame hm).1
    exact ⟨first.1, List.mem_map_of_mem hf, h.standsAt hl⟩
  allocations entry hm label hl := by
    obtain ⟨first, hf, allocation, hstored, hl⟩ := (h.labels_of_frame hm).2 label hl
    exact ⟨first.2, mem_of_mem_stackMapOffsets hf, allocation, hstored, h.standsAt hl⟩

end DecodedAs

/-- A body that is read is well formed. -/
theorem wellRead_of_decode (h : decode code pool shape = .ok body) : body.WellRead code pool := by
  obtain ⟨entries, tables, labels, decoded⟩ := decodedAs_of_decode h
  exact {
    nodup := nodup_of_decode h
    mentioned := fun label hm => ⟨decoded.mem_of_mentions hm, lt_of_decode h hm⟩
    instructions := ⟨entries, decoded.read, Decoded.consecutive_readAll decoded.read, decoded.shows⟩
    handlers := (mapM_eq_ok.1 decoded.handlers).imp fun _ _ hrow => by
      obtain ⟨-, hstart, hstop, htarget, -⟩ := OffsetLabels.handler_eq_ok hrow
      exact ⟨decoded.standsAt hstart, decoded.standsAt hstop, decoded.standsAt htarget⟩
    spans := fun handler hm => by
      obtain ⟨i, j, hi, hj, hlt⟩ := decoded.spans hm
      exact Node.between_of_indexOf? hi hj hlt
    tables := ⟨tables, decoded.attributes, decoded.tablesMarked⟩ }

theorem wellPlaced_of_decode (h : decode code pool shape = .ok body) : body.WellPlaced := by
  have placed : ∀ {label : Label}, body.Mentions label → .label label ∈ body.nodes := fun hm =>
    ((wellRead_of_decode h).mentioned _ hm).1
  exact {
    nodup := nodup_of_decode h
    targets := fun branch hb target ht => placed (.target (mem_jumpTargets.2 (.inl ⟨branch, hb, ht⟩)))
    handlers := fun handler hm => ⟨placed (.start hm), placed (.stop hm),
      placed (.target (mem_jumpTargets.2 (.inr ⟨handler, hm, rfl⟩)))⟩
    lines := fun entry hm => placed (.line hm)
    locals := fun entry hm => ⟨placed (.localStart hm), placed (.localStop hm)⟩ }

variable {version : Version} {limit : Nat}

/-- A body with all its labels in place and in order is not refused for them. -/
theorem encodeWithLimit_stops_of_placed (hp : body.WellPlaced)
    (spans : ∀ handler ∈ body.handlers, handler.Spans body.nodes)
    (anchored : ∀ entry ∈ body.frames, entry.2.All fun type => ∀ label, type = .uninitialized label →
      .label label ∈ body.nodes) :
    StopsOnly (fun problem => ¬problem.OfLabels) (body.encodeWithLimit version limit) := by
  obtain ⟨layout, hlayout, h⟩ := compute_isOf hp
  have full : ∀ problem, Full problem → ¬problem.OfLabels := by
    rintro _ ⟨⟩
    exact nofun
  refine encodeWithLimit_stops_parts full (hlayout ▸ .ok layout) fun found hfound => ?_
  cases hlayout.symm.trans hfound
  have located : body.Located layout.labels fun problem => ¬problem.OfLabels := WellPlaced.located h hp
  refine ⟨located, fun _ => nofun, fun _ => Layout.bytes_fails (located.targets_of_placed h)
    fun _ _ _ _ _ _ _ _ _ => nofun, fun hlength handler hm start stop hstart hstop hle => ?_, fun _ => ?_⟩
  · exact absurd (h.lt_of_spans hp.nodup hlength (spans handler hm) hstart hstop) (UInt16.not_lt.2 hle)
  · refine stackMap_stops_anyhow full (fun _ hframes => ?_) (fun target ht => ?_) fun frame hm => ?_
    · cases hframes <;> exact nofun
    · obtain ⟨branch, hb, ht⟩ | ⟨handler, hh, rfl⟩ := mem_jumpTargets.1 ht
      · exact located.targets branch hb target ht
      · exact (located.handlers handler hh).2.2
    · rcases List.mem_cons.1 hm with rfl | hm
      · exact body.shape.entryFrame_plain.imp fun type ht label he => absurd he (ht label)
      · obtain ⟨entry, he, rfl⟩ := List.mem_map.1 hm
        exact (anchored entry he).imp fun type ht label hl => (has_of_isOf h hp (ht label hl)).offset_fails

/-- A body that is read is well formed, and no version refuses it for its labels. -/
theorem wellRead_and_encodes (h : decode code pool shape = .ok body) :
    body.WellRead code pool ∧ ∀ version limit start problem rest,
      body.encodeWithLimit version limit start = .error problem rest → ¬problem.OfLabels := by
  obtain ⟨entries, tables, labels, decoded⟩ := decodedAs_of_decode h
  refine ⟨wellRead_of_decode h, fun version limit start problem rest hstops => ?_⟩
  refine encodeWithLimit_stops_of_placed (wellPlaced_of_decode h) (fun handler => decoded.spans)
    (fun entry hm => ?_) start problem rest hstops
  exact ⟨fun type ht label he => decoded.mem_of_mentions (.allocation hm (List.mem_append_left _ (he ▸ ht))),
    fun type ht label he => decoded.mem_of_mentions (.allocation hm (List.mem_append_right _ (he ▸ ht)))⟩

/-- Names of all the tables, and a class. -/
def tablesPool : ConstantPool :=
  match (do
    let _ ← ConstantPool.internUtf8 stackMapTable.name
    let _ ← ConstantPool.internUtf8 LineNumber.table.name
    let _ ← ConstantPool.internUtf8 LocalVariable.table.name
    let _ ← ConstantPool.internUtf8 "x"
    let _ ← ConstantPool.internUtf8 "I"
    ConstantPool.internClass "a/B" : Interning PoolIndex) .empty with
  | .ok _ pool | .error _ pool => pool

/-- A switch, an allocation and a jump back, with a handler, frames, a line and a local up to the end. -/
def gathered : Code where
  maxStack := 1
  maxLocals := 1
  code := [0x1A, 0xAA, 0, 0, 0, 0, 0, 26, 0, 0, 0, 0, 0, 0, 0, 0, 0, 0, 0, 22, 0xBB, 0, 7, 0x57,
    0xA7, 255, 232, 0xB1]
  exceptions := [⟨0, 20, 27, none⟩]
  attributes := [⟨⟨1⟩, [0, 2, 255, 0, 20, 0, 1, 1, 0, 0, 255, 0, 2, 0, 1, 1, 0, 1, 8, 0, 20]⟩,
    ⟨⟨2⟩, [0, 1, 0, 20, 0, 7]⟩, ⟨⟨3⟩, [0, 1, 0, 0, 0, 28, 0, 4, 0, 5, 0, 0]⟩]

theorem wellRead_gathered : ∃ body,
    decode gathered tablesPool ⟨"a/B", true, false, ⟨[.base .int], none⟩⟩ = .ok body ∧
      body.labels.allocated = 5 ∧ body.frames.map (·.1.number) = [1, 2] ∧
      body.WellRead gathered tablesPool ∧ ∀ version limit start problem rest,
        body.encodeWithLimit version limit start = .error problem rest → ¬problem.OfLabels := by
  have decoded : (match decode gathered tablesPool ⟨"a/B", true, false, ⟨[.base .int], none⟩⟩ with
      | .ok body => decide (body.labels.allocated = 5 ∧ body.frames.map (·.1.number) = [1, 2])
      | .error _ => false) = true := by decide +kernel
  split at decoded
  · next body hbody =>
    obtain ⟨hallocated, hframes⟩ := of_decide_eq_true decoded
    exact ⟨body, hbody, hallocated, hframes, wellRead_and_encodes hbody⟩
  · cases decoded

end MethodBody

end ClassWeave
