import ClassWeave.Proofs.Code.Decoding
import ClassWeave.Proofs.Code.FrameTable
import ClassWeave.Proofs.Frame.Reading

/-!
Labels of decoded bodies. Every label that such a body refers to is one of those handed out for it, so
that labels handed out later are new.
-/

namespace ClassWeave

namespace OffsetLabels

variable {labels : OffsetLabels} {pool : ConstantPool}

/-- What stands for an entry among the nodes: a label, if its offset has one, in front of the node. -/
def nodesAt (labels : OffsetLabels) (entry : Nat × Decoded) (node : Node) : List Node :=
  (labels.at? entry.1).toList.map .label ++ [node]

theorem nodesOnto_eq_ok_iff {entries : List (Nat × Decoded)} {done nodes : List Node} :
    labels.nodesOnto entries done = .ok nodes ↔
      ∃ plain, List.Forall₂ (fun entry node => labels.node entry.2 = .ok node) entries plain ∧
        nodes = (List.zipWith labels.nodesAt entries plain).flatten.reverse ++ done := by
  induction entries generalizing done with
  | nil =>
    unfold nodesOnto
    simp [eq_comm]
  | cons entry rest ih =>
    obtain ⟨offset, decoded⟩ := entry
    unfold nodesOnto
    dsimp only
    cases hnode : labels.node decoded with
    | error problem =>
      refine ⟨fun h => (by cases h), ?_⟩
      rintro ⟨_ | ⟨first, others⟩, hplain, -⟩
      · cases hplain
      · cases hplain with
        | cons hfirst _ => cases hnode.symm.trans hfirst
    | ok node =>
      dsimp only
      rw [ih]
      constructor
      · rintro ⟨plain, hplain, rfl⟩
        refine ⟨node :: plain, .cons hnode hplain, ?_⟩
        rw [List.zipWith_cons_cons, List.flatten_cons, List.reverse_append, List.append_assoc, nodesAt]
        cases labels.at? offset <;> rfl
      · rintro ⟨_ | ⟨first, others⟩, hplain, rfl⟩
        · cases hplain
        · cases hplain with
          | cons hfirst hothers =>
          cases hnode.symm.trans hfirst
          refine ⟨others, hothers, ?_⟩
          rw [List.zipWith_cons_cons, List.flatten_cons, List.reverse_append, List.append_assoc, nodesAt]
          cases labels.at? offset <;> rfl

theorem branch_of_node {decoded : Decoded} {branch : Branch Label} (h : labels.node decoded = .ok (.branch branch)) :
    ∃ found, decoded = .branch found ∧ found.mapM labels.label = .ok branch := by
  cases decoded with
  | insn insn => cases h
  | branch found =>
    obtain ⟨out, hout, h⟩ := except_bind_eq_ok.1 h
    cases h
    exact ⟨found, rfl, hout⟩

/-- Every label that stands for an offset has been handed out. -/
theorem Numbered.lt_of_label (h : Numbered labels) {offset : Nat} {label : Label}
    (hl : labels.label offset = .ok label) : label.number < labels.count :=
  h.lt offset label (label_eq_ok.1 hl)

theorem handler_eq_ok {entry : ExceptionEntry} {handler : Handler}
    (h : labels.handler pool entry = .ok handler) :
    entry.start < entry.stop ∧ labels.label entry.start.toNat = .ok handler.start ∧
      labels.label entry.stop.toNat = .ok handler.stop ∧
      labels.label entry.handler.toNat = .ok handler.handler ∧
      (match entry.catchType with
        | none => handler.catchType = none
        | some index => ∃ name, pool.className index = .ok name ∧ handler.catchType = some name) := by
  have rest : ∀ {catchType}, (do
      if entry.stop ≤ entry.start then throw (.malformedCode entry.start.toNat .badRange)
      let start ← labels.label entry.start.toNat
      let stop ← labels.label entry.stop.toNat
      return ⟨start, stop, ← labels.label entry.handler.toNat, catchType⟩ :
        Except ClassError Handler) = .ok handler →
      entry.start < entry.stop ∧ labels.label entry.start.toNat = .ok handler.start ∧
        labels.label entry.stop.toNat = .ok handler.stop ∧
        labels.label entry.handler.toNat = .ok handler.handler ∧ handler.catchType = catchType := by
    intro catchType h
    split at h
    · cases h
    next hordered =>
    obtain ⟨start, hstart, h⟩ := except_bind_eq_ok.1 h
    obtain ⟨stop, hstop, h⟩ := except_bind_eq_ok.1 h
    obtain ⟨target, htarget, h⟩ := except_bind_eq_ok.1 h
    cases h
    exact ⟨UInt16.not_le.1 hordered, hstart, hstop, htarget, rfl⟩
  obtain ⟨start, stop, target, catchType⟩ := entry
  cases catchType with
  | none =>
    obtain ⟨_, hcatch, h⟩ := except_bind_eq_ok.1 h
    cases hcatch
    exact rest h
  | some index =>
    obtain ⟨_, hcatch, h⟩ := except_bind_eq_ok.1 h
    obtain ⟨hordered, hstart, hstop, htarget, hcaught⟩ := rest h
    refine ⟨hordered, hstart, hstop, htarget, ?_⟩
    change some <$> Except.mapError ClassError.pool (pool.className index) = _ at hcatch
    dsimp only
    cases hname : pool.className index with
    | ok name =>
      rw [hname] at hcatch
      cases hcatch
      exact ⟨name, rfl, hcaught⟩
    | error problem =>
      rw [hname] at hcatch
      cases hcatch

theorem lineEntry_eq_ok {entry : LineNumber} {line : LineEntry} (h : labels.lineEntry entry = .ok line) :
    labels.label entry.start.toNat = .ok line.start ∧ line.line = entry.line := by
  obtain ⟨start, hstart, h⟩ := except_bind_eq_ok.1 h
  cases h
  exact ⟨hstart, rfl⟩

theorem localEntry_eq_ok {entry : LocalVariable} {found : LocalEntry}
    (h : labels.localEntry pool entry = .ok found) :
    labels.label entry.start.toNat = .ok found.start ∧
      labels.label (entry.start.toNat + entry.length.toNat) = .ok found.stop ∧
      pool.utf8 entry.name = .ok found.name ∧ pool.utf8 entry.descriptor = .ok found.descriptor ∧
      found.slot = entry.slot := by
  obtain ⟨start, hstart, h⟩ := except_bind_eq_ok.1 h
  obtain ⟨stop, hstop, h⟩ := except_bind_eq_ok.1 h
  obtain ⟨name, hname, h⟩ := except_bind_eq_ok.1 h
  obtain ⟨descriptor, hdescriptor, h⟩ := except_bind_eq_ok.1 h
  cases h
  exact ⟨hstart, hstop, mapError_eq_ok.1 hname, mapError_eq_ok.1 hdescriptor, rfl⟩

/-- An allocation that a converted type names has a label, and the type was stored as its offset. -/
theorem uninitialized_of_convert {type : StoredType} {label : Label}
    (h : labels.convert pool type = .ok (.uninitialized label)) :
    ∃ allocation, type = .uninitialized allocation ∧ labels.label allocation.toNat = .ok label := by
  cases type with
  | uninitialized allocation =>
    obtain ⟨found, hfound, h⟩ := except_bind_eq_ok.1 h
    cases h
    dsimp only at hfound
    cases hl : labels.at? allocation.toNat with
    | none =>
      rw [hl] at hfound
      cases hfound
    | some label =>
      rw [hl] at hfound
      cases hfound
      exact ⟨allocation, rfl, label_eq_ok.2 hl⟩
  | object name =>
    obtain ⟨found, -, h⟩ := except_bind_eq_ok.1 h
    cases h
  | _ => cases h

end OffsetLabels

namespace Frame

variable {C P : Type}

theorem mem_slotsOf {types : List (VerificationType C P)} {type : VerificationType C P}
    (h : type ∈ slotsOf types) : type = .top ∨ type ∈ types := by
  obtain ⟨value, hv, ht⟩ := List.mem_flatMap.1 h
  split at ht
  · rcases List.mem_cons.1 ht with rfl | ht
    · exact .inr hv
    · exact .inl (List.mem_singleton.1 ht)
  · exact .inr (List.mem_singleton.1 ht ▸ hv)

variable [DecidableEq C] [DecidableEq P]

/-- The types of the next frame are those of the frame before it and those that are converted. -/
theorem mem_of_applyStackMap {previous next : Frame C P} {frame : StackMapFrame}
    {convert : StoredType → Except FrameFault (VerificationType C P)}
    (h : previous.applyStackMap frame convert = .ok next) {type : VerificationType C P}
    (hm : type ∈ next.locals ++ next.stack) :
    type = .top ∨ type ∈ previous.locals ∨ ∃ stored ∈ frame.types, convert stored = .ok type := by
  have kept : ∀ {locals : List (VerificationType C P)}, (∀ t ∈ locals, t ∈ previous.compactLocals ∨
      ∃ stored ∈ frame.types, convert stored = .ok t) → type ∈ slotsOf locals →
      type = .top ∨ type ∈ previous.locals ∨ ∃ stored ∈ frame.types, convert stored = .ok type :=
    fun hall ht => (mem_slotsOf ht).imp_right fun ht => (hall type ht).imp_left mem_of_mem_compactLocals
  have converted : ∀ {types : List StoredType} {out : List (VerificationType C P)},
      types.mapM convert = .ok out → (∀ t ∈ types, t ∈ frame.types) → ∀ t ∈ out,
      ∃ stored ∈ frame.types, convert stored = .ok t := fun hout hsub t ht => by
    obtain ⟨stored, hs, hc⟩ := exists_left_of_mem (mapM_eq_ok.1 hout) ht
    exact ⟨stored, hsub stored hs, hc⟩
  have former : ∀ t ∈ previous.compactLocals, t ∈ previous.compactLocals ∨
      ∃ stored ∈ frame.types, convert stored = .ok t := fun _ => .inl
  unfold applyStackMap at h
  cases frame with
  | same delta =>
    cases h
    rw [ofCompact, List.append_nil] at hm
    exact kept former hm
  | sameOne delta type =>
    obtain ⟨out, hout, h⟩ := except_bind_eq_ok.1 h
    cases h
    rcases List.mem_append.1 hm with hm | hm
    · exact kept former hm
    · exact .inr (.inr ⟨_, List.mem_singleton_self _, List.mem_singleton.1 hm ▸ hout⟩)
  | chop delta count =>
    dsimp only at h
    split at h
    · cases h
    · cases h
      rw [ofCompact, List.append_nil] at hm
      exact kept (fun t ht => .inl (List.mem_of_mem_take ht)) hm
  | append delta added =>
    obtain ⟨out, hout, h⟩ := except_bind_eq_ok.1 h
    cases h
    rw [ofCompact, List.append_nil] at hm
    refine kept (fun t ht => ?_) hm
    exact (List.mem_append.1 ht).imp_right (converted hout (fun _ => id) t)
  | full delta locals stack =>
    obtain ⟨out, hout, h⟩ := except_bind_eq_ok.1 h
    obtain ⟨out', hout', h⟩ := except_bind_eq_ok.1 h
    cases h
    rcases List.mem_append.1 hm with hm | hm
    · exact kept (fun t ht => .inr (converted hout (fun _ => List.mem_append_left _) t ht)) hm
    · exact .inr (.inr (converted hout' (fun _ => List.mem_append_right _) _ (List.mem_reverse.1 hm)))

end Frame

namespace MethodBody

variable {code : Code} {pool : ConstantPool} {shape : MethodShape} {body : MethodBody}

/-- A body refers to a label. -/
inductive Mentions (body : MethodBody) : Label → Prop where
  | node {label : Label} : .label label ∈ body.nodes → Mentions body label
  | target {label : Label} : label ∈ body.jumpTargets → Mentions body label
  | start {handler : Handler} : handler ∈ body.handlers → Mentions body handler.start
  | stop {handler : Handler} : handler ∈ body.handlers → Mentions body handler.stop
  | frame {entry : Label × EditFrame} : entry ∈ body.frames → Mentions body entry.1
  | allocation {entry : Label × EditFrame} {label : Label} : entry ∈ body.frames →
      .uninitialized label ∈ entry.2.locals ++ entry.2.stack → Mentions body label
  | line {entry : LineEntry} : entry ∈ body.lines → Mentions body entry.start
  | localStart {entry : LocalEntry} : entry ∈ body.locals ++ body.localTypes → Mentions body entry.start
  | localStop {entry : LocalEntry} : entry ∈ body.locals ++ body.localTypes → Mentions body entry.stop

/-- The nodes of a decoded body: the instructions, each behind a label if its offset has one, and the
label of the end of the code. -/
theorem DecodedAs.nodes_eq {entries : List (Nat × Decoded)} {tables : CodeTables} {labels : OffsetLabels}
    (h : DecodedAs code pool shape body entries tables labels) :
    ∃ plain, List.Forall₂ (fun entry node => labels.node entry.2 = .ok node) entries plain ∧
      body.nodes = (List.zipWith labels.nodesAt entries plain).flatten ++
        (labels.at? code.code.length).toList.map .label := by
  obtain ⟨nodes, hnodes, hbody⟩ := h.nodes
  obtain ⟨plain, hplain, rfl⟩ := OffsetLabels.nodesOnto_eq_ok_iff.1 hnodes
  refine ⟨plain, hplain, ?_⟩
  rw [hbody]
  cases labels.at? code.code.length with
  | none => simp
  | some label => simp

theorem DecodedAs.mem_nodes {entries : List (Nat × Decoded)} {tables : CodeTables} {labels : OffsetLabels}
    (h : DecodedAs code pool shape body entries tables labels) {node : Node} (hm : node ∈ body.nodes) :
    (∃ offset label, labels.at? offset = some label ∧ node = .label label) ∨
      ∃ entry ∈ entries, labels.node entry.2 = .ok node := by
  obtain ⟨plain, hplain, hnodes⟩ := h.nodes_eq
  rw [hnodes, List.mem_append] at hm
  clear h hnodes
  have marked : ∀ {offset : Nat}, node ∈ (labels.at? offset).toList.map Node.label →
      ∃ offset label, labels.at? offset = some label ∧ node = .label label := fun hm => by
    obtain ⟨label, hl, rfl⟩ := List.mem_map.1 hm
    exact ⟨_, label, Option.mem_toList.1 hl, rfl⟩
  rcases hm with hm | hm
  · induction hplain with
    | nil => cases hm
    | @cons entry first rest others hfirst _ ih =>
      rw [List.zipWith_cons_cons, List.flatten_cons, List.mem_append] at hm
      rcases hm with hm | hm
      · rcases List.mem_append.1 hm with hm | hm
        · exact .inl (marked hm)
        · exact .inr ⟨entry, List.mem_cons_self, List.mem_singleton.1 hm ▸ hfirst⟩
      · exact (ih hm).imp_right fun ⟨e, he, hn⟩ => ⟨e, List.mem_cons_of_mem _ he, hn⟩
  · exact .inl (marked hm)

/-- What a decoded frame table holds: at labels of offsets, types that are plain or converted. -/
theorem mem_of_frames {labels : OffsetLabels} {frames : List (Nat × StackMapFrame)} {previous : EditFrame}
    {found table : FrameTable} (h : labels.frames pool frames previous found = .ok table)
    {P : EditType → Prop} (htop : P .top) (hprevious : ∀ type ∈ previous.locals ++ previous.stack, P type)
    (hconvert : ∀ first ∈ frames, ∀ stored ∈ first.2.types, ∀ type,
      labels.convert pool stored = .ok type → P type) {entry : Label × EditFrame}
    (hm : entry ∈ table) : entry ∈ found ∨ (∃ first ∈ frames, labels.label first.1 = .ok entry.1) ∧
      ∀ type ∈ entry.2.locals ++ entry.2.stack, P type := by
  induction frames generalizing previous found with
  | nil =>
    cases h
    exact .inl hm
  | cons first rest ih =>
    obtain ⟨offset, frame⟩ := first
    rw [List.forall_mem_cons] at hconvert
    unfold OffsetLabels.frames at h
    split at h
    · cases h
    · next next hnext =>
      split at h
      · cases h
      · next label hlabel =>
        have all : ∀ type ∈ next.locals ++ next.stack, P type := fun type ht => by
          obtain rfl | hp | ⟨stored, hs, hc⟩ := Frame.mem_of_applyStackMap hnext ht
          · exact htop
          · exact hprevious type (List.mem_append_left _ hp)
          · exact hconvert.1 stored hs type hc
        rcases ih h all hconvert.2 with hf | ⟨⟨entry, he, hl⟩, hrest⟩
        · rcases FrameTable.mem_set hf with rfl | hf
          · exact .inr ⟨⟨_, List.mem_cons_self, hlabel⟩, all⟩
          · exact .inl hf
        · exact .inr ⟨⟨entry, List.mem_cons_of_mem _ he, hl⟩, hrest⟩

variable {entries : List (Nat × Decoded)} {tables : CodeTables} {labels : OffsetLabels}

/-- A decoded frame is at a label of an offset from the table, and so are the allocations in it. -/
theorem DecodedAs.labels_of_frame (h : DecodedAs code pool shape body entries tables labels)
    {entry : Label × EditFrame} (hm : entry ∈ body.frames) :
    (∃ first ∈ stackMapOffsets none tables.frames, labels.label first.1 = .ok entry.1) ∧
      ∀ label, .uninitialized label ∈ entry.2.locals ++ entry.2.stack →
        ∃ first ∈ stackMapOffsets none tables.frames, ∃ allocation,
          .uninitialized allocation ∈ first.2.types ∧ labels.label allocation.toNat = .ok label := by
  have plain := shape.entryFrame_plain
  have hboth := (mem_of_frames h.frames (P := fun type => ∀ label,
    type = .uninitialized label → ∃ first ∈ stackMapOffsets none tables.frames, ∃ allocation,
      .uninitialized allocation ∈ first.2.types ∧ labels.label allocation.toNat = .ok label)
    (fun _ => nofun)
    (fun type ht label hl =>
      absurd hl ((List.mem_append.1 ht).elim (plain.1 type) (plain.2 type) label))
    (fun first hf stored hs type hc label hl => by
      obtain ⟨allocation, rfl, hal⟩ := OffsetLabels.uninitialized_of_convert (hl ▸ hc)
      exact ⟨first, hf, allocation, hs, hal⟩) hm).resolve_left List.not_mem_nil
  exact ⟨hboth.1, fun label hl => hboth.2 _ hl label rfl⟩

/-- The labels that a decoded body refers to were made for offsets. -/
theorem DecodedAs.label_of_mentions (h : DecodedAs code pool shape body entries tables labels) {label : Label}
    (hm : body.Mentions label) : ∃ offset, labels.label offset = .ok label := by
  have hrow : ∀ {rows : List LocalVariable} {found : List LocalEntry},
      rows.mapM (labels.localEntry pool) = .ok found → ∀ entry ∈ found,
      (∃ offset, labels.label offset = .ok entry.start) ∧ ∃ offset, labels.label offset = .ok entry.stop :=
    fun hrows entry he => by
      obtain ⟨row, -, hr⟩ := exists_left_of_mem (mapM_eq_ok.1 hrows) he
      obtain ⟨hstart, hstop, -⟩ := OffsetLabels.localEntry_eq_ok hr
      exact ⟨⟨_, hstart⟩, _, hstop⟩
  have hlocal : ∀ entry ∈ body.locals ++ body.localTypes,
      (∃ offset, labels.label offset = .ok entry.start) ∧ ∃ offset, labels.label offset = .ok entry.stop :=
    fun entry he => (List.mem_append.1 he).elim (hrow h.locals entry) (hrow h.localTypes entry)
  have hhandler : ∀ handler ∈ body.handlers, ∃ entry, labels.handler pool entry = .ok handler :=
    fun handler hh => by
      obtain ⟨entry, -, he⟩ := exists_left_of_mem (mapM_eq_ok.1 h.handlers) hh
      exact ⟨entry, he⟩
  cases hm with
  | node hm =>
    obtain ⟨offset, label, hl, he⟩ | ⟨entry, -, hn⟩ := h.mem_nodes hm
    · cases he
      exact ⟨offset, OffsetLabels.label_eq_ok.2 hl⟩
    · obtain ⟨offset, found | found⟩ := entry
      · cases hn
      · obtain ⟨_, -, hn⟩ := except_bind_eq_ok.1 hn
        cases hn
  | target hm =>
    rcases List.mem_append.1 hm with hm | hm
    · obtain ⟨node, hn, ht⟩ := List.mem_flatMap.1 hm
      cases node with
      | label l => cases ht
      | insn i => cases ht
      | branch branch =>
        obtain ⟨_, _, -, he⟩ | ⟨entry, -, he⟩ := h.mem_nodes hn
        · cases he
        · obtain ⟨found, -, hfound⟩ := OffsetLabels.branch_of_node he
          obtain ⟨offset, -, ho⟩ := exists_left_of_mem (Branch.mapM_eq_ok hfound).1 ht
          exact ⟨offset, ho⟩
    · obtain ⟨handler, hh, rfl⟩ := List.mem_map.1 hm
      obtain ⟨entry, he⟩ := hhandler handler hh
      exact ⟨_, (OffsetLabels.handler_eq_ok he).2.2.2.1⟩
  | start hh =>
    obtain ⟨entry, he⟩ := hhandler _ hh
    exact ⟨_, (OffsetLabels.handler_eq_ok he).2.1⟩
  | stop hh =>
    obtain ⟨entry, he⟩ := hhandler _ hh
    exact ⟨_, (OffsetLabels.handler_eq_ok he).2.2.1⟩
  | frame he =>
    obtain ⟨first, -, hl⟩ := (h.labels_of_frame he).1
    exact ⟨_, hl⟩
  | allocation he ht =>
    obtain ⟨first, -, allocation, -, hl⟩ := (h.labels_of_frame he).2 _ ht
    exact ⟨_, hl⟩
  | line he =>
    obtain ⟨row, -, hr⟩ := exists_left_of_mem (mapM_eq_ok.1 h.lines) he
    exact ⟨_, (OffsetLabels.lineEntry_eq_ok hr).1⟩
  | localStart he => exact (hlocal _ he).1
  | localStop he => exact (hlocal _ he).2

/-- The labels that a decoded body refers to have been handed out. -/
theorem lt_of_decode (h : decode code pool shape = .ok body) {label : Label} (hm : body.Mentions label) :
    label.number < body.labels.allocated := by
  obtain ⟨entries, tables, labels, decoded⟩ := decodedAs_of_decode h
  obtain ⟨offset, ho⟩ := decoded.label_of_mentions hm
  rw [decoded.supply]
  exact (OffsetLabels.numbered decoded.known).lt_of_label ho

end MethodBody

end ClassWeave
