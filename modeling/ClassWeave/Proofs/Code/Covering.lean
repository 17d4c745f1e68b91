import ClassWeave.Proofs.Code.Refitting
import Mathlib.Data.List.Chain

/-!
Stack map tables are complete. A body that was written has a frame wherever control jumps to or cannot
fall, and has no frames but those of its own labels; a body with frames in all these places is not
refused for its frames.
-/

namespace ClassWeave

section Frames

variable {labels : LabelTable} {pool : ConstantPool} {known : OffsetLabels}

/-- A type is read as it was stored. -/
theorem EditType.related_of_convert (bounded : ∀ offset, labels.Marks offset → offset ≤ 65535)
    {type other : EditType} {stored : StoredType} (hstored : EditType.StoredAs labels pool type stored)
    (hother : known.convert pool stored = .ok other) :
    VerificationType.Related Eq (SameOffset labels known) type other := by
  refine VerificationType.Related.comp hstored (OffsetLabels.convert_eq_ok.1 hother)
    (fun name index found hname hfound => ?_)
    fun label index found hl hfound => ⟨_, LabelTable.offset_of_index bounded hl, hfound⟩
  rw [ConstantPool.className_of_internClass hname] at hfound
  exact Except.ok.inj hfound

/-- A frame is read as it was stored. -/
theorem EditFrame.related_of_store (bounded : ∀ offset, labels.Marks offset → offset ≤ 65535)
    {frame other : EditFrame} {stored : StoredFrame}
    (hstored : EditFrame.store labels frame pool = .ok stored pool)
    (hstands : Frame.StandsFor (known.convert pool) stored other) :
    EditFrame.Related (SameOffset labels known) frame other := by
  obtain ⟨hlocals, hstack⟩ := EditFrame.store_eq_ok.1 hstored
  obtain ⟨locals, stack, rfl, hread, hread'⟩ := hstands
  have hcompact := Frame.forall₂_compactLocals (fun _ _ hr => hr.erase_eq) hlocals
  have hsame := forall₂_comp hcompact hread fun _ _ _ => EditType.related_of_convert bounded
  exact ⟨Frame.forall₂_ofCompact (fun _ _ hr => hr.erase_eq) hsame stack,
    forall₂_comp hstack hread' fun _ _ _ => EditType.related_of_convert bounded⟩

theorem EditFrame.Related.of_sameAs {R : Label → Label → Prop} {frame other last : EditFrame}
    (h : other.Related R last) (hsame : frame.sameAs other = true) : frame.Related R last := by
  obtain ⟨hstack, hlocals⟩ := Frame.sameAs_iff.1 hsame
  exact ⟨hlocals ▸ h.locals, hstack ▸ h.stack⟩

end Frames

namespace OffsetFrames

variable {frames : OffsetFrames}

/-- Instructions that control cannot fall to have frames. -/
theorem checkAfterJumps_iff {placed : List Placed} (hplain : ∀ p ∈ placed, p.node.isLabel = false)
    (afterJump : Bool) (label : Option Label) :
    frames.checkAfterJumps placed afterJump label = .ok () ↔
      (∀ first ∈ placed.head?, afterJump = true → frames.hasOffset first.offset = true) ∧
        placed.IsChain fun last next => last.node.fallsThrough = false →
          frames.hasOffset next.offset = true := by
  induction placed generalizing afterJump label with
  | nil => exact iff_of_true rfl ⟨nofun, .nil⟩
  | cons first rest ih =>
    obtain ⟨hfirst, hrest⟩ := List.forall_mem_cons.1 hplain
    rw [checkAfterJumps_cons hfirst, ih hrest]
    cases rest with
    | nil => simp
    | cons second rest => simp

variable {P : ClassError → Prop} {layout : Layout}

theorem checkTargets_fails {targets : List Label}
    (hoffset : ∀ target ∈ targets, FailsOnly P (layout.labels.offset target))
    (h : ∀ target ∈ targets, ∀ offset, layout.labels.offset? target = some offset →
      frames.hasOffset offset = false → P (.missingFrame target)) :
    FailsOnly P (frames.checkTargets layout targets) := by
  induction targets with
  | nil => exact .ok ()
  | cons target rest ih =>
    refine .bind (.bind (hoffset target List.mem_cons_self) fun offset ho => ?_) fun _ _ =>
      ih (fun t ht => hoffset t (List.mem_cons_of_mem _ ht)) fun t ht => h t (List.mem_cons_of_mem _ ht)
    split
    · exact .ok ()
    · next hnone =>
      exact .error (h target List.mem_cons_self offset (LabelTable.offset_eq_ok.1 ho)
        (Bool.eq_false_iff.2 hnone))

theorem checkAfterJumps_fails (missing : ∀ label, P (.missingFrame label)) (unreachable : P .unreachableCode)
    (placed : List Placed) (afterJump : Bool) (label : Option Label) :
    FailsOnly P (frames.checkAfterJumps placed afterJump label) := by
  induction placed generalizing afterJump label with
  | nil => exact .ok ()
  | cons first rest ih =>
    unfold checkAfterJumps
    split
    · exact ih afterJump _
    · refine .ite ?_ (ih _ none)
      cases label with
      | some label => exact .error (missing label)
      | none => exact .error unreachable

end OffsetFrames

namespace Layout

variable {P : ClassError → Prop}

/-- Nodes have a layout unless a label is placed twice, or one that a goto leads to is not placed. -/
theorem compute_fails (duplicate : ∀ label, P (.duplicateLabel label))
    (unbound : ∀ label, P (.unboundLabel label)) (nodes : List Node) :
    FailsOnly P (compute nodes) := by
  have onto : ∀ (nodes : List (Node × Bool)) done labels offset,
      FailsOnly P (placeOnto nodes done labels offset) := by
    intro nodes
    induction nodes with
    | nil => exact fun done labels offset => .ok _
    | cons first rest ih =>
      intro done labels offset
      obtain ⟨node, wide⟩ := first
      cases node with
      | label l =>
        unfold placeOnto LabelTable.bindNew
        dsimp only
        cases labels.isBound l with
        | true => exact .error (duplicate l)
        | false => exact ih _ _ _
      | insn i => exact ih _ _ _
      | branch b => exact ih _ _ _
  have wide : ∀ (labels : LabelTable) placed, FailsOnly P (needsWide labels placed) := by
    intro labels placed
    unfold needsWide
    split
    · exact .bind (LabelTable.offset_fails (unbound _)) fun _ _ => .ok _
    · exact .ok _
  have settled : ∀ rounds (nodes : List (Node × Bool)), FailsOnly P (settle rounds nodes) := by
    intro rounds
    induction rounds with
    | zero => exact fun nodes => onto _ _ _ _
    | succ rounds ih =>
      exact fun nodes => .bind (onto _ _ _ _) fun layout _ =>
        .bind (.mapM fun placed _ => .bind (wide _ _) fun _ _ => .ok _) fun widened _ =>
          .ite (.ok _) (ih widened)
  exact settled _ _

/-- The bytes of an instruction stand at the offset in the code. -/
def StartsAt (layout : Layout) (code : Bytes) (offset : Nat) : Prop :=
  ∃ placed ∈ layout.nodes, placed.node.isLabel = false ∧ placed.offset = offset ∧
    ∃ before content after, placed.bytes layout.labels = .ok content ∧
      code = before ++ content ++ after ∧ before.length = offset

theorem startsAt_of_mem {layout : Layout} {nodes : List Node} {code : Bytes} (hof : layout.IsOf nodes)
    (h : layout.bytes = .ok code) {placed : Placed} (hm : placed ∈ layout.nodes)
    (hplain : placed.node.isLabel = false) : layout.StartsAt code placed.offset := by
  refine ⟨placed, hm, hplain, rfl, ?_⟩
  obtain ⟨flagged, -, he⟩ := hof
  have hnodes : layout.nodes = spread 0 flagged := congrArg Layout.nodes he
  obtain ⟨chunks, hchunks, h⟩ := except_bind_eq_ok.1 h
  cases h
  rw [hnodes] at hchunks hm
  obtain ⟨front, back, rfl, hoffset⟩ := mem_spread hm
  rw [spread_append, List.mapM_append] at hchunks
  obtain ⟨passed, hpassed, hchunks⟩ := except_bind_eq_ok.1 hchunks
  obtain ⟨rest, hrest, hchunks⟩ := except_bind_eq_ok.1 hchunks
  cases hchunks
  obtain ⟨content, others, hcontent, -, rfl⟩ := List.forall₂_cons_left_iff.1 (mapM_eq_ok.1 hrest)
  have hlength := Decoded.length_spread hpassed
  rw [Nat.zero_add, ← hoffset] at hlength
  rw [← hoffset] at hcontent
  exact ⟨passed.flatten, content, others.flatten, hcontent, by simp, hlength⟩

end Layout

/-- A body is refused for its frames: one is missing, or two do not agree. -/
inductive ClassError.OfFrames : ClassError → Prop where
  | missing (label : Label) : OfFrames (.missingFrame label)
  | conflicting (offset : Nat) : OfFrames (.conflictingFrames offset)
  | unreachable : OfFrames .unreachableCode

/-- A body is refused for its labels: one is missing, one is placed twice, or two are in the wrong order.
-/
inductive ClassError.OfLabels : ClassError → Prop where
  | unbound (label : Label) : OfLabels (.unboundLabel label)
  | duplicate (label : Label) : OfLabels (.duplicateLabel label)
  | range (start stop : Label) : OfLabels (.emptyRange start stop)

theorem not_ofFrames_of_limit (problem : ClassError) (h : Limit problem) : ¬problem.OfFrames := by
  cases h <;> exact nofun

namespace MethodBody

/-- Offsets where the verifier asks for a frame. -/
inductive Demands (body : MethodBody) (layout : Layout) : Nat → Prop where
  | jump {branch : Branch Label} {target : Label} {offset : Nat} : .branch branch ∈ body.nodes →
    target ∈ branch.jumpTargets → layout.labels.offset? target = some offset → Demands body layout offset
  | handler {handler : Handler} {offset : Nat} : handler ∈ body.handlers →
    layout.labels.offset? handler.handler = some offset → Demands body layout offset
  | behind {front back : List Placed} {last next : Placed} :
    layout.nodes.filter (!·.node.isLabel) = front ++ last :: next :: back →
    last.node.fallsThrough = false → Demands body layout next.offset

/-- A label on the offset has a frame. -/
def FramedAt (body : MethodBody) (layout : Layout) (offset : Nat) : Prop :=
  ∃ entry ∈ body.frames, layout.labels.offset? entry.1 = some offset

/-- The offsets that ask for frames are inside the code and have them, and frames on one offset inside the
code are the same. -/
structure Covers (body : MethodBody) (layout : Layout) : Prop where
  demands : ∀ offset, body.Demands layout offset → offset < layout.length ∧ body.FramedAt layout offset
  agree : ∀ a ∈ body.frames, ∀ b ∈ body.frames, ∀ offset < layout.length,
    layout.labels.offset? a.1 = some offset → layout.labels.offset? b.1 = some offset →
    a.2.sameAs b.2 = true

/-- The table has the frames of the body's labels inside the code at their offsets, and one wherever the
verifier asks for it. A frame is told by what the decoder makes of it, with any labels for the offsets. -/
structure MappedBy (body : MethodBody) (layout : Layout) (pool : ConstantPool) (code : Bytes)
    (frames : List StackMapFrame) : Prop where
  ascending : ((stackMapOffsets none frames).map Prod.fst).Pairwise (· < ·)
  starts : ∀ offset ∈ (stackMapOffsets none frames).map Prod.fst, layout.StartsAt code offset
  demanded : ∀ offset, body.Demands layout offset → offset ∈ (stackMapOffsets none frames).map Prod.fst
  framed : ∀ offset < layout.length,
    offset ∈ (stackMapOffsets none frames).map Prod.fst ↔ body.FramedAt layout offset
  shown : ∀ known : OffsetLabels, known.Numbered → known.Covers (stackMapOffsets none frames) →
    ∃ table, known.frames pool (stackMapOffsets none frames) body.shape.entryFrame [] = .ok table ∧
      ∀ entry ∈ body.frames, ∀ offset < layout.length, layout.labels.offset? entry.1 = some offset →
        ∃ label frame, known.label offset = .ok label ∧ table.find? label = some frame ∧
          entry.2.Related (SameOffset layout.labels known) frame

variable {body : MethodBody} {version : Version} {limit : Nat} {pool : ConstantPool} {code : Code}
  {layout : Layout} {tables : CodeTables}

theorem mem_jumpTargets {target : Label} : target ∈ body.jumpTargets ↔
    (∃ branch, .branch branch ∈ body.nodes ∧ target ∈ branch.jumpTargets) ∨
      ∃ handler ∈ body.handlers, handler.handler = target := by
  unfold jumpTargets
  rw [List.mem_append, List.mem_flatMap, List.mem_map]
  refine or_congr_left ⟨?_, ?_⟩
  · rintro ⟨node, hm, ht⟩
    cases node with
    | branch branch => exact ⟨branch, hm, ht⟩
    | label l => cases ht
    | insn i => cases ht
  · rintro ⟨branch, hm, ht⟩
    exact ⟨_, hm, ht⟩

/-- The frames that were put in place tell where the table has frames. -/
theorem WrittenAs.mappedBy (h : body.WrittenAs version pool code layout tables)
    (hv : version.hasStackMaps = true) : body.MappedBy layout pool code.code tables.frames := by
  obtain ⟨hof, hnodup⟩ := Layout.isOf_of_compute h.placed
  have hmaps := (h.frames.resolve_right fun hn => by simp [hv] at hn).2
  obtain ⟨placed, entry, hplaced, htargets, hafter, hentry, hcompress⟩ := stackMap_eq_ok.1 hmaps
  have hsorted := OffsetFrames.sorted_ofLabels hplaced
  have hmarks : ∀ e ∈ placed, layout.labels.Marks e.1 := fun e hm => by
    obtain ⟨label, -, ho, -⟩ := OffsetFrames.mem_ofLabels hplaced hm
    exact ⟨label, LabelTable.offset_eq_ok.2 ho⟩
  obtain ⟨written, hsame, hwritten⟩ := OffsetFrames.written_of_compress h.bounded hcompress hsorted
    (fun e hm => h.bounded e.1 (hmarks e hm)) nofun
  have hsame : tables.frames = written := hsame
  rw [hsame]
  have mem_iff : ∀ offset, offset ∈ (stackMapOffsets none written).map Prod.fst ↔
      placed.hasOffset offset = true := by
    intro offset
    rw [hwritten.offsets, OffsetFrames.hasOffset_iff]
    simp
  refine ⟨?_, fun offset hm => ?_, fun offset hd => ?_, fun offset hlt => ?_, fun known numbered covers => ?_⟩
  · rw [hwritten.offsets]
    exact List.pairwise_map.2 hsorted
  · obtain ⟨frame, hm⟩ := (OffsetFrames.hasOffset_iff _ _).1 ((mem_iff offset).1 hm)
    obtain ⟨label, -, ho, hne⟩ := OffsetFrames.mem_ofLabels hplaced hm
    have hboundary := (h.mem_boundaries (hmarks _ hm)).1
    rcases List.mem_append.1 hboundary with hstart | hend
    · obtain ⟨start, hs, rfl⟩ := List.mem_map.1 hstart
      obtain ⟨hs, hplain⟩ := List.mem_filter.1 hs
      exact Layout.startsAt_of_mem hof h.bytes hs (by simpa using hplain)
    · exact absurd (List.mem_singleton.1 hend) hne
  · rw [mem_iff]
    have jumped : ∀ target ∈ body.jumpTargets, layout.labels.offset? target = some offset →
        placed.hasOffset offset = true := fun target ht ho => by
      obtain ⟨found, hfound, hhas⟩ := OffsetFrames.hasOffset_of_checkTargets htargets target ht
      rw [LabelTable.offset_eq_ok.1 hfound] at ho
      cases ho
      exact hhas
    cases hd with
    | jump hb ht ho => exact jumped _ (mem_jumpTargets.2 (.inl ⟨_, hb, ht⟩)) ho
    | handler hm ho => exact jumped _ (mem_jumpTargets.2 (.inr ⟨_, hm, rfl⟩)) ho
    | behind hsplit hstops =>
      rw [OffsetFrames.checkAfterJumps_filter _ _ _ none, OffsetFrames.checkAfterJumps_iff fun p hp => by
        simpa using (List.mem_filter.1 hp).2, hsplit] at hafter
      exact List.isChain_iff_forall_rel_of_append_cons_cons.1 hafter.2 rfl hstops
  · rw [mem_iff]
    constructor
    · intro hhas
      obtain ⟨frame, hm⟩ := (OffsetFrames.hasOffset_iff _ _).1 hhas
      obtain ⟨label, hf, ho, -⟩ := OffsetFrames.mem_ofLabels hplaced hm
      exact ⟨_, hf, ho⟩
    · rintro ⟨entry, hm, ho⟩
      exact OffsetFrames.hasOffset_ofLabels hplaced hm ho (Nat.ne_of_lt hlt)
  · obtain ⟨again, hagain, hrestored⟩ := OffsetFrames.restored_of_compress numbered hcompress hsorted
      (fun e hm => h.bounded e.1 (hmarks e hm)) nofun
    have hagain : written = again := hsame.symm.trans hagain
    subst hagain
    obtain ⟨table, htable⟩ := hwritten.taken known covers body.shape.entryFrame []
      (Frame.map_erase_compactLocals (EditFrame.written_of_store h.bounded hentry).2.1).symm
    obtain ⟨hread, -⟩ := MethodShape.store_entryFrame layout.labels hentry
    obtain ⟨restored, hrestored, hfills⟩ := hrestored _ _ table hread htable
    refine ⟨table, htable, fun entry hm offset hlt ho => ?_⟩
    have hinside : (offset, entry.2) ∈ OffsetFrames.inside layout body.frames :=
      OffsetFrames.mem_inside.2 ⟨entry.1, hm, ho, Nat.ne_of_lt hlt⟩
    obtain ⟨other, hother, hsame⟩ := OffsetFrames.exists_sameAs hplaced hinside
    obtain ⟨found, hfound, hr⟩ := exists_left_of_mem hrestored.flip hother
    obtain ⟨label, hlabel, hset⟩ := hfills.set found hfound
    obtain ⟨stored, hstored, hstands⟩ := hr.frame
    refine ⟨label, found.2, (congrArg known.label hr.offset).symm.trans hlabel, hset, ?_⟩
    exact (EditFrame.related_of_store h.bounded hstored hstands).of_sameAs hsame

/-- Stack maps are refused for the frames, for want of room in the pool, or for a label without an offset. -/
theorem stackMap_stops_anyhow {P : ClassError → Prop} (full : ∀ problem, Full problem → P problem)
    (frames : ∀ problem, problem.OfFrames → P problem)
    (targets : ∀ target ∈ body.jumpTargets, FailsOnly P (layout.labels.offset target))
    (holds : ∀ frame ∈ body.shape.entryFrame :: body.frames.map Prod.snd,
      frame.All (layout.labels.Holds P)) : StopsOnly P (body.stackMap layout) := by
  refine stackMap_stops_of full (fun problem hplace => ?_) (fun placed _ => ⟨?_, ?_⟩) holds
  · obtain ⟨offset, rfl⟩ := OffsetFrames.ofLabels_error hplace
    exact frames _ (.conflicting offset)
  · exact OffsetFrames.checkTargets_fails targets fun target _ _ _ _ => frames _ (.missing target)
  · exact OffsetFrames.checkAfterJumps_fails (fun label => frames _ (.missing label))
      (frames _ .unreachable) _ _ _

/-- Apart from its sizes a body is refused for want of room in the pool, for its labels or for its frames. -/
theorem encodeWithLimit_stops_sizes {P : ClassError → Prop} (full : ∀ problem, Full problem → P problem)
    (ofLabels : ∀ problem, problem.OfLabels → P problem) (ofFrames : ∀ problem, problem.OfFrames → P problem)
    (length : ∀ layout, Layout.compute body.nodes = .ok layout → min limit maxCodeLength < layout.length →
      P (.codeOverflow layout.length))
    (far : ∀ layout, Layout.compute body.nodes = .ok layout → ∀ placed ∈ layout.nodes, ∀ branch,
      placed.node = .branch branch → ∀ target, branch.near? placed.wide = some target → ∀ distance,
      layout.labels.distance placed.offset target = .ok distance → isShortDistance distance = false →
      P (.branchOutOfRange target distance)) : StopsOnly P (body.encodeWithLimit version limit) := by
  have unbound : ∀ (labels : LabelTable) label, FailsOnly P (labels.offset label) := fun _ _ =>
    LabelTable.offset_fails (ofLabels _ (.unbound _))
  refine encodeWithLimit_stops_parts full (Layout.compute_fails (fun _ => ofLabels _ (.duplicate _))
    (fun _ => ofLabels _ (.unbound _)) body.nodes) fun layout hlayout => ?_
  exact {
    located := ⟨fun _ _ _ _ => unbound _ _, fun _ _ => ⟨unbound _ _, unbound _ _, unbound _ _⟩,
      fun _ _ => unbound _ _, fun _ _ => ⟨unbound _ _, unbound _ _⟩⟩
    length := length layout hlayout
    code := fun _ => Layout.bytes_fails (fun _ _ _ _ _ _ => unbound _ _) (far layout hlayout)
    ranges := fun _ _ _ _ _ _ _ _ => ofLabels _ (.range _ _)
    maps := fun _ => stackMap_stops_anyhow full ofFrames (fun _ _ => unbound _ _)
      fun _ _ => ⟨fun _ _ _ _ => unbound _ _, fun _ _ _ _ => unbound _ _⟩ }

/-- No frame is missing where all that is asked for is there. -/
theorem stackMap_stops_of_covers (hof : layout.IsOf body.nodes)
    (hnodup : (body.nodes.filterMap Node.label?).Nodup) (h : body.Covers layout) :
    StopsOnly (fun problem => ¬problem.OfFrames) (body.stackMap layout) := by
  have unbound : ∀ label, FailsOnly (fun problem => ¬problem.OfFrames) (layout.labels.offset label) :=
    fun label => LabelTable.offset_fails nofun
  refine stackMap_stops_of (fun _ hfull => not_ofFrames_of_limit _ hfull.limit) ?_ (fun frames hplaced => ⟨?_, ?_⟩)
    fun frame _ => ⟨fun _ _ label _ => unbound label, fun _ _ label _ => unbound label⟩
  · have hagree : (OffsetFrames.inside layout body.frames).Agree := by
      intro a ha b hb he
      obtain ⟨l, hl, hi, hne⟩ := OffsetFrames.mem_inside.1 ha
      obtain ⟨m, hm, hj, -⟩ := OffsetFrames.mem_inside.1 hb
      have hle := (Layout.mem_boundaries_of_marks hof hnodup ⟨l, LabelTable.offset_eq_ok.2 hi⟩).2
      exact h.agree _ hl _ hm a.1 (Nat.lt_of_le_of_ne hle hne) hi (he ▸ hj)
    obtain ⟨out, hout⟩ := (OffsetFrames.ofLabels_ok_iff layout body.frames).2 hagree
    exact hout ▸ .ok out
  all_goals
    have demanded : ∀ offset, body.Demands layout offset → frames.hasOffset offset = true := by
      intro offset hd
      obtain ⟨hlt, entry, hm, ho⟩ := h.demands offset hd
      exact OffsetFrames.hasOffset_ofLabels hplaced hm ho (Nat.ne_of_lt hlt)
  · refine OffsetFrames.checkTargets_fails (fun target _ => unbound target) fun target ht offset ho hno => ?_
    rcases mem_jumpTargets.1 ht with ⟨branch, hb, ht⟩ | ⟨handler, hm, rfl⟩
    · exact absurd (demanded offset (.jump hb ht ho)) (Bool.eq_false_iff.1 hno)
    · exact absurd (demanded offset (.handler hm ho)) (Bool.eq_false_iff.1 hno)
  · have hafter : frames.checkAfterJumps layout.nodes false none = .ok () := by
      rw [OffsetFrames.checkAfterJumps_filter _ _ _ none, OffsetFrames.checkAfterJumps_iff fun p hp => by
        simpa using (List.mem_filter.1 hp).2]
      refine ⟨nofun, List.isChain_iff_forall_rel_of_append_cons_cons.2 ?_⟩
      exact fun _ _ _ _ hsplit hstops => demanded _ (.behind hsplit hstops)
    exact hafter ▸ .ok ()

theorem encodeWithLimit_stops_of_covers
    (h : ∀ layout, Layout.compute body.nodes = .ok layout → body.Covers layout) :
    StopsOnly (fun problem => ¬problem.OfFrames) (body.encodeWithLimit version limit) := by
  refine encodeWithLimit_stops_of not_ofFrames_of_limit (Layout.compute_fails (fun _ => nofun)
    (fun _ => nofun) body.nodes) (fun layout _ => ?_) fun layout hlayout _ => ?_
  · have unbound : ∀ label, FailsOnly (fun problem => ¬problem.OfFrames) (layout.labels.offset label) :=
      fun label => LabelTable.offset_fails nofun
    exact ⟨fun _ _ _ _ => unbound _, fun _ _ => ⟨unbound _, unbound _, unbound _⟩, fun _ _ => unbound _,
      fun _ _ => ⟨unbound _, unbound _⟩⟩
  · obtain ⟨hof, hnodup⟩ := Layout.isOf_of_compute hlayout
    exact stackMap_stops_of_covers hof hnodup (h layout hlayout)

/-- The tables of lines and variables are none of stack maps. -/
theorem DebugWrittenAs.name_ne {labels : LabelTable} {attributes : List Attribute}
    (h : body.DebugWrittenAs labels pool tables attributes) :
    ∀ item ∈ attributes, pool.utf8 item.name ≠ .ok stackMapTable.name := by
  have other : ∀ {α : Type} {format : AttributeFormat (List α)} {entries : List α} {items : List Attribute},
      storeUnlessEmpty format entries pool = .ok items pool → format.name ≠ stackMapTable.name →
      ∀ item ∈ items, pool.utf8 item.name ≠ .ok stackMapTable.name := by
    intro α format entries items hs hne item hm he
    obtain ⟨-, rfl⟩ | ⟨found, rfl, hname, -⟩ := holdsTable_of_store hs
    · cases hm
    · rw [List.mem_singleton.1 hm, hname] at he
      exact hne (Except.ok.inj he)
  obtain ⟨lines, locals, localTypes, rfl, hlines, hlocals, hlocalTypes⟩ := h.attributes
  intro item hm
  rcases List.mem_append.1 hm with hm | hm
  · rcases List.mem_append.1 hm with hm | hm
    · exact other hlines (by decide) item hm
    · exact other hlocals (by decide) item hm
  · exact other hlocalTypes (by decide) item hm

/-- A body that is written has a stack map table for the frames of its labels, with one wherever the
verifier asks for it; and a body with frames in all these places inside its code is not refused for them.
-/
theorem maps_of_encode (hv : version.hasStackMaps = true) (start : ConstantPool) :
    (∀ code pool, body.encodeWithLimit version limit start = .ok code pool →
      ∃ layout frames stackMaps others, Layout.compute body.nodes = .ok layout ∧
        layout.bytes = .ok code.code ∧ code.attributes = stackMaps ++ others ∧
        (∀ item ∈ others, pool.utf8 item.name ≠ .ok stackMapTable.name) ∧
        HoldsTable pool stackMapTable frames stackMaps ∧
        ((∀ entry ∈ body.frames, entry.2.compactLocals.length < 65536 ∧ entry.2.stack.length < 65536) →
          ∀ item ∈ stackMaps, item.parse stackMapTable = .ok frames) ∧
        body.MappedBy layout pool code.code frames) ∧
      ((∀ layout, Layout.compute body.nodes = .ok layout → body.Covers layout) →
        ∀ problem pool, body.encodeWithLimit version limit start = .error problem pool →
          ¬problem.OfFrames) := by
  refine ⟨fun code pool h => ?_, fun hcovers problem pool h =>
    encodeWithLimit_stops_of_covers hcovers start problem pool h⟩
  obtain ⟨layout, tables, hwritten⟩ := writtenAs_of_encode h
  obtain ⟨stackMaps, others, hattributes, hstackMaps, hdebug⟩ := hwritten.attributes
  have hholds := holdsTable_of_store hstackMaps
  refine ⟨layout, tables.frames, stackMaps, others, hwritten.placed, hwritten.bytes, hattributes,
    hdebug.name_ne, hholds, fun fits item hm => ?_, hwritten.mappedBy hv⟩
  have hread := (hwritten.stackMaps (fun offset ho => (hwritten.mem_boundaries ho).2) fits).1
  obtain ⟨-, rfl⟩ | ⟨found, rfl, -, hparse⟩ :=
    hholds.parse fun _ => reads_stackMapTable hread.length hread.fits
  · cases hm
  · exact List.mem_singleton.1 hm ▸ hparse

/-- Two labels in front of one instruction, of which one frame has an unusable local at its end, and a
frame behind the code. -/
def rejoining : MethodBody where
  shape := ⟨"a/B", true, false, ⟨[.base .int], none⟩⟩
  envelope := ⟨1, 1⟩
  nodes := [.insn (.load .int 0), .branch (.ifZero .eq ⟨1⟩), .branch (.goto ⟨0⟩), .label ⟨1⟩, .label ⟨0⟩,
    .branch (.return none), .label ⟨2⟩]
  handlers := []
  frames := [(⟨0⟩, ⟨[.integer], []⟩), (⟨1⟩, ⟨[.integer, .top], []⟩), (⟨2⟩, ⟨[], []⟩)]
  lines := []
  locals := []
  localTypes := []
  labels := ⟨3⟩

theorem maps_rejoining : Version.java6.hasStackMaps = true ∧
    ∃ code pool, rejoining.encode .java6 .empty = .ok code pool ∧ ∃ layout frames stackMaps others,
      Layout.compute rejoining.nodes = .ok layout ∧ code.attributes = stackMaps ++ others ∧
      HoldsTable pool stackMapTable frames stackMaps ∧
      (∀ item ∈ stackMaps, item.parse stackMapTable = .ok frames) ∧
      rejoining.MappedBy layout pool code.code frames := by
  have hv : Version.java6.hasStackMaps = true := by decide
  have written : (match rejoining.encode .java6 .empty with
      | .ok _ _ => true
      | .error _ _ => false) = true := by decide +kernel
  refine ⟨hv, ?_⟩
  split at written
  · next code pool h =>
    obtain ⟨layout, frames, stackMaps, others, hlayout, -, hattributes, -, hholds, hparse, hmapped⟩ :=
      (maps_of_encode hv .empty).1 code pool h
    exact ⟨code, pool, h, layout, frames, stackMaps, others, hlayout, hattributes, hholds,
      hparse (by decide), hmapped⟩
  · cases written

/-- A jump to the end of the code, where the label has a frame. -/
def overrunning : MethodBody where
  shape := ⟨"a/B", true, false, ⟨[], none⟩⟩
  envelope := ⟨0, 0⟩
  nodes := [.branch (.goto ⟨0⟩), .label ⟨0⟩]
  handlers := []
  frames := [(⟨0⟩, ⟨[], []⟩)]
  lines := []
  locals := []
  localTypes := []
  labels := ⟨1⟩

/-- Frames are written inside the code only, so what has a frame at the end is as good as without. -/
theorem missingFrame_overrunning : (overrunning.nodes.filterMap Node.label?).Nodup ∧
    (∃ layout, Layout.compute overrunning.nodes = .ok layout ∧
      (∀ offset, overrunning.Demands layout offset → overrunning.FramedAt layout offset) ∧
      ∀ a ∈ overrunning.frames, ∀ b ∈ overrunning.frames, a.2.sameAs b.2 = true) ∧
    ∃ pool, overrunning.encode .java6 .empty = .error (.missingFrame ⟨0⟩) pool := by
  have refused : (match overrunning.encode .java6 .empty with
      | .ok _ _ => false
      | .error problem _ => decide (problem = .missingFrame ⟨0⟩)) = true := by decide +kernel
  obtain ⟨layout, hlayout, hof⟩ := @Layout.compute_ok overrunning.nodes (by decide) fun target hm => by
    simpa [overrunning] using hm
  refine ⟨by decide, ⟨layout, hlayout, fun offset hd => ?_, by decide⟩, ?_⟩
  · cases hd with
    | jump hb ht ho =>
      simp only [overrunning, List.mem_cons, Node.branch.injEq, List.not_mem_nil, or_false, reduceCtorEq] at hb
      rw [hb] at ht
      exact ⟨_, List.mem_cons_self, List.mem_singleton.1 ht ▸ ho⟩
    | handler hm => cases hm
    | behind hsplit =>
      have hcount := congrArg List.length hsplit
      rw [← List.countP_eq_length_filter, List.length_append, List.length_cons, List.length_cons] at hcount
      have hone : layout.nodes.countP (!·.node.isLabel) = 1 := by
        have hmap := List.countP_map (p := fun node : Node => !node.isLabel) (f := Placed.node) (l := layout.nodes)
        rw [hof.map_node] at hmap
        exact hmap.symm
      omega
  · split at refused
    · cases refused
    · next problem pool h => exact ⟨pool, of_decide_eq_true refused ▸ h⟩

end MethodBody

end ClassWeave
