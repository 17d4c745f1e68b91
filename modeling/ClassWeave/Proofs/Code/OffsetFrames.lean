import ClassWeave.Code.Encode
import ClassWeave.Proofs.Code.FrameTable
import ClassWeave.Proofs.Code.Soundness
import ClassWeave.Proofs.Code.Layout

/-!
From frames at labels to frames at offsets. Labels on one offset have to agree on its frame, and that
is all that putting the frames in place asks for.
-/

namespace ClassWeave

namespace Frame

variable {C P : Type} [DecidableEq C] [DecidableEq P] {a b c : Frame C P}

theorem sameAs_iff : a.sameAs b = true ↔ a.stack = b.stack ∧ a.compactLocals = b.compactLocals := by
  simp [sameAs]

theorem sameAs_refl (a : Frame C P) : a.sameAs a = true := sameAs_iff.2 ⟨rfl, rfl⟩

theorem sameAs_symm (h : a.sameAs b = true) : b.sameAs a = true :=
  sameAs_iff.2 ⟨(sameAs_iff.1 h).1.symm, (sameAs_iff.1 h).2.symm⟩

theorem sameAs_trans (h : a.sameAs b = true) (h' : b.sameAs c = true) : a.sameAs c = true :=
  sameAs_iff.2 ⟨(sameAs_iff.1 h).1.trans (sameAs_iff.1 h').1,
    (sameAs_iff.1 h).2.trans (sameAs_iff.1 h').2⟩

end Frame

namespace OffsetFrames

variable {frames table table' : OffsetFrames} {offset : Nat} {frame : EditFrame}

/-- Frames on one offset are the same. -/
def Agree (frames : OffsetFrames) : Prop :=
  ∀ a ∈ frames, ∀ b ∈ frames, a.1 = b.1 → a.2.sameAs b.2 = true

def Sorted (frames : OffsetFrames) : Prop := List.Pairwise (fun a b => a.1 < b.1) frames

theorem set_error {problem : ClassError} (h : set offset frame table = .error problem) :
    problem = .conflictingFrames offset ∧
      ∃ existing, (offset, existing) ∈ table ∧ existing.sameAs frame = false := by
  induction table with
  | nil => cases h
  | cons first rest ih =>
    obtain ⟨other, existing⟩ := first
    unfold set at h
    split at h
    · cases h
    · split at h
      · next heq =>
        subst heq
        split at h
        · cases h
        · next hsame =>
          cases h
          exact ⟨rfl, existing, List.mem_cons_self, Bool.eq_false_iff.2 hsame⟩
      · split at h
        · cases h
        · next hrest =>
          cases h
          obtain ⟨hp, found, hm, hs⟩ := ih hrest
          exact ⟨hp, found, List.mem_cons_of_mem _ hm, hs⟩

/-- A table in order keeps its entries but the one on the same offset, which agrees. -/
theorem set_ok (hs : table.Sorted) (h : set offset frame table = .ok table') :
    table'.Sorted ∧ (∀ entry, entry ∈ table' ↔
      entry = (offset, frame) ∨ (entry ∈ table ∧ entry.1 ≠ offset)) ∧
      ∀ entry ∈ table, entry.1 = offset → entry.2.sameAs frame = true := by
  induction table generalizing table' with
  | nil =>
    cases h
    exact ⟨List.pairwise_singleton _ _, by simp, by simp⟩
  | cons first rest ih =>
    obtain ⟨other, existing⟩ := first
    obtain ⟨hfirst, hrest⟩ := List.pairwise_cons.1 hs
    unfold set at h
    split at h
    · next hlt =>
      cases h
      have hall : ∀ entry ∈ (other, existing) :: rest, offset < entry.1 := by
        intro entry hm
        rcases List.mem_cons.1 hm with rfl | hm
        · exact hlt
        · exact Nat.lt_trans hlt (hfirst entry hm)
      refine ⟨List.pairwise_cons.2 ⟨hall, hs⟩, fun entry => ?_, fun entry hm he => ?_⟩
      · rw [List.mem_cons]
        exact or_congr_right ⟨fun hm => ⟨hm, Nat.ne_of_gt (hall entry hm)⟩, And.left⟩
      · exact absurd he (Nat.ne_of_gt (hall entry hm))
    · split at h
      · next heq =>
        subst heq
        split at h
        · next hsame =>
          cases h
          refine ⟨List.pairwise_cons.2 ⟨hfirst, hrest⟩, fun entry => ?_, fun entry hm he => ?_⟩
          · rw [List.mem_cons, List.mem_cons]
            refine or_congr_right ⟨fun hm => ⟨.inr hm, Nat.ne_of_gt (hfirst entry hm)⟩, ?_⟩
            rintro ⟨rfl | hm, hne⟩
            · exact absurd rfl hne
            · exact hm
          · rcases List.mem_cons.1 hm with rfl | hm
            · exact hsame
            · exact absurd he (Nat.ne_of_gt (hfirst entry hm))
        · cases h
      · next hge hne =>
        split at h
        · next out hout =>
          cases h
          obtain ⟨hsorted, hmem, hsame⟩ := ih hrest hout
          refine ⟨List.pairwise_cons.2 ⟨fun entry hm => ?_, hsorted⟩, fun entry => ?_,
            fun entry hm he => ?_⟩
          · rcases (hmem entry).1 hm with rfl | ⟨hm, -⟩
            · change other < offset
              omega
            · exact hfirst entry hm
          · rw [List.mem_cons, hmem, List.mem_cons]
            constructor
            · rintro (rfl | rfl | ⟨hm, hne'⟩)
              · exact .inr ⟨.inl rfl, Ne.symm hne⟩
              · exact .inl rfl
              · exact .inr ⟨.inr hm, hne'⟩
            · rintro (rfl | ⟨rfl | hm, hne'⟩)
              · exact .inr (.inl rfl)
              · exact .inl rfl
              · exact .inr (.inr ⟨hm, hne'⟩)
          · rcases List.mem_cons.1 hm with rfl | hm
            · exact absurd he.symm hne
            · exact hsame entry hm he
        · cases h

theorem Sorted.agree (hs : table.Sorted) : Agree table := by
  intro a ha b hb he
  induction table with
  | nil => cases ha
  | cons first rest ih =>
    obtain ⟨hfirst, hrest⟩ := List.pairwise_cons.1 hs
    rcases List.mem_cons.1 ha with rfl | ha'
    · rcases List.mem_cons.1 hb with rfl | hb'
      · exact Frame.sameAs_refl _
      · exact absurd he (Nat.ne_of_lt (hfirst b hb'))
    · rcases List.mem_cons.1 hb with rfl | hb'
      · exact absurd he (Nat.ne_of_gt (hfirst a ha'))
      · exact ih hrest ha' hb'

/-- Setting a frame that agrees with the others decides nothing about further ones. -/
theorem agree_set_append (hs : table.Sorted) (h : set offset frame table = .ok table')
    (added : OffsetFrames) : Agree (table' ++ added) ↔ Agree (table ++ (offset, frame) :: added) := by
  obtain ⟨-, hmem, hsame⟩ := set_ok hs h
  have stands : ∀ a ∈ table ++ (offset, frame) :: added, ∃ b ∈ table' ++ added,
      a.1 = b.1 ∧ a.2.sameAs b.2 = true := by
    intro a ha
    rcases List.mem_append.1 ha with ha | ha
    · by_cases he : a.1 = offset
      · exact ⟨(offset, frame), List.mem_append_left _ ((hmem _).2 (.inl rfl)), he, hsame a ha he⟩
      · exact ⟨a, List.mem_append_left _ ((hmem a).2 (.inr ⟨ha, he⟩)), rfl, Frame.sameAs_refl _⟩
    · rcases List.mem_cons.1 ha with rfl | ha
      · exact ⟨_, List.mem_append_left _ ((hmem _).2 (.inl rfl)), rfl, Frame.sameAs_refl _⟩
      · exact ⟨a, List.mem_append_right _ ha, rfl, Frame.sameAs_refl _⟩
  have kept : ∀ a ∈ table' ++ added, a ∈ table ++ (offset, frame) :: added := by
    intro a ha
    rcases List.mem_append.1 ha with ha | ha
    · rcases (hmem a).1 ha with rfl | ⟨ha, -⟩
      · exact List.mem_append_right _ List.mem_cons_self
      · exact List.mem_append_left _ ha
    · exact List.mem_append_right _ (List.mem_cons_of_mem _ ha)
  constructor
  · intro hagree a ha b hb he
    obtain ⟨a', ha', hea, hsa⟩ := stands a ha
    obtain ⟨b', hb', heb, hsb⟩ := stands b hb
    have hmid := hagree a' ha' b' hb' (hea.symm.trans (he.trans heb))
    exact Frame.sameAs_trans (Frame.sameAs_trans hsa hmid) (Frame.sameAs_symm hsb)
  · exact fun hagree a ha b hb => hagree a (kept a ha) b (kept b hb)

/-- Sets frames one after another. -/
def setAll (table added : OffsetFrames) : Except ClassError OffsetFrames :=
  added.foldlM (fun table entry => set entry.1 entry.2 table) table

theorem setAll_cons (table : OffsetFrames) (entry : Nat × EditFrame) (added : OffsetFrames) :
    setAll table (entry :: added) = set entry.1 entry.2 table >>= (setAll · added) := rfl

theorem setAll_error {added : OffsetFrames} {problem : ClassError}
    (h : setAll table added = .error problem) : ∃ offset, problem = .conflictingFrames offset := by
  induction added generalizing table with
  | nil => cases h
  | cons entry rest ih =>
    rw [setAll_cons] at h
    cases hset : set entry.1 entry.2 table with
    | error other =>
      rw [hset] at h
      cases h
      exact ⟨_, (set_error hset).1⟩
    | ok next =>
      rw [hset] at h
      exact ih h

theorem setAll_ok_iff (hs : table.Sorted) (added : OffsetFrames) :
    (∃ out, setAll table added = .ok out) ↔ Agree (table ++ added) := by
  induction added generalizing table with
  | nil =>
    rw [List.append_nil]
    exact ⟨fun _ => hs.agree, fun _ => ⟨table, rfl⟩⟩
  | cons entry rest ih =>
    rw [setAll_cons]
    cases hset : set entry.1 entry.2 table with
    | error problem =>
      obtain ⟨-, existing, hm, hdiffers⟩ := set_error hset
      refine ⟨fun ⟨out, hout⟩ => (by cases hout), fun hagree => ?_⟩
      have hsame := hagree _ (List.mem_append_left _ hm) entry
        (List.mem_append_right _ List.mem_cons_self) rfl
      rw [hdiffers] at hsame
      cases hsame
    | ok next =>
      refine Iff.trans ?_ (agree_set_append hs hset rest)
      exact ih (set_ok hs hset).1

theorem hasOffset_iff (frames : OffsetFrames) (offset : Nat) :
    frames.hasOffset offset = true ↔ ∃ frame, (offset, frame) ∈ frames := by
  unfold hasOffset
  rw [List.any_eq_true]
  constructor
  · rintro ⟨⟨o, frame⟩, hm, he⟩
    exact ⟨frame, of_decide_eq_true he ▸ hm⟩
  · rintro ⟨frame, hm⟩
    exact ⟨_, hm, decide_eq_true rfl⟩

theorem setAll_hasOffset {added out : OffsetFrames} (hs : table.Sorted)
    (h : setAll table added = .ok out) (offset : Nat) :
    out.hasOffset offset = true ↔ hasOffset (table ++ added) offset = true := by
  induction added generalizing table with
  | nil =>
    cases h
    rw [List.append_nil]
  | cons entry rest ih =>
    rw [setAll_cons] at h
    obtain ⟨next, hset, h⟩ := except_bind_eq_ok.1 h
    obtain ⟨hsorted, hmem, -⟩ := set_ok hs hset
    rw [ih hsorted h]
    simp only [hasOffset_iff, List.mem_append, List.mem_cons, hmem]
    constructor
    · rintro ⟨frame, (he | ⟨hm, -⟩) | hm⟩
      · exact ⟨frame, .inr (.inl he)⟩
      · exact ⟨frame, .inl hm⟩
      · exact ⟨frame, .inr (.inr hm)⟩
    · rintro ⟨frame, hm | rfl | hm⟩
      · by_cases he : offset = entry.1
        · exact ⟨entry.2, .inl (.inl (by rw [he]))⟩
        · exact ⟨frame, .inl (.inr ⟨hm, he⟩)⟩
      · exact ⟨frame, .inl (.inl rfl)⟩
      · exact ⟨frame, .inr hm⟩

theorem mem_setAll {added out : OffsetFrames} (hs : table.Sorted)
    (h : setAll table added = .ok out) {entry : Nat × EditFrame} (hm : entry ∈ out) :
    entry ∈ table ++ added := by
  induction added generalizing table with
  | nil =>
    cases h
    exact List.mem_append_left _ hm
  | cons first rest ih =>
    rw [setAll_cons] at h
    obtain ⟨next, hset, h⟩ := except_bind_eq_ok.1 h
    obtain ⟨hsorted, hmem, -⟩ := set_ok hs hset
    rcases List.mem_append.1 (ih hsorted h) with hn | hr
    · rcases (hmem entry).1 hn with rfl | ⟨ht, -⟩
      · exact List.mem_append_right _ List.mem_cons_self
      · exact List.mem_append_left _ ht
    · exact List.mem_append_right _ (List.mem_cons_of_mem _ hr)

theorem Sorted.setAll {added out : OffsetFrames} (hs : table.Sorted)
    (h : setAll table added = .ok out) : out.Sorted := by
  induction added generalizing table with
  | nil =>
    cases h
    exact hs
  | cons entry rest ih =>
    rw [setAll_cons] at h
    obtain ⟨next, hset, h⟩ := except_bind_eq_ok.1 h
    exact ih (set_ok hs hset).1 h

/-- Below a bound there are no more offsets than it tells. -/
theorem Sorted.length_le (hs : table.Sorted) {start stop : Nat}
    (h : ∀ entry ∈ table, start ≤ entry.1 ∧ entry.1 < stop) (hle : start ≤ stop) :
    start + table.length ≤ stop := by
  induction table generalizing start with
  | nil => exact hle
  | cons entry rest ih =>
    obtain ⟨hfirst, hrest⟩ := List.pairwise_cons.1 hs
    obtain ⟨hlow, hhigh⟩ := h entry List.mem_cons_self
    have hrange : ∀ other ∈ rest, start + 1 ≤ other.1 ∧ other.1 < stop := by
      intro other hm
      have hlt := hfirst other hm
      exact ⟨by omega, (h other (List.mem_cons_of_mem _ hm)).2⟩
    have hbehind := ih hrest hrange (by omega)
    rw [List.length_cons]
    omega

/-- The frames at labels inside the code, at their offsets. -/
def inside (layout : Layout) (frames : FrameTable) : OffsetFrames :=
  frames.filterMap fun entry =>
    (layout.labels.offset? entry.1).bind fun offset =>
      if offset = layout.length then none else some (offset, entry.2)

theorem mem_inside {layout : Layout} {frames : FrameTable} {entry : Nat × EditFrame} :
    entry ∈ inside layout frames ↔ ∃ label, (label, entry.2) ∈ frames ∧
      layout.labels.offset? label = some entry.1 ∧ entry.1 ≠ layout.length := by
  obtain ⟨offset, frame⟩ := entry
  unfold inside
  rw [List.mem_filterMap]
  constructor
  · rintro ⟨⟨label, f⟩, hm, hl⟩
    obtain ⟨o, ho, hl⟩ := Option.bind_eq_some_iff.1 hl
    split at hl
    · cases hl
    · next hne =>
      cases hl
      exact ⟨label, hm, ho, hne⟩
  · rintro ⟨label, hm, ho, hne⟩
    refine ⟨(label, frame), hm, Option.bind_eq_some_iff.2 ⟨offset, ho, ?_⟩⟩
    rw [if_neg hne]

theorem ofLabels_eq (layout : Layout) (frames : FrameTable) :
    ofLabels layout frames = setAll [] (inside layout frames) := by
  unfold ofLabels
  generalize ([] : OffsetFrames) = table
  induction frames generalizing table with
  | nil => rfl
  | cons entry rest ih =>
    obtain ⟨label, frame⟩ := entry
    rw [List.foldlM_cons]
    unfold inside
    rw [List.filterMap_cons]
    dsimp only
    cases ho : layout.labels.offset? label with
    | none => exact ih table
    | some offset =>
      by_cases he : offset = layout.length
      · simp only [he, if_true, Option.bind_some]
        exact ih table
      · simp only [he, if_false, Option.bind_some]
        rw [setAll_cons]
        exact bind_congr fun next => ih next

theorem ofLabels_error {layout : Layout} {frames : FrameTable} {problem : ClassError}
    (h : ofLabels layout frames = .error problem) :
    ∃ offset, problem = .conflictingFrames offset :=
  setAll_error (ofLabels_eq layout frames ▸ h)

/-- The frames at labels go in place just when labels on one offset agree. -/
theorem ofLabels_ok_iff (layout : Layout) (frames : FrameTable) :
    (∃ out, ofLabels layout frames = .ok out) ↔ Agree (inside layout frames) := by
  rw [ofLabels_eq]
  exact setAll_ok_iff .nil (inside layout frames)

theorem sorted_ofLabels {layout : Layout} {frames : FrameTable} {out : OffsetFrames}
    (h : ofLabels layout frames = .ok out) : out.Sorted := Sorted.setAll .nil (ofLabels_eq layout frames ▸ h)

theorem mem_ofLabels {layout : Layout} {frames : FrameTable} {out : OffsetFrames}
    (h : ofLabels layout frames = .ok out) {entry : Nat × EditFrame} (hm : entry ∈ out) :
    ∃ label, (label, entry.2) ∈ frames ∧ layout.labels.offset? label = some entry.1 ∧
      entry.1 ≠ layout.length :=
  mem_inside.1 (mem_setAll .nil (ofLabels_eq layout frames ▸ h) hm)

theorem hasOffset_ofLabels {layout : Layout} {frames : FrameTable} {out : OffsetFrames}
    (h : ofLabels layout frames = .ok out) {label : Label} {frame : EditFrame} {offset : Nat}
    (hm : (label, frame) ∈ frames) (ho : layout.labels.offset? label = some offset)
    (hne : offset ≠ layout.length) : out.hasOffset offset = true := by
  rw [ofLabels_eq] at h
  refine (setAll_hasOffset .nil h offset).2 ((hasOffset_iff _ _).2 ⟨frame, ?_⟩)
  exact mem_inside.2 ⟨label, hm, ho, hne⟩

theorem checkTargets_ok {layout : Layout} {targets : List Label}
    (h : ∀ target ∈ targets, ∃ offset, layout.labels.offset? target = some offset ∧
      frames.hasOffset offset = true) : checkTargets layout frames targets = .ok () := by
  induction targets with
  | nil => rfl
  | cons target rest ih =>
    obtain ⟨offset, ho, hf⟩ := h target List.mem_cons_self
    have hfirst : (do
        unless frames.hasOffset (← layout.labels.offset target) do throw (.missingFrame target) :
        Except ClassError Unit) = .ok () := by
      unfold LabelTable.offset
      simp only [ho, bind, Except.bind, hf, if_true, pure, Except.pure]
    exact except_bind_eq_ok.2 ⟨(), hfirst, ih fun t ht => h t (List.mem_cons_of_mem _ ht)⟩

open Builder (Entered trailing)

/-- Code is entered at frames only, if each instruction behind a jump that never falls through has a
label with a frame in front. The nodes that are done are in reverse. -/
theorem checkAfterJumps_ok (needs : List Label) (labels : LabelTable)
    (hneeds : ∀ l ∈ needs, ∀ offset, labels.offset? l = some offset →
      frames.hasOffset offset = true)
    (flagged : List (Node × Bool)) (offset : Nat) (done : List Node) (afterJump : Bool)
    (label : Option Label)
    (hlabels : ∀ placed ∈ Layout.spread offset flagged, ∀ l, placed.node = .label l →
      labels.offset? l = some placed.offset)
    (htrailing : ∀ l ∈ trailing done, labels.offset? l = some offset)
    (hjump : afterJump = true → Entered needs done → ∃ l ∈ needs, l ∈ trailing done)
    (hgaps : ∀ before node after, flagged.map Prod.fst = before ++ node :: after →
      node.isLabel = false → Entered needs (before.reverse ++ done)) :
    checkAfterJumps frames (Layout.spread offset flagged) afterJump label = .ok () := by
  induction flagged generalizing offset done afterJump label with
  | nil => rfl
  | cons first rest ih =>
    obtain ⟨node, wide⟩ := first
    have hrest : ∀ before other after, rest.map Prod.fst = before ++ other :: after →
        other.isLabel = false → Entered needs (before.reverse ++ node :: done) := by
      intro before other after he hl
      have h := hgaps (node :: before) other after (by rw [List.map_cons, he]; rfl) hl
      rwa [List.reverse_cons, List.append_assoc] at h
    have hlabels' : ∀ placed ∈ Layout.spread (offset + (Placed.mk node wide offset).width) rest,
        ∀ l, placed.node = .label l → labels.offset? l = some placed.offset :=
      fun placed hp => hlabels placed (List.mem_cons_of_mem _ hp)
    cases node with
    | label next =>
      refine ih _ (.label next :: done) afterJump (some next) hlabels' ?_ ?_ hrest
      · intro l hl
        rcases List.mem_cons.1 hl with rfl | hl
        · exact hlabels _ List.mem_cons_self _ rfl
        · exact htrailing l hl
      · intro ha he
        rcases he with hn | he
        · exact ⟨next, hn, List.mem_cons_self⟩
        · obtain ⟨l, hn, hl⟩ := hjump ha he
          exact ⟨l, hn, List.mem_cons_of_mem _ hl⟩
    | insn i =>
      have hentered := hgaps [] (.insn i) (rest.map Prod.fst) rfl rfl
      have hframe : ¬(afterJump = true ∧ ¬frames.hasOffset offset = true) := by
        rintro ⟨ha, hf⟩
        obtain ⟨l, hn, hl⟩ := hjump ha hentered
        exact hf (hneeds l hn offset (htrailing l hl))
      unfold Layout.spread checkAfterJumps
      dsimp only
      rw [if_neg hframe]
      exact ih _ (.insn i :: done) false none hlabels' (by rintro l ⟨⟩) (by rintro ⟨⟩) hrest
    | branch b =>
      have hentered := hgaps [] (.branch b) (rest.map Prod.fst) rfl rfl
      have hframe : ¬(afterJump = true ∧ ¬frames.hasOffset offset = true) := by
        rintro ⟨ha, hf⟩
        obtain ⟨l, hn, hl⟩ := hjump ha hentered
        exact hf (hneeds l hn offset (htrailing l hl))
      unfold Layout.spread checkAfterJumps
      dsimp only
      rw [if_neg hframe]
      refine ih _ (.branch b :: done) _ none hlabels' (by rintro l ⟨⟩) ?_ hrest
      intro ha he
      have hfalls : b.fallsThrough = true := he
      have hstops : (!b.fallsThrough) = true := ha
      rw [hfalls] at hstops
      cases hstops

end OffsetFrames

end ClassWeave
