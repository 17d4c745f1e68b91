import ClassWeave.Code.Body

/-!
Tables of frames as maps: what is found at a label after a frame is set, and after the table is cut
down to some of its labels. A table that stays in order has one frame for a label.
-/

namespace ClassWeave.FrameTable

variable {frames : FrameTable} {label other : Label} {frame existing : EditFrame}

/-- The labels ascend. -/
def Sorted (frames : FrameTable) : Prop :=
  List.Pairwise (fun a b => a.1.number < b.1.number) frames

@[simp] theorem find?_nil (label : Label) : find? [] label = none := rfl

theorem find?_cons (entry : Label × EditFrame) (frames : FrameTable) (label : Label) :
    find? (entry :: frames) label = if entry.1 = label then some entry.2 else find? frames label := by
  unfold find?
  rw [List.find?_cons]
  by_cases h : entry.1 = label
  · simp [h]
  · simp [h]

theorem find?_set (frames : FrameTable) (label : Label) (frame : EditFrame) (other : Label) :
    (frames.set label frame).find? other = if other = label then some frame else frames.find? other := by
  induction frames with
  | nil => simp only [set, find?_cons, find?_nil, eq_comm]
  | cons entry rest ih =>
    obtain ⟨key, existing⟩ := entry
    unfold set
    split
    · simp only [find?_cons, eq_comm]
    · split
      · next heq =>
        subst heq
        simp only [find?_cons]
        by_cases h : label = other
        · simp [h]
        · simp [h, Ne.symm h]
      · next hne =>
        simp only [find?_cons, ih]
        by_cases h : key = other
        · subst h
          simp [Ne.symm hne]
        · simp [h]

theorem find?_filter (keep : Label → Bool) (frames : FrameTable) (label : Label) :
    find? (frames.filter fun entry => keep entry.1) label =
      if keep label then frames.find? label else none := by
  induction frames with
  | nil => simp
  | cons entry rest ih =>
    rw [List.filter_cons]
    by_cases hk : keep entry.1
    · rw [if_pos hk, find?_cons, find?_cons, ih]
      by_cases h : entry.1 = label
      · simp [h, h ▸ hk]
      · simp [h]
    · rw [if_neg hk, ih, find?_cons]
      by_cases h : entry.1 = label
      · simp [h ▸ hk]
      · simp [h]

theorem mem_set {entry : Label × EditFrame} (h : entry ∈ frames.set label frame) :
    entry = (label, frame) ∨ entry ∈ frames := by
  induction frames with
  | nil => exact .inl (List.mem_singleton.1 h)
  | cons first rest ih =>
    unfold set at h
    split at h
    · exact List.mem_cons.1 h
    · split at h
      · rcases List.mem_cons.1 h with h | h
        · exact .inl h
        · exact .inr (List.mem_cons_of_mem _ h)
      · rcases List.mem_cons.1 h with h | h
        · exact .inr (h ▸ List.mem_cons_self)
        · exact (ih h).imp id (List.mem_cons_of_mem _)

theorem Sorted.set (hs : frames.Sorted) (label : Label) (frame : EditFrame) :
    (frames.set label frame).Sorted := by
  induction frames with
  | nil => exact List.pairwise_singleton _ _
  | cons first rest ih =>
    obtain ⟨key, existing⟩ := first
    obtain ⟨hfirst, hrest⟩ := List.pairwise_cons.1 hs
    unfold FrameTable.set
    split
    · next hlt =>
      refine List.pairwise_cons.2 ⟨fun entry he => ?_, hs⟩
      rcases List.mem_cons.1 he with rfl | he
      · exact hlt
      · exact Nat.lt_trans hlt (hfirst entry he)
    · split
      · next heq =>
        subst heq
        exact List.pairwise_cons.2 ⟨hfirst, hrest⟩
      · next hge hne =>
        refine List.pairwise_cons.2 ⟨fun entry he => ?_, ih hrest⟩
        rcases mem_set he with rfl | he
        · obtain ⟨n⟩ := label
          obtain ⟨m⟩ := key
          simp only [Label.mk.injEq] at hge hne ⊢
          omega
        · exact hfirst entry he

theorem Sorted.filter (hs : frames.Sorted) (keep : Label × EditFrame → Bool) :
    Sorted (frames.filter keep) := List.Pairwise.filter keep hs

theorem mem_of_find? (h : frames.find? label = some frame) : (label, frame) ∈ frames := by
  obtain ⟨entry, he, rfl⟩ := Option.map_eq_some_iff.1 h
  have hl : entry.1 = label := by simpa using List.find?_some he
  exact hl ▸ List.mem_of_find?_eq_some he

theorem Sorted.find? (hs : frames.Sorted) (h : (label, frame) ∈ frames) :
    frames.find? label = some frame := by
  induction frames with
  | nil => cases h
  | cons first rest ih =>
    obtain ⟨hfirst, hrest⟩ := List.pairwise_cons.1 hs
    rw [find?_cons]
    rcases List.mem_cons.1 h with rfl | h
    · simp
    · have hlt : first.1.number < label.number := hfirst _ h
      rw [if_neg (fun e => by rw [e] at hlt; exact Nat.lt_irrefl _ hlt)]
      exact ih hrest h

theorem Sorted.find?_eq_some (hs : frames.Sorted) :
    frames.find? label = some frame ↔ (label, frame) ∈ frames :=
  ⟨mem_of_find?, hs.find?⟩

end ClassWeave.FrameTable
