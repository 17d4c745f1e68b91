import ClassWeave.Code.Decode
import ClassWeave.Proofs.Steps

/-!
Labels for offsets. The offsets that get a label are those that are referred to, and no two of them
share one.
-/

namespace ClassWeave.OffsetLabels

theorem isSome_setOf {offsets : List Nat} {offset : Nat} :
    ((setOf offsets).get? offset).isSome = true ↔ offset ∈ offsets := by
  have onto : ∀ (offsets : List Nat) (set : NatMap Unit),
      ((offsets.foldl (fun set offset => set.set offset ()) set).get? offset).isSome = true ↔
        (set.get? offset).isSome = true ∨ offset ∈ offsets := by
    intro offsets
    induction offsets with
    | nil => simp
    | cons first rest ih =>
      intro set
      rw [List.foldl_cons, ih, NatMap.get?_set, List.mem_cons]
      by_cases h : offset = first
      · simp [h]
      · simp [h]
  unfold setOf
  rw [onto]
  exact ⟨fun h => h.resolve_left (by simp [NatMap.get?_empty]), .inr⟩

/-- Labels are numbered below the count, each for one offset. -/
structure Numbered (found : OffsetLabels) : Prop where
  lt : ∀ offset label, found.at? offset = some label → label.number < found.count
  injective : ∀ a b label, found.at? a = some label → found.at? b = some label → a = b

theorem at?_set (found : OffsetLabels) (offset other : Nat) (label : Label) (count : Nat) :
    at? ⟨found.labels.set offset label, count⟩ other =
      if other = offset then some label else found.at? other := NatMap.get?_set ..

theorem Numbered.set {found : OffsetLabels} (h : Numbered found) (offset : Nat) :
    Numbered ⟨found.labels.set offset ⟨found.count⟩, found.count + 1⟩ where
  lt other label hl := by
    rw [at?_set] at hl
    split at hl
    · cases hl
      exact Nat.lt_succ_self _
    · exact Nat.lt_succ_of_lt (h.lt other label hl)
  injective a b label ha hb := by
    rw [at?_set] at ha hb
    split at ha
    · next hea =>
      cases ha
      split at hb
      · next heb => rw [hea, heb]
      · exact absurd (h.lt b _ hb) (Nat.lt_irrefl _)
    · split at hb
      · cases hb
        exact absurd (h.lt a _ ha) (Nat.lt_irrefl _)
      · exact h.injective a b label ha hb

theorem assign_spec (boundaries : List Nat) (referenced : NatMap Unit) :
    Numbered (assign boundaries referenced) ∧ ∀ offset,
      ((assign boundaries referenced).at? offset).isSome = true ↔
        offset ∈ boundaries ∧ (referenced.get? offset).isSome = true := by
  have onto : ∀ (boundaries : List Nat) (found : OffsetLabels), Numbered found →
      Numbered (boundaries.foldl (fun found offset =>
        if (referenced.get? offset).isSome then
          ⟨found.labels.set offset ⟨found.count⟩, found.count + 1⟩
        else found) found) ∧ ∀ offset,
      (at? (boundaries.foldl (fun found offset =>
        if (referenced.get? offset).isSome then
          ⟨found.labels.set offset ⟨found.count⟩, found.count + 1⟩
        else found) found) offset).isSome = true ↔
        (found.at? offset).isSome = true ∨
          (offset ∈ boundaries ∧ (referenced.get? offset).isSome = true) := by
    intro boundaries
    induction boundaries with
    | nil => exact fun found h => ⟨h, by simp⟩
    | cons first rest ih =>
      intro found h
      rw [List.foldl_cons]
      split
      · next href =>
        obtain ⟨hnumbered, hmem⟩ := ih _ (h.set first)
        refine ⟨hnumbered, fun offset => ?_⟩
        rw [hmem, at?_set, List.mem_cons]
        by_cases he : offset = first
        · simp [he, href]
        · simp [he]
      · next href =>
        obtain ⟨hnumbered, hmem⟩ := ih _ h
        refine ⟨hnumbered, fun offset => ?_⟩
        rw [hmem, List.mem_cons]
        by_cases he : offset = first
        · simp [he, href]
        · simp [he]
  have hempty : Numbered ⟨.empty, 0⟩ :=
    ⟨fun _ _ h => by simp [at?, NatMap.get?_empty] at h,
      fun _ _ _ h => by simp [at?, NatMap.get?_empty] at h⟩
  obtain ⟨hnumbered, hmem⟩ := onto boundaries _ hempty
  refine ⟨hnumbered, fun offset => (hmem offset).trans ⟨fun h => ?_, .inr⟩⟩
  exact h.resolve_left (by simp [at?, NatMap.get?_empty])

theorem ofReferences_eq_ok {boundaries referenced : List Nat} {labels : OffsetLabels} :
    ofReferences boundaries referenced = .ok labels ↔
      (∀ offset ∈ referenced, offset ∈ boundaries) ∧
        labels = assign boundaries (setOf referenced) := by
  have hnone : (referenced.filter fun offset =>
      ((setOf boundaries).get? offset).isNone).min? = none ↔
      ∀ offset ∈ referenced, offset ∈ boundaries := by
    rw [List.min?_eq_none_iff, List.filter_eq_nil_iff]
    refine forall₂_congr fun offset _ => ?_
    rw [← isSome_setOf]
    cases (setOf boundaries).get? offset <;> simp
  unfold ofReferences
  dsimp only
  split
  · next offset hsome =>
    refine ⟨nofun, fun h => ?_⟩
    rw [hnone.2 h.1] at hsome
    cases hsome
  · next hmin => exact ⟨fun h => ⟨hnone.1 hmin, (Except.ok.inj h).symm⟩, fun h => h.2 ▸ rfl⟩

variable {boundaries referenced : List Nat} {labels : OffsetLabels}

/-- Just the offsets that are referred to have a label. -/
theorem isSome_at? (h : ofReferences boundaries referenced = .ok labels) {offset : Nat} :
    (labels.at? offset).isSome = true ↔ offset ∈ referenced := by
  obtain ⟨hsub, rfl⟩ := ofReferences_eq_ok.1 h
  rw [(assign_spec _ _).2, isSome_setOf]
  exact ⟨And.right, fun hm => ⟨hsub offset hm, hm⟩⟩

theorem numbered (h : ofReferences boundaries referenced = .ok labels) : Numbered labels := by
  obtain ⟨-, rfl⟩ := ofReferences_eq_ok.1 h
  exact (assign_spec _ _).1

theorem label_ok (h : ofReferences boundaries referenced = .ok labels) {offset : Nat}
    (hm : offset ∈ referenced) : ∃ label, labels.label offset = .ok label := by
  obtain ⟨label, hl⟩ := Option.isSome_iff_exists.1 ((isSome_at? h).2 hm)
  unfold OffsetLabels.label
  rw [hl]
  exact ⟨label, rfl⟩

theorem label_eq_ok {offset : Nat} {label : Label} :
    labels.label offset = .ok label ↔ labels.at? offset = some label := by
  unfold OffsetLabels.label
  cases labels.at? offset <;> simp

end ClassWeave.OffsetLabels
