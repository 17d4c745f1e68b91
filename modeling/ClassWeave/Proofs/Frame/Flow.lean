import ClassWeave.Frame.Basic
import Mathlib.Data.List.Forall2

/-!
How frames flow into one another. A relation on types lifts to frames entry by entry, where locals
past the end of a frame count as unusable; the frame of a merge lies above both of its parts whatever
the class hierarchy is.
-/

namespace ClassWeave

namespace EditType

/-- The second type knows less: nothing at all, or only that a null is some object. -/
inductive Weakens : EditType → EditType → Prop where
  | refl (type : EditType) : Weakens type type
  | top (type : EditType) : Weakens type .top
  | null (name : String) : Weakens .null (.object name)

namespace Weakens

theorem eq_top {type : EditType} (h : Weakens .top type) : type = .top := by
  cases h <;> rfl

theorem trans {a b c : EditType} (h : Weakens a b) (h' : Weakens b c) : Weakens a c := by
  cases h with
  | refl => exact h'
  | top => rw [h'.eq_top]; exact .top a
  | null name =>
    cases h' with
    | refl => exact .null name
    | top => exact .top _

end Weakens

theorem meet_comm (a b : EditType) : meet a b = meet b a := by
  unfold meet
  split <;> grind

theorem meet_top_left (a : EditType) : meet .top a = .top := by
  cases a <;> simp [meet]

theorem weakens_meet_left (a b : EditType) : Weakens a (meet a b) := by
  unfold meet
  split
  · exact .null _
  · exact .refl _
  · split
    · exact .refl _
    · exact .top _

theorem weakens_meet_right (a b : EditType) : Weakens b (meet a b) :=
  meet_comm b a ▸ weakens_meet_left b a

theorem meet_eq (a b : EditType) : meet a b = a ∨ meet a b = b ∨ meet a b = .top := by
  unfold meet
  split
  · simp
  · simp
  · split <;> simp

end EditType

namespace EditFrame

/-- Each entry of the first frame is related to the one in its place in the second. -/
structure Flows (r : EditType → EditType → Prop) (a b : EditFrame) : Prop where
  stack : List.Forall₂ r a.stack b.stack
  locals : ∀ (i : Nat) (type : EditType), b.locals[i]? = some type → r (a.locals[i]?.getD .top) type

namespace Flows

variable {r r' r'' : EditType → EditType → Prop} {a b c : EditFrame}

theorem mono (hr : ∀ s t, r s t → r' s t) (h : Flows r a b) : Flows r' a b :=
  ⟨h.stack.imp hr, fun i type hb => hr _ _ (h.locals i type hb)⟩

theorem refl (hr : ∀ t, r t t) (a : EditFrame) : Flows r a a where
  stack := by
    obtain ⟨locals, stack⟩ := a
    induction stack with
    | nil => exact .nil
    | cons type rest ih => exact .cons (hr type) ih
  locals i type h := by rw [h]; exact hr type

theorem trans (ht : ∀ s t u, r s t → r' t u → r'' s u) (htop : ∀ s t, r' .top t → r'' s t)
    (hab : Flows r a b) (hbc : Flows r' b c) : Flows r'' a c where
  stack := by
    have hs := hab.stack
    have hs' := hbc.stack
    generalize a.stack = sa, b.stack = sb, c.stack = sc at hs hs'
    induction hs generalizing sc with
    | nil => cases hs'; exact .nil
    | cons hst _ ih =>
      cases hs' with
      | cons htu rest => exact .cons (ht _ _ _ hst htu) (ih _ rest)
  locals i type hc := by
    have hlow := hbc.locals i type hc
    cases hb : b.locals[i]? with
    | none =>
      rw [hb] at hlow
      exact htop _ _ hlow
    | some middle =>
      rw [hb] at hlow
      exact ht _ _ _ (hab.locals i middle hb) hlow

theorem weakens_trans (hab : Flows EditType.Weakens a b) (hbc : Flows EditType.Weakens b c) :
    Flows EditType.Weakens a c := by
  apply hab.trans _ _ hbc
  · intro s t u hst htu
    exact hst.trans htu
  · intro s t hst
    rw [hst.eq_top]
    exact .top s

end Flows

theorem getElem?_meetLocals (locals others : List EditType) (i : Nat) :
    (meetLocals locals others)[i]? =
      if i < max locals.length others.length then
        some (EditType.meet (locals[i]?.getD .top) (others[i]?.getD .top))
      else none := by
  induction locals, others using meetLocals.induct generalizing i with
  | case1 others =>
    rw [meetLocals, List.getElem?_map]
    by_cases h : i < others.length
    · simp [h]
    · simp [h]
  | case2 locals hne =>
    rw [meetLocals, List.getElem?_map]
    · by_cases h : i < locals.length
      · simp [h]
      · simp [h]
    · exact hne
  | case3 a locals b others ih =>
    rw [meetLocals]
    cases i with
    | zero => simp
    | succ i => simp [ih]

theorem getElem?_dropHalves {types : List EditType} {i : Nat} {type : EditType}
    (h : (dropHalves types)[i]? = some type) : types[i]? = some type ∨ type = .top := by
  induction types generalizing i with
  | nil => simp [dropHalves] at h
  | cons first rest ih =>
    rw [dropHalves] at h
    cases i with
    | zero =>
      simp only [List.getElem?_cons_zero, Option.some.injEq] at h ⊢
      split at h
      · exact .inr h.symm
      · exact .inl h
    | succ i =>
      simp only [List.getElem?_cons_succ] at h ⊢
      exact ih h

theorem meetLocals_comm (locals others : List EditType) :
    meetLocals locals others = meetLocals others locals := by
  apply List.ext_getElem?
  intro i
  rw [getElem?_meetLocals, getElem?_meetLocals, Nat.max_comm, EditType.meet_comm]

section Merge

variable {a b merged : EditFrame}

theorem merge_comm (a b : EditFrame) : a.merge b = b.merge a := by
  unfold merge
  rw [meetLocals_comm, List.zipWith_comm_of_comm EditType.meet_comm]
  simp only [ne_comm]

theorem merge_eq_some (h : a.merge b = some merged) :
    a.stack.length = b.stack.length ∧
      merged = ⟨dropHalves (meetLocals a.locals b.locals),
        List.zipWith EditType.meet a.stack b.stack⟩ := by
  unfold merge at h
  split at h
  · cases h
  · next hl =>
    simp only at h
    split at h
    · cases h
    · exact ⟨not_not.1 hl, (Option.some.inj h).symm⟩

theorem locals_merge (h : a.merge b = some merged) {i : Nat} {type : EditType}
    (ht : merged.locals[i]? = some type) :
    type = EditType.meet (a.locals[i]?.getD .top) (b.locals[i]?.getD .top) ∨ type = .top := by
  obtain ⟨-, rfl⟩ := merge_eq_some h
  rcases getElem?_dropHalves ht with hm | rfl
  · rw [getElem?_meetLocals] at hm
    split at hm
    · exact .inl (Option.some.inj hm).symm
    · cases hm
  · exact .inr rfl

/-- Whatever merges with a frame, the frame flows into the result. -/
theorem flows_merge_left (h : a.merge b = some merged) :
    Flows EditType.Weakens a merged where
  stack := by
    obtain ⟨hl, rfl⟩ := merge_eq_some h
    change List.Forall₂ _ a.stack (List.zipWith EditType.meet a.stack b.stack)
    generalize a.stack = sa, b.stack = sb at hl
    induction sa generalizing sb with
    | nil => exact .nil
    | cons s sa ih =>
      cases sb with
      | nil => cases hl
      | cons t sb => exact .cons (EditType.weakens_meet_left s t) (ih sb (Nat.succ.inj hl))
  locals i type ht := by
    rcases locals_merge h ht with rfl | rfl
    · exact EditType.weakens_meet_left _ _
    · exact .top _

theorem flows_merge_right (h : a.merge b = some merged) :
    Flows EditType.Weakens b merged :=
  flows_merge_left (merge_comm b a ▸ h)

end Merge

theorem localsAssignable_iff {locals targets : List EditType} :
    localsAssignable locals targets = true ↔
      ∀ (i : Nat) (type : EditType), targets[i]? = some type →
        EditType.assignable (locals[i]?.getD .top) type = true := by
  induction locals, targets using localsAssignable.induct with
  | case1 locals => simp [localsAssignable]
  | case2 target targets ih =>
    rw [localsAssignable, Bool.and_eq_true, ih]
    constructor
    · rintro ⟨hz, hs⟩ (- | i) type ht
      · simpa [← Option.some.inj ht] using hz
      · simpa using hs i type ht
    · intro h
      exact ⟨by simpa using h 0 target rfl, fun i type ht => by simpa using h (i + 1) type ht⟩
  | case3 source locals target targets ih =>
    rw [localsAssignable, Bool.and_eq_true, ih]
    constructor
    · rintro ⟨hz, hs⟩ (- | i) type ht
      · simpa [← Option.some.inj ht] using hz
      · simpa using hs i type ht
    · intro h
      exact ⟨by simpa using h 0 target rfl, fun i type ht => by simpa using h (i + 1) type ht⟩

/-- The check of a jump is the entrywise one. -/
theorem isAssignableTo_iff {a b : EditFrame} :
    a.isAssignableTo b = true ↔ Flows (fun s t => EditType.assignable s t = true) a b := by
  have hstack : ∀ sa sb : List EditType,
      (sa.length = sb.length ∧ (List.zipWith EditType.assignable sa sb).all id = true) ↔
        List.Forall₂ (fun s t => EditType.assignable s t = true) sa sb := by
    intro sa
    induction sa with
    | nil =>
      intro sb
      cases sb with
      | nil => simp
      | cons t sb => simp
    | cons s sa ih =>
      intro sb
      cases sb with
      | nil => simp
      | cons t sb =>
        rw [List.forall₂_cons, ← ih sb]
        simp only [List.length_cons, List.zipWith_cons_cons, List.all_cons, id, Bool.and_eq_true,
          Nat.add_right_cancel_iff]
        exact and_left_comm
  unfold isAssignableTo
  rw [Bool.and_eq_true, Bool.and_eq_true, decide_eq_true_eq, hstack, localsAssignable_iff]
  exact ⟨fun ⟨hs, hl⟩ => ⟨hs, hl⟩, fun ⟨hs, hl⟩ => ⟨hs, hl⟩⟩

end EditFrame

end ClassWeave
