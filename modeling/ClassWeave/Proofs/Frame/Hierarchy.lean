import ClassWeave.Proofs.Frame.Flow

/-!
Types below a class hierarchy. What weakens is below in every hierarchy; what merely passes the check of
a jump is below just where its class names are.
-/

namespace ClassWeave

/-- A relation of class names that may be the one of subclasses; an array class has its descriptor for
a name. -/
structure Hierarchy (subclass : String → String → Prop) : Prop where
  refl : ∀ name, subclass name name
  trans : ∀ a b c, subclass a b → subclass b c → subclass a c
  object : ∀ name, subclass name ClassName.object.text
  covariant : ∀ a b : RefType, subclass a.className b.className →
    subclass (RefType.arrayOf (.ref a)).className (RefType.arrayOf (.ref b)).className

/-- The least hierarchy: apart from arrays, no class is below another but the one above all. -/
inductive LeastSubclass : String → String → Prop where
  | refl (name : String) : LeastSubclass name name
  | trans {a b c : String} (hab : LeastSubclass a b) (hbc : LeastSubclass b c) : LeastSubclass a c
  | object (name : String) : LeastSubclass name ClassName.object.text
  | covariant (a b : RefType) (h : LeastSubclass a.className b.className) :
    LeastSubclass (RefType.arrayOf (.ref a)).className (RefType.arrayOf (.ref b)).className

namespace LeastSubclass

theorem hierarchy : Hierarchy LeastSubclass :=
  ⟨.refl, fun _ _ _ => .trans, .object, .covariant⟩

theorem eq_or {a b : String} (h : LeastSubclass a b) :
    a = b ∨ b = ClassName.object.text ∨ b.toList.head? = some '[' := by
  induction h with
  | refl name => exact .inl rfl
  | trans _ _ ihab ihbc =>
    rcases ihbc with rfl | h
    · exact ihab
    · exact .inr h
  | object name => exact .inr (.inl rfl)
  | covariant a b _ ih =>
    right
    right
    cases b with
    | object name => simp [RefType.arrayOf, RefType.className, RefType.render, RefType.chars]
    | array more element =>
      simp only [RefType.arrayOf]
      split
      · simp [RefType.className, RefType.render, RefType.chars, List.replicate_succ]
      · simp [RefType.className, RefType.render, RefType.chars, List.replicate_succ]

end LeastSubclass

namespace EditType

variable {subclass : String → String → Prop} {s t : EditType}

/-- A value of the first type may stand where the second is expected, by a verifier that knows the
hierarchy. -/
inductive Below (subclass : String → String → Prop) : EditType → EditType → Prop where
  | refl (type : EditType) : Below subclass type type
  | top (type : EditType) : Below subclass type .top
  | null (name : String) : Below subclass .null (.object name)
  | object {sub sup : String} (h : subclass sub sup) : Below subclass (.object sub) (.object sup)

/-- Two objects are of classes below one another; other types may be any. -/
def NamesBelow (subclass : String → String → Prop) (s t : EditType) : Prop :=
  ∀ sub sup, s = .object sub → t = .object sup → subclass sub sup

theorem Weakens.below (h : Weakens s t) : Below subclass s t := by
  cases h with
  | refl => exact .refl s
  | top => exact .top s
  | null name => exact .null name

theorem Weakens.assignable (h : Weakens s t) : EditType.assignable s t = true := by
  cases h with
  | refl =>
    cases s with
    | object name =>
      unfold EditType.assignable classAssignable
      simp
    | _ => simp [EditType.assignable]
  | top => cases s <;> simp [EditType.assignable]
  | null => simp [EditType.assignable]

theorem below_of_assignable (ha : assignable s t = true) (hn : NamesBelow subclass s t) :
    Below subclass s t := by
  unfold assignable at ha
  split at ha
  · exact .top _
  · exact .null _
  · next sub sup => exact .object (hn sub sup rfl rfl)
  · exact of_decide_eq_true ha ▸ .refl _

theorem Below.namesBelow (refl : ∀ name, subclass name name) (h : Below subclass s t) :
    NamesBelow subclass s t := by
  rintro sub sup hs ht
  cases h with
  | refl =>
    rw [hs] at ht
    cases ht
    exact refl sub
  | top => cases ht
  | null => cases hs
  | object h =>
    cases hs
    cases ht
    exact h

end EditType

namespace EditFrame

variable {subclass : String → String → Prop} {a b : EditFrame}

theorem Flows.map₂ {p q r : EditType → EditType → Prop} (hr : ∀ s t, p s t → q s t → r s t)
    (hp : Flows p a b) (hq : Flows q a b) : Flows r a b where
  stack := by
    have hps := hp.stack
    have hqs := hq.stack
    generalize a.stack = sa, b.stack = sb at hps hqs
    induction hps with
    | nil => exact .nil
    | cons hst _ ih =>
      cases hqs with
      | cons hst' rest => exact .cons (hr _ _ hst hst') (ih rest)
  locals i type hb := hr _ _ (hp.locals i type hb) (hq.locals i type hb)

/-- For a state that passes the check of a jump only its class names are in question. -/
theorem flows_below_iff (h : Hierarchy subclass) (checked : a.isAssignableTo b = true) :
    Flows (EditType.Below subclass) a b ↔ Flows (EditType.NamesBelow subclass) a b := by
  constructor
  · intro hb
    exact hb.mono fun s t hst => hst.namesBelow h.refl
  · intro hn
    exact (isAssignableTo_iff.1 checked).map₂ (fun s t => EditType.below_of_assignable) hn

end EditFrame

end ClassWeave
