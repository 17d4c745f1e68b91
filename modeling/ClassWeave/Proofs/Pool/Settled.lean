import ClassWeave.Proofs.Pool.Growth

/-!
Settled steps. A step on the constants is settled if it only adds constants, and gives the same value
without adding anything once what it added is there. Steps put together from interning are settled.
-/

namespace ClassWeave

open ConstantPool

variable {ε δ α β : Type}

/-- The step only adds constants, and again on a pool that holds them it changes nothing. -/
def Settled (step : EStateM ε ConstantPool α) : Prop :=
  ∀ p a q, step p = .ok a q → p ≤ q ∧ ∀ r, q ≤ r → step r = .ok a r

namespace Settled

theorem pure (a : α) : Settled (pure a : EStateM ε ConstantPool α) := fun p b q h => by
  obtain ⟨rfl, rfl⟩ := pure_eq_ok.1 h
  exact ⟨ConstantPool.le_refl _, fun r _ => rfl⟩

theorem throw (problem : ε) : Settled (throw problem : EStateM ε ConstantPool α) := fun _ _ _ h =>
  (throw_ne_ok.1 h).elim

theorem bind {step : EStateM ε ConstantPool α} {next : α → EStateM ε ConstantPool β}
    (hs : Settled step) (hn : ∀ a, Settled (next a)) : Settled (step >>= next) := fun p b q h => by
  obtain ⟨a, t, ha, hb⟩ := bind_eq_ok.1 h
  obtain ⟨hpt, again⟩ := hs p a t ha
  obtain ⟨htq, again'⟩ := hn a t b q hb
  exact ⟨ConstantPool.le_trans hpt htq, fun r hqr =>
    bind_eq_ok.2 ⟨a, r, again r (ConstantPool.le_trans htq hqr), again' r hqr⟩⟩

theorem map {step : EStateM ε ConstantPool α} (f : α → β) (hs : Settled step) :
    Settled (f <$> step) := fun p b q h => by
  obtain ⟨a, ha, rfl⟩ := map_eq_ok.1 h
  obtain ⟨hpq, again⟩ := hs p a q ha
  exact ⟨hpq, fun r hqr => map_eq_ok.2 ⟨a, again r hqr, rfl⟩⟩

theorem adaptExcept (f : ε → δ) {step : EStateM ε ConstantPool α} (hs : Settled step) :
    Settled (step.adaptExcept f) := fun p a q h => by
  obtain ⟨hpq, again⟩ := hs p a q (adaptExcept_eq_ok.1 h)
  exact ⟨hpq, fun r hqr => adaptExcept_eq_ok.2 (again r hqr)⟩

theorem mapM {step : α → EStateM ε ConstantPool β} (hs : ∀ a, Settled (step a)) (items : List α) :
    Settled (items.mapM step) := by
  induction items with
  | nil => exact .pure []
  | cons item rest ih =>
    rw [List.mapM_cons]
    exact .bind (hs item) fun b => .bind ih fun bs => .pure (b :: bs)

theorem except {α : Type} (value : Except ClassError α) : Settled (liftM value : Encoding α) := by
  cases value with
  | ok a => exact .pure a
  | error problem => exact .throw problem

theorem ite {p : Prop} [Decidable p] {a b : EStateM ε ConstantPool α} (ha : Settled a)
    (hb : Settled b) : Settled (if p then a else b) := by
  split
  · exact ha
  · exact hb

/-- A check that may refuse, and what comes behind it. -/
theorem check {p : Prop} [Decidable p] {problem : ε} {next : PUnit → EStateM ε ConstantPool α}
    (hn : Settled (next ⟨⟩)) :
    Settled (if p then MonadExcept.throw problem >>= next else next ⟨⟩) :=
  .ite (.bind (.throw problem) fun _ => hn) hn

/-- On a pool that holds all it needs, each part of a step finds the pool as it is. -/
theorem bind_eq_ok {step : EStateM ε ConstantPool α} {next : α → EStateM ε ConstantPool β}
    (hs : Settled step) (hn : ∀ a, Settled (next a)) {p : ConstantPool} {b : β} :
    (step >>= next) p = .ok b p ↔ ∃ a, step p = .ok a p ∧ next a p = .ok b p := by
  constructor
  · intro h
    obtain ⟨a, t, ha, hb⟩ := ClassWeave.bind_eq_ok.1 h
    have htp := (hn a t b p hb).1
    exact ⟨a, (hs p a t ha).2 p htp, (hn a t b p hb).2 p (ConstantPool.le_refl p)⟩
  · rintro ⟨a, ha, hb⟩
    exact ClassWeave.bind_eq_ok.2 ⟨a, p, ha, hb⟩

theorem mapM_eq_ok {step : α → EStateM ε ConstantPool β} (hs : ∀ a, Settled (step a))
    {items : List α} {values : List β} {p : ConstantPool} (h : items.mapM step p = .ok values p) :
    List.Forall₂ (fun item value => step item p = .ok value p) items values := by
  induction items generalizing values with
  | nil =>
    obtain ⟨rfl, -⟩ := pure_eq_ok.1 h
    exact .nil
  | cons item rest ih =>
    rw [List.mapM_cons] at h
    obtain ⟨value, hvalue, h⟩ := ((hs item).bind_eq_ok fun _ =>
      (mapM hs rest).bind fun _ => .pure _).1 h
    obtain ⟨others, hothers, h⟩ := ((mapM hs rest).bind_eq_ok fun _ => .pure _).1 h
    obtain ⟨rfl, -⟩ := pure_eq_ok.1 h
    exact .cons hvalue (ih hothers)

/-- Steps that find all they need leave the pool as it is one after another. -/
theorem mapM_ok {step : α → EStateM ε ConstantPool β} {items : List α} {values : List β}
    {p : ConstantPool} (h : List.Forall₂ (fun item value => step item p = .ok value p) items values) :
    items.mapM step p = .ok values p := by
  induction h with
  | nil => rfl
  | cons first _ ih =>
    rw [List.mapM_cons]
    exact ClassWeave.bind_eq_ok.2 ⟨_, p, first, ClassWeave.bind_eq_ok.2 ⟨_, p, ih, rfl⟩⟩

end Settled

namespace ConstantPool

theorem intern_eq_ok {constant : Constant} {p q : ConstantPool} {index : PoolIndex} :
    intern constant p = .ok index q ↔
      (p.find? constant = some index ∧ q = p) ∨
        (p.find? constant = none ∧ index = ⟨UInt16.ofNat p.size⟩ ∧
          ∃ room : p.size + constant.width ≤ 65535, q = p.push constant room) := by
  unfold intern
  cases hf : p.find? constant with
  | some found => simp [eq_comm]
  | none =>
    by_cases room : p.size + constant.width ≤ 65535
    · simp [room, eq_comm]
    · simp [room]

/-- What is interned is found at the index that interning gives. -/
theorem find?_of_intern {constant : Constant} {p q : ConstantPool} {index : PoolIndex}
    (h : intern constant p = .ok index q) : q.find? constant = some index := by
  rcases intern_eq_ok.1 h with ⟨hf, rfl⟩ | ⟨hf, rfl, room, rfl⟩
  · exact hf
  · exact find?_push room hf

theorem settled_intern (constant : Constant) : Settled (intern constant) := fun p index q h => by
  refine ⟨?_, fun r hqr => intern_eq_ok.2 (.inl ⟨find?_of_le hqr (find?_of_intern h), rfl⟩)⟩
  rcases intern_eq_ok.1 h with ⟨-, rfl⟩ | ⟨hf, -, room, rfl⟩
  · exact ConstantPool.le_refl _
  · exact le_push hf room

theorem get_of_intern {constant : Constant} {p q : ConstantPool} {index : PoolIndex}
    (h : intern constant p = .ok index q) : q.get index = .ok constant :=
  get_of_find? (find?_of_intern h)

theorem settled_internUtf8 (text : String) : Settled (internUtf8 text) := settled_intern _

theorem settled_internClass (name : String) : Settled (internClass name) :=
  (settled_internUtf8 name).bind fun _ => settled_intern _

theorem utf8_of_internUtf8 {text : String} {p q : ConstantPool} {index : PoolIndex}
    (h : internUtf8 text p = .ok index q) : q.utf8 index = .ok text :=
  utf8_eq_ok.2 (get_of_intern h)

theorem className_of_internClass {name : String} {p q : ConstantPool} {index : PoolIndex}
    (h : internClass name p = .ok index q) : q.className index = .ok name := by
  obtain ⟨text, t, ht, h⟩ := ClassWeave.bind_eq_ok.1 h
  have htq := (settled_intern _ t index q h).1
  exact className_eq_ok.2 ⟨text, get_of_intern h, utf8_of_le htq (utf8_of_internUtf8 ht)⟩

theorem settled_internString (text : String) : Settled (internString text) :=
  (settled_internUtf8 text).bind fun _ => settled_intern _

theorem settled_internInteger (value : Int32) : Settled (internInteger value) := settled_intern _

theorem settled_internLong (value : Int64) : Settled (internLong value) := settled_intern _

theorem settled_internNameAndType (name descriptor : String) :
    Settled (internNameAndType name descriptor) :=
  (settled_internUtf8 name).bind fun _ => (settled_internUtf8 descriptor).bind fun _ =>
    settled_intern _

theorem settled_internField (owner name descriptor : String) :
    Settled (internField owner name descriptor) :=
  (settled_internClass owner).bind fun _ => (settled_internNameAndType name descriptor).bind fun _ =>
    settled_intern _

theorem settled_internMethod (owner name descriptor : String) (ofInterface : Bool) :
    Settled (internMethod owner name descriptor ofInterface) :=
  (settled_internClass owner).bind fun _ => (settled_internNameAndType name descriptor).bind fun _ =>
    settled_intern _

theorem nameAndType_of_internNameAndType {name descriptor : String} {p q : ConstantPool}
    {index : PoolIndex} (h : internNameAndType name descriptor p = .ok index q) :
    q.nameAndType index = .ok (name, descriptor) := by
  obtain ⟨first, t, hfirst, h⟩ := ClassWeave.bind_eq_ok.1 h
  obtain ⟨second, r, hsecond, h⟩ := ClassWeave.bind_eq_ok.1 h
  have hrq := (settled_intern _ r index q h).1
  have htq := ConstantPool.le_trans (settled_internUtf8 _ t second r hsecond).1 hrq
  exact nameAndType_eq_ok.2 ⟨first, second, get_of_intern h, utf8_of_le htq (utf8_of_internUtf8 hfirst),
    utf8_of_le hrq (utf8_of_internUtf8 hsecond)⟩

theorem fieldRef_of_internField {owner name descriptor : String} {p q : ConstantPool}
    {index : PoolIndex} (h : internField owner name descriptor p = .ok index q) :
    q.fieldRef index = .ok ⟨owner, name, descriptor, false⟩ := by
  obtain ⟨first, t, hfirst, h⟩ := ClassWeave.bind_eq_ok.1 h
  obtain ⟨second, r, hsecond, h⟩ := ClassWeave.bind_eq_ok.1 h
  have hrq := (settled_intern _ r index q h).1
  have htq := ConstantPool.le_trans (settled_internNameAndType _ _ t second r hsecond).1 hrq
  exact fieldRef_eq_ok.2 ⟨first, second, get_of_intern h,
    nameAndType_of_le hrq (nameAndType_of_internNameAndType hsecond),
    className_of_le htq (className_of_internClass hfirst), rfl⟩

theorem methodRef_of_internMethod {owner name descriptor : String} {ofInterface : Bool}
    {p q : ConstantPool} {index : PoolIndex}
    (h : internMethod owner name descriptor ofInterface p = .ok index q) :
    q.methodRef index = .ok ⟨owner, name, descriptor, ofInterface⟩ := by
  obtain ⟨first, t, hfirst, h⟩ := ClassWeave.bind_eq_ok.1 h
  obtain ⟨second, r, hsecond, h⟩ := ClassWeave.bind_eq_ok.1 h
  have hrq := (settled_intern _ r index q h).1
  have htq := ConstantPool.le_trans (settled_internNameAndType _ _ t second r hsecond).1 hrq
  exact methodRef_eq_ok.2 ⟨first, second, get_of_intern h,
    nameAndType_of_le hrq (nameAndType_of_internNameAndType hsecond),
    className_of_le htq (className_of_internClass hfirst)⟩

end ConstantPool

end ClassWeave
