import Mathlib.Data.List.Forall2

/-!
How a composed step ends. A step of a state monad ends well only if each of its parts does, and what
it gives then is what the last part gives. What steps give for a list is paired with it one by one.
-/

namespace ClassWeave

section Pairs

variable {α β γ : Type} {R : α → β → Prop} {S : β → γ → Prop}

theorem forall₂_comp {Q : α → γ → Prop} {xs : List α} {ys : List β} {zs : List γ}
    (h : List.Forall₂ R xs ys) (h' : List.Forall₂ S ys zs)
    (hq : ∀ x y z, R x y → S y z → Q x z) : List.Forall₂ Q xs zs := by
  induction h generalizing zs with
  | nil =>
    cases h'
    exact .nil
  | cons first _ ih =>
    cases h' with
    | cons first' rest => exact .cons (hq _ _ _ first first') (ih rest)

theorem exists_right_at {xs : List α} {ys : List β} (h : List.Forall₂ R xs ys) {i : Nat} {x : α}
    (hi : xs[i]? = some x) : ∃ y, ys[i]? = some y ∧ R x y := by
  induction h generalizing i with
  | nil => cases hi
  | cons first _ ih =>
    cases i with
    | zero =>
      cases hi
      exact ⟨_, rfl, first⟩
    | succ i => exact ih hi

/-- What lies between is chosen one by one. -/
theorem forall₂_exists {xs : List α} {zs : List γ}
    (h : List.Forall₂ (fun x z => ∃ y, R x y ∧ S y z) xs zs) :
    ∃ ys, List.Forall₂ R xs ys ∧ List.Forall₂ S ys zs := by
  induction h with
  | nil => exact ⟨[], .nil, .nil⟩
  | cons first _ ih =>
    obtain ⟨y, hr, hs⟩ := first
    obtain ⟨ys, hrs, hss⟩ := ih
    exact ⟨y :: ys, .cons hr hrs, .cons hs hss⟩

/-- Rows between two lists, each with what it comes from and with what is made of it. -/
theorem forall₂_around {T : γ → β → Prop} {Q : α → γ → Prop} {xs : List α} {ys : List β} {zs : List γ}
    (h : List.Forall₂ R xs ys) (h' : List.Forall₂ S ys zs)
    (hq : ∀ x y z, R x y → S y z → Q x z ∧ T z y) : List.Forall₂ Q xs zs ∧ List.Forall₂ T zs ys := by
  induction h generalizing zs with
  | nil =>
    cases h'
    exact ⟨.nil, .nil⟩
  | cons first _ ih =>
    cases h' with
    | cons first' rest =>
      obtain ⟨hhead, hhead'⟩ := hq _ _ _ first first'
      obtain ⟨htail, htail'⟩ := ih rest
      exact ⟨.cons hhead htail, .cons hhead' htail'⟩

end Pairs

section State

variable {ε σ α β : Type}

theorem bind_eq_ok {step : EStateM ε σ α} {next : α → EStateM ε σ β} {s s' : σ} {b : β} :
    (step >>= next) s = .ok b s' ↔ ∃ a t, step s = .ok a t ∧ next a t = .ok b s' := by
  change EStateM.bind step next s = _ ↔ _
  unfold EStateM.bind
  cases step s with
  | ok a t => grind
  | error problem t => simp

theorem bind_eq_error {step : EStateM ε σ α} {next : α → EStateM ε σ β} {s s' : σ} {problem : ε} :
    (step >>= next) s = .error problem s' ↔
      step s = .error problem s' ∨ ∃ a t, step s = .ok a t ∧ next a t = .error problem s' := by
  change EStateM.bind step next s = _ ↔ _
  unfold EStateM.bind
  cases step s with
  | ok a t => grind
  | error first t => grind

/-- What holds of each way in which a composed step can end holds of its result. -/
theorem result_bind {P : EStateM.Result ε σ β → Prop} {step : EStateM ε σ α} {next : α → EStateM ε σ β}
    {s : σ} (herror : ∀ problem t, step s = .error problem t → P (.error problem t))
    (hok : ∀ a t, step s = .ok a t → P (next a t)) : P ((step >>= next) s) := by
  change P (EStateM.bind step next s)
  unfold EStateM.bind
  cases hstep : step s with
  | ok a t => exact hok a t hstep
  | error problem t => exact herror problem t hstep

theorem pure_eq_ok {a b : α} {s s' : σ} :
    (pure a : EStateM ε σ α) s = .ok b s' ↔ b = a ∧ s' = s := by
  change EStateM.Result.ok a s = _ ↔ _
  simp [eq_comm]

theorem throw_ne_ok {problem : ε} {b : α} {s s' : σ} :
    (throw problem : EStateM ε σ α) s = .ok b s' ↔ False := by
  change EStateM.Result.error problem s = _ ↔ _
  simp

theorem get_eq_ok {s s' t : σ} : (get : EStateM ε σ σ) s = .ok t s' ↔ t = s ∧ s' = s := by
  change EStateM.Result.ok s s = _ ↔ _
  simp [eq_comm]

theorem set_eq_ok {s s' t : σ} {u : PUnit} :
    (set t : EStateM ε σ PUnit) s = .ok u s' ↔ s' = t := by
  change EStateM.Result.ok PUnit.unit t = _ ↔ _
  simp [eq_comm]

theorem modify_eq_ok {f : σ → σ} {s s' : σ} {u : PUnit} :
    (modify f : EStateM ε σ PUnit) s = .ok u s' ↔ s' = f s := by
  change EStateM.Result.ok PUnit.unit (f s) = _ ↔ _
  simp [eq_comm]

theorem discard_eq_ok {step : EStateM ε σ α} {s s' : σ} {u : PUnit} :
    (discard step) s = .ok u s' ↔ ∃ a, step s = .ok a s' := by
  change EStateM.map (fun _ => PUnit.unit) step s = _ ↔ _
  unfold EStateM.map
  cases step s with
  | ok a t => simp
  | error problem t => simp

theorem map_eq_ok {f : α → β} {step : EStateM ε σ α} {s s' : σ} {b : β} :
    (f <$> step) s = .ok b s' ↔ ∃ a, step s = .ok a s' ∧ b = f a := by
  change EStateM.map f step s = _ ↔ _
  unfold EStateM.map
  cases step s with
  | ok a t => grind
  | error problem t => simp

theorem adaptExcept_eq_ok {δ : Type} {f : ε → δ} {step : EStateM ε σ α} {s s' : σ} {a : α} :
    (step.adaptExcept f) s = .ok a s' ↔ step s = .ok a s' := by
  unfold EStateM.adaptExcept
  cases step s with
  | ok b t => simp
  | error problem t => simp

theorem adaptExcept_eq_error {δ : Type} {f : ε → δ} {step : EStateM ε σ α} {s s' : σ} {problem : δ} :
    (step.adaptExcept f) s = .error problem s' ↔ ∃ cause, step s = .error cause s' ∧ problem = f cause := by
  unfold EStateM.adaptExcept
  cases step s with
  | ok b t => simp
  | error cause t => grind

theorem get_bind_eq_ok {next : σ → EStateM ε σ β} {s s' : σ} {b : β} :
    (get >>= next) s = .ok b s' ↔ next s s = .ok b s' := Iff.rfl

theorem get_bind_eq_error {next : σ → EStateM ε σ β} {s s' : σ} {problem : ε} :
    (get >>= next) s = .error problem s' ↔ next s s = .error problem s' := Iff.rfl

theorem set_bind_eq_ok {next : PUnit → EStateM ε σ β} {s s' t : σ} {b : β} :
    (set t >>= next) s = .ok b s' ↔ next ⟨⟩ t = .ok b s' := Iff.rfl

theorem modify_bind_eq_ok {f : σ → σ} {next : PUnit → EStateM ε σ β} {s s' : σ} {b : β} :
    (modify f >>= next) s = .ok b s' ↔ next ⟨⟩ (f s) = .ok b s' := Iff.rfl

theorem pure_bind_eq_ok {a : α} {next : α → EStateM ε σ β} {s s' : σ} {b : β} :
    ((pure a : EStateM ε σ α) >>= next) s = .ok b s' ↔ next a s = .ok b s' := Iff.rfl

theorem throw_bind_ne_ok {problem : ε} {next : α → EStateM ε σ β} {s s' : σ} {b : β} :
    ((throw problem : EStateM ε σ α) >>= next) s = .ok b s' ↔ False := by
  change EStateM.Result.error problem s = _ ↔ _
  simp

end State

section Exceptional

variable {ε σ α β : Type}

theorem except_bind_eq_ok {step : Except ε α} {next : α → Except ε β} {b : β} :
    (step >>= next) = .ok b ↔ ∃ a, step = .ok a ∧ next a = .ok b := by
  cases step with
  | ok a => simp [bind, Except.bind]
  | error problem => simp [bind, Except.bind]

theorem mapError_eq_ok {δ : Type} {f : ε → δ} {value : Except ε α} {a : α} :
    value.mapError f = .ok a ↔ value = .ok a := by
  cases value with
  | ok b => exact ⟨fun h => congrArg Except.ok (Except.ok.inj h), fun h => h ▸ rfl⟩
  | error problem => exact ⟨nofun, nofun⟩

/-- A list of steps gives the list of what they give one by one. -/
theorem mapM_eq_ok {f : α → Except ε β} {items : List α} {values : List β} :
    items.mapM f = .ok values ↔ List.Forall₂ (fun item value => f item = .ok value) items values := by
  induction items generalizing values with
  | nil =>
    rw [List.forall₂_nil_left_iff, List.mapM_nil]
    exact ⟨fun h => (Except.ok.inj h).symm, fun h => h ▸ rfl⟩
  | cons item rest ih =>
    rw [List.mapM_cons, List.forall₂_cons_left_iff, except_bind_eq_ok]
    constructor
    · rintro ⟨first, hfirst, h⟩
      obtain ⟨others, hothers, h⟩ := except_bind_eq_ok.1 h
      cases h
      exact ⟨first, others, hfirst, ih.1 hothers, rfl⟩
    · rintro ⟨first, others, hfirst, hothers, rfl⟩
      exact ⟨first, hfirst, except_bind_eq_ok.2 ⟨others, ih.2 hothers, rfl⟩⟩

theorem exists_left_of_mem {R : α → β → Prop} {items : List α} {values : List β}
    (h : List.Forall₂ R items values) {value : β} (hm : value ∈ values) :
    ∃ item ∈ items, R item value := by
  induction h with
  | nil => cases hm
  | cons first _ ih =>
    rcases List.mem_cons.1 hm with rfl | hm
    · exact ⟨_, List.mem_cons_self, first⟩
    · obtain ⟨item, hi, hr⟩ := ih hm
      exact ⟨item, List.mem_cons_of_mem _ hi, hr⟩

theorem stateT_bind_eq_ok {step : StateT σ (Except ε) α} {next : α → StateT σ (Except ε) β}
    {s s' : σ} {b : β} :
    (step >>= next) s = .ok (b, s') ↔ ∃ a t, step s = .ok (a, t) ∧ next a t = .ok (b, s') := by
  change (step s >>= fun p => next p.1 p.2) = _ ↔ _
  rw [except_bind_eq_ok]
  exact ⟨fun ⟨p, h, h'⟩ => ⟨p.1, p.2, h, h'⟩, fun ⟨a, t, h, h'⟩ => ⟨(a, t), h, h'⟩⟩

theorem stateT_pure_eq_ok {a b : α} {s s' : σ} :
    (pure a : StateT σ (Except ε) α) s = .ok (b, s') ↔ b = a ∧ s' = s := by
  change Except.ok (a, s) = _ ↔ _
  simp [eq_comm]

theorem stateT_throw_ne_ok {problem : ε} {b : α} {s s' : σ} :
    (throw problem : StateT σ (Except ε) α) s = .ok (b, s') ↔ False := by
  change Except.error problem = _ ↔ _
  simp

end Exceptional

end ClassWeave
