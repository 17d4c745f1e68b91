import ClassWeave.Proofs.Frame.Flow
import ClassWeave.Proofs.Steps
import ClassWeave.Frame.Verify
import Mathlib.Algebra.GroupWithZero.Nat
import Mathlib.Data.Set.Basic

/-!
Frames by the slots they take. A frame promises that some local slots hold something; frames that know
less promise less. The typing rules take from the stack and put there as many slots as the stack effects
tell.
-/

namespace ClassWeave

open Verifying

namespace EditType

theorem width_ofFieldType (type : FieldType) : (ofFieldType type).width = type.width := by
  cases type with
  | base type => cases type <;> rfl
  | ref type => rfl

theorem width_comp_ofFieldType : VerificationType.width ∘ ofFieldType = FieldType.width := funext width_ofFieldType

theorem ofFieldType_ne_top (type : FieldType) : ofFieldType type ≠ .top := by
  cases type with
  | base type => cases type <;> simp [ofFieldType]
  | ref type => simp [ofFieldType]

theorem width_of_isReference {type : EditType} (h : type.isReference = true) :
    type.width = 1 ∧ type ≠ .top := by
  cases type with
  | null | uninitializedThis | object | uninitialized => exact ⟨rfl, nofun⟩
  | _ => cases h

theorem width_of_weakens {a b : EditType} (h : Weakens a b) (hb : b ≠ .top) :
    a.width = b.width ∧ a ≠ .top := by
  cases h with
  | refl => exact ⟨rfl, hb⟩
  | top => exact absurd rfl hb
  | null => exact ⟨rfl, nofun⟩

theorem width_of_assignable {a b : EditType} (h : assignable a b = true) (hb : b ≠ .top) :
    a.width = b.width ∧ a ≠ .top := by
  unfold assignable at h
  split at h
  · exact absurd rfl hb
  · exact ⟨rfl, nofun⟩
  · exact ⟨rfl, nofun⟩
  · have he := of_decide_eq_true h
    exact ⟨he ▸ rfl, he ▸ hb⟩

end EditType

theorem Frame.length_slotsOf {C P : Type} (types : List (VerificationType C P)) :
    (slotsOf types).length = (types.map (·.width)).sum := by
  unfold slotsOf
  rw [List.length_flatMap]
  congr 1
  refine List.map_congr_left fun type _ => ?_
  cases type <;> rfl

namespace EditFrame

/-- Slots of the values on the stack. -/
def widths (frame : EditFrame) : List Nat := frame.stack.map (·.width)

/-- The slots of the locals that can be used. -/
def promises (locals : List EditType) : Set Nat :=
  {i | ∃ slot type, locals[slot]? = some type ∧ type ≠ .top ∧ slot ≤ i ∧ i < slot + type.width}

theorem promises_of_getElem? {locals others : List EditType}
    (h : ∀ (i : Nat) (type : EditType), others[i]? = some type → type ≠ .top →
      (locals[i]?.getD .top).width = type.width ∧ locals[i]?.getD .top ≠ .top) :
    promises others ⊆ promises locals := by
  rintro i ⟨slot, type, hget, hne, hle, hlt⟩
  obtain ⟨hwidth, hne⟩ := h slot type hget hne
  cases hl : locals[slot]? with
  | none =>
    rw [hl] at hne
    exact absurd rfl hne
  | some found =>
    rw [hl] at hwidth hne
    rw [Option.getD_some] at hwidth hne
    exact ⟨slot, found, hl, hne, hle, by rw [hwidth]; exact hlt⟩

theorem Flows.promises {a b : EditFrame} (h : Flows EditType.Weakens a b) :
    promises b.locals ⊆ promises a.locals :=
  promises_of_getElem? fun i type hget hne => EditType.width_of_weakens (h.locals i type hget) hne

theorem promises_of_isAssignableTo {a b : EditFrame} (h : a.isAssignableTo b = true) :
    promises b.locals ⊆ promises a.locals :=
  promises_of_getElem? fun i type hget hne =>
    EditType.width_of_assignable ((isAssignableTo_iff.1 h).locals i type hget) hne

theorem promises_meet (locals others : List EditType) :
    promises (dropHalves (meetLocals locals others)) ⊆ promises locals :=
  promises_of_getElem? fun i type hget hne => by
    have hmeet := (getElem?_dropHalves hget).resolve_right hne
    rw [getElem?_meetLocals] at hmeet
    split at hmeet
    · cases hmeet
      exact EditType.width_of_weakens (EditType.weakens_meet_left _ _) hne
    · cases hmeet

theorem promises_meet_right (locals others : List EditType) :
    promises (dropHalves (meetLocals locals others)) ⊆ promises others := by
  rw [meetLocals_comm]
  exact promises_meet others locals

theorem length_dropHalves (types : List EditType) : (dropHalves types).length = types.length := by
  induction types with
  | nil => rfl
  | cons type rest ih => rw [dropHalves, List.length_cons, List.length_cons, ih]

theorem length_meetLocals (locals others : List EditType) :
    (meetLocals locals others).length = max locals.length others.length := by
  induction locals generalizing others with
  | nil => rw [meetLocals, List.length_map, List.length_nil, Nat.zero_max]
  | cons type rest ih =>
    cases others with
    | nil => rw [meetLocals, List.length_map, List.length_nil, Nat.max_zero]; simp
    | cons other others => rw [meetLocals, List.length_cons, List.length_cons, List.length_cons, ih]; omega

/-- What a list of values promises is in it. -/
theorem promises_slotsOf (types : List EditType) :
    promises (Frame.slotsOf types) ⊆ {i | i < (types.map (·.width)).sum} := by
  rintro i ⟨slot, type, hget, hne, hle, hlt⟩
  rw [Set.mem_ofPred_eq]
  induction types generalizing i slot with
  | nil => cases hget
  | cons first rest ih =>
    rw [List.map_cons, List.sum_cons]
    unfold Frame.slotsOf at hget ih
    rw [List.flatMap_cons] at hget
    unfold VerificationType.width at hlt ih ⊢
    by_cases hwide : first.isWide = true
    · rw [if_pos hwide] at hget ⊢
      match slot with
      | 0 =>
        cases hget
        rw [if_pos hwide] at hlt
        omega
      | 1 =>
        cases hget
        exact absurd rfl hne
      | slot + 2 =>
        have := @ih (i - 2) slot hget (by omega) (by omega)
        omega
    · rw [if_neg hwide] at hget ⊢
      match slot with
      | 0 =>
        cases hget
        rw [if_neg hwide] at hlt
        omega
      | slot + 1 =>
        have := @ih (i - 1) slot hget (by omega) (by omega)
        omega

theorem promises_map {locals : List EditType} {f : EditType → EditType}
    (h : ∀ type, f type ≠ .top → (f type).width = type.width ∧ type ≠ .top) :
    promises (locals.map f) ⊆ promises locals :=
  promises_of_getElem? fun i type hget hne => by
    rw [List.getElem?_map] at hget
    obtain ⟨found, hfound, rfl⟩ := Option.map_eq_some_iff.1 hget
    rw [hfound]
    obtain ⟨hwidth, hf⟩ := h found hne
    exact ⟨hwidth.symm, hf⟩

/-- A store puts its type at one place, and unusable entries at others. -/
theorem getElem?_setLocal {frame : EditFrame} {slot : UInt16} {type t : EditType} {i : Nat}
    (h : (frame.setLocal slot type).locals[i]? = some t) :
    frame.locals[i]? = some t ∨ t = .top ∨ (i = slot.toNat ∧ t = type) := by
  have hset : ∀ (locals : List EditType) (j : Nat) (u : EditType), (locals.set j u)[i]? = some t →
      locals[i]? = some t ∨ (i = j ∧ t = u) := by
    intro locals j u hu
    by_cases hij : j = i
    · subst hij
      rw [List.getElem?_set_self'] at hu
      cases hl : locals[j]? with
      | none => rw [hl] at hu; cases hu
      | some old =>
        rw [hl] at hu
        exact .inr ⟨rfl, (Option.some.inj hu).symm⟩
    · rw [List.getElem?_set_ne hij] at hu
      exact .inl hu
  have hite : ∀ (c : Prop) [Decidable c] (locals : List EditType) (j : Nat),
      (if c then locals.set j .top else locals)[i]? = some t → locals[i]? = some t ∨ t = .top := by
    intro c _ locals j ht
    split at ht
    · exact (hset locals j .top ht).imp_right And.right
    · exact .inl ht
  unfold setLocal at h
  rcases hite _ _ _ h with h | rfl
  · rcases hset _ _ _ h with h | h
    · rcases hite _ _ _ h with h | rfl
      · rcases hite _ _ _ h with h | rfl
        · rcases hite _ _ _ h with h | rfl
          · unfold padTo at h
            rw [List.getElem?_append] at h
            split at h
            · exact .inl h
            · exact .inr (.inl (List.eq_of_mem_replicate (List.mem_of_getElem? h)))
          · exact .inr (.inl rfl)
        · exact .inr (.inl rfl)
      · exact .inr (.inl rfl)
    · exact .inr (.inr h)
  · exact .inr (.inl rfl)

theorem length_setLocal (frame : EditFrame) (slot : UInt16) (type : EditType) :
    (frame.setLocal slot type).locals.length = max frame.locals.length (slot.toNat + type.width) := by
  have kept (c : Prop) [Decidable c] (locals : List EditType) (i : Nat) (type : EditType) :
      (if c then locals.set i type else locals).length = locals.length := by
    split
    · exact List.length_set
    · rfl
  unfold setLocal padTo
  simp only [kept, List.length_set, List.length_append, List.length_replicate]
  omega

theorem promises_setLocal (frame : EditFrame) (slot : UInt16) (type : EditType) :
    promises (frame.setLocal slot type).locals ⊆
      promises frame.locals ∪ {i | slot.toNat ≤ i ∧ i < slot.toNat + type.width} := by
  rintro i ⟨j, t, hget, hne, hle, hlt⟩
  rcases getElem?_setLocal hget with hold | rfl | ⟨rfl, rfl⟩
  · exact .inl ⟨j, t, hold, hne, hle, hlt⟩
  · exact absurd rfl hne
  · exact .inr ⟨hle, hlt⟩

end EditFrame

namespace Verifying

open EditFrame

/-- A rule takes values of the given widths from the stack and puts others there, topmost first, and
promises no more locals. -/
def Shifts {α : Type} (step : Verifying α) (popped pushed : List Nat) : Prop :=
  ∀ before a after, step before = .ok (a, after) →
    (∃ rest, before.widths = popped ++ rest ∧ after.widths = pushed ++ rest) ∧
      promises after.locals ⊆ promises before.locals

namespace Shifts

variable {α β : Type} {popped pushed more : List Nat}

theorem pure (a : α) : Shifts (Pure.pure a : Verifying α) [] [] := fun before b after h => by
  obtain ⟨-, rfl⟩ := stateT_pure_eq_ok.1 h
  exact ⟨⟨_, rfl, rfl⟩, subset_rfl⟩

theorem throw (problem : VerifyError) : Shifts (throw problem : Verifying α) popped pushed :=
  fun _ _ _ h => (stateT_throw_ne_ok.1 h).elim

theorem bind {step : Verifying α} {next : α → Verifying β} (hs : Shifts step popped [])
    (hn : ∀ a, Shifts (next a) more pushed) : Shifts (step >>= next) (popped ++ more) pushed :=
  fun before b after h => by
    obtain ⟨a, middle, ha, hb⟩ := stateT_bind_eq_ok.1 h
    obtain ⟨⟨rest, hbefore, hmiddle⟩, hfirst⟩ := hs before a middle ha
    obtain ⟨⟨rest', hmiddle', hafter⟩, hsecond⟩ := hn a middle b after hb
    refine ⟨⟨rest', ?_, hafter⟩, hsecond.trans hfirst⟩
    rw [hbefore, List.append_assoc, ← hmiddle', hmiddle]
    rfl

theorem ite {c : Prop} [Decidable c] {a b : Verifying α} (ha : Shifts a popped pushed)
    (hb : Shifts b popped pushed) : Shifts (if c then a else b) popped pushed := by
  split
  · exact ha
  · exact hb

/-- What is done with a value tells its width. -/
theorem pop_bind {next : EditType → Verifying β} {width : Nat}
    (hn : ∀ type, type.width = width → Shifts (next type) more pushed)
    (hw : ∀ type before b after, next type before = .ok (b, after) → type.width = width) :
    Shifts (pop >>= next) (width :: more) pushed := fun before b after h => by
  obtain ⟨type, middle, hpop, h⟩ := stateT_bind_eq_ok.1 h
  unfold Verifying.pop at hpop
  split at hpop
  · cases hpop
  next first rest hstack =>
  cases hpop
  have hwidth := hw type _ _ _ h
  obtain ⟨⟨others, hmiddle, hafter⟩, hsub⟩ := hn type hwidth _ _ _ h
  refine ⟨⟨others, ?_, hafter⟩, hsub⟩
  rw [EditFrame.widths, hstack, List.map_cons, hwidth, List.cons_append]
  exact congrArg _ hmiddle

theorem push (type : EditType) : Shifts (push type) [] [type.width] := fun before _ after h => by
  cases h
  exact ⟨⟨_, rfl, rfl⟩, subset_rfl⟩

theorem pushValue (type : FieldType) : Shifts (Verifying.push (EditType.ofFieldType type)) []
    [type.width] :=
  EditType.width_ofFieldType type ▸ push _

theorem popExactly (expected : EditType) : Shifts (popExactly expected) [expected.width] [] := by
  refine pop_bind (fun type _ => .ite (.throw _) (.pure _)) fun type before _ after h => ?_
  split at h
  · exact (stateT_throw_ne_ok.1 h).elim
  · next heq => rw [not_not.1 heq]

theorem popAssignable {expected : EditType} (hne : expected ≠ .top) :
    Shifts (popAssignable expected) [expected.width] [] := by
  refine pop_bind (fun type _ => .ite (.pure _) (.throw _)) fun type before _ after h => ?_
  split at h
  · next hassignable => exact (EditType.width_of_assignable hassignable hne).1
  · exact (stateT_throw_ne_ok.1 h).elim

theorem popReference : Shifts popReference [1] [] := by
  refine pop_bind (fun type _ => .ite (.pure _) (.throw _)) fun type before _ after h => ?_
  split at h
  · next href => exact (EditType.width_of_isReference href).1
  · exact (stateT_throw_ne_ok.1 h).elim

theorem throw_bind {problem : VerifyError} {next : α → Verifying β} :
    Shifts (MonadExcept.throw problem >>= next) popped pushed := fun _ _ _ h => by
  obtain ⟨_, _, hthrow, -⟩ := stateT_bind_eq_ok.1 h
  exact (stateT_throw_ne_ok.1 hthrow).elim

/-- What a rule checks first does not matter for what it shifts. -/
theorem check {c : Prop} [Decidable c] {problem : VerifyError} {next : PUnit → Verifying β}
    (hn : Shifts (next ⟨⟩) popped pushed) :
    Shifts (if c then MonadExcept.throw problem >>= next else next ⟨⟩) popped pushed :=
  .ite .throw_bind hn

theorem check_not {c : Prop} [Decidable c] {problem : VerifyError} {next : PUnit → Verifying β}
    (hn : Shifts (next ⟨⟩) popped pushed) :
    Shifts (if c then next ⟨⟩ else MonadExcept.throw problem >>= next) popped pushed :=
  .ite hn .throw_bind

theorem popNarrow_bind {next : EditType → Verifying β}
    (hn : ∀ type, type.width = 1 → Shifts (next type) more pushed) :
    Shifts (popNarrow >>= next) (1 :: more) pushed := fun before b after h => by
  obtain ⟨type, middle, hnarrow, h⟩ := stateT_bind_eq_ok.1 h
  obtain ⟨type', middle', hpop, hnarrow⟩ := stateT_bind_eq_ok.1 hnarrow
  by_cases hwide : type'.isWide = true
  · rw [if_pos hwide] at hnarrow
    obtain ⟨_, _, hthrow, -⟩ := stateT_bind_eq_ok.1 hnarrow
    exact (stateT_throw_ne_ok.1 hthrow).elim
  · rw [if_neg hwide] at hnarrow
    obtain ⟨rfl, rfl⟩ := stateT_pure_eq_ok.1 hnarrow
    unfold Verifying.pop at hpop
    split at hpop
    · cases hpop
    next first rest hstack =>
    cases hpop
    have hwidth : type.width = 1 := if_neg hwide
    obtain ⟨⟨others, hmiddle, hafter⟩, hsub⟩ := hn type hwidth _ _ _ h
    refine ⟨⟨others, ?_, hafter⟩, hsub⟩
    rw [EditFrame.widths, hstack, List.map_cons, hwidth, List.cons_append]
    exact congrArg _ hmiddle

theorem pushAll (types : List EditType) :
    Shifts (pushAll types) [] (types.reverse.map (·.width)) := fun before _ after h => by
  cases h
  exact ⟨⟨_, rfl, List.map_append⟩, subset_rfl⟩

theorem forM {step : β → Verifying Unit} {width : β → Nat}
    (hs : ∀ b, Shifts (step b) [width b] []) (items : List β) :
    Shifts (items.forM step) (items.map width) [] := by
  induction items with
  | nil => exact .pure _
  | cons item rest ih => exact .bind (hs item) fun _ => ih

theorem operate (operands : List EditType) (result : EditType) :
    Shifts (operate operands result) (operands.reverse.map (·.width)) [result.width] := by
  have h := Shifts.bind (forM popExactly operands.reverse) fun _ => push result
  rw [List.append_nil] at h
  exact h

end Shifts

end Verifying

section Rules

variable {pool : ConstantPool} {before after : EditFrame}

open EditFrame

theorem SlotKind.width_of_type? {kind : SlotKind} {type : EditType} (h : kind.type? = some type) :
    type.width = kind.width ∧ type ≠ .top := by
  cases kind <;> cases h <;> exact ⟨rfl, nofun⟩

theorem SlotKind.width_of_type?_none {kind : SlotKind} (h : kind.type? = none) : kind.width = 1 := by
  cases kind <;> first | rfl | cases h

theorem getLocal_eq_ok {slot : UInt16} {type : EditType}
    (h : getLocal slot before = .ok (type, after)) :
    after = before ∧ before.locals[slot.toNat]? = some type := by
  obtain ⟨frame, middle, hg, h⟩ := stateT_bind_eq_ok.1 h
  cases hg
  cases hl : before.locals[slot.toNat]? with
  | none => rw [hl] at h; exact (stateT_throw_ne_ok.1 h).elim
  | some found =>
    rw [hl] at h
    obtain ⟨rfl, rfl⟩ := stateT_pure_eq_ok.1 h
    exact ⟨rfl, rfl⟩

theorem Verifying.Shifts.getLocal (slot : UInt16) : Shifts (getLocal slot) [] [] := fun _ _ _ h => by
  obtain ⟨rfl, -⟩ := getLocal_eq_ok h
  exact ⟨⟨_, rfl, rfl⟩, subset_rfl⟩

namespace Insn

variable {thisClass : String} {allocation : Option Label}

/-- A load finds its whole value in locals that can be used. -/
theorem verify_load {kind : SlotKind} {slot : UInt16}
    (h : (Insn.load kind slot).verify pool thisClass allocation before = .ok ((), after)) :
    after.widths = kind.width :: before.widths ∧ after.locals = before.locals ∧
      ∀ k < kind.width, slot.toNat + k ∈ promises before.locals := by
  have found : ∀ type : EditType, before.locals[slot.toNat]? = some type → type ≠ .top →
      ∀ k < type.width, slot.toNat + k ∈ promises before.locals := fun type hget hne k hk =>
    ⟨slot.toNat, type, hget, hne, Nat.le_add_right _ _, by omega⟩
  unfold verify at h
  dsimp only at h
  cases hk : kind.type? with
  | some expected =>
    rw [hk] at h
    obtain ⟨hwidth, hne⟩ := SlotKind.width_of_type? hk
    obtain ⟨type, middle, hlocal, hpush⟩ := stateT_bind_eq_ok.1 h
    obtain ⟨rfl, hget⟩ := getLocal_eq_ok hlocal
    by_cases heq : type = expected
    · rw [if_neg (not_not.2 heq)] at hpush
      cases hpush
      subst heq
      exact ⟨by rw [← hwidth]; rfl, rfl, hwidth ▸ found _ hget hne⟩
    · rw [if_pos heq] at hpush
      obtain ⟨_, _, hthrow, -⟩ := stateT_bind_eq_ok.1 hpush
      exact (stateT_throw_ne_ok.1 hthrow).elim
  | none =>
    rw [hk] at h
    have hkind := SlotKind.width_of_type?_none hk
    obtain ⟨type, middle, hlocal, hpush⟩ := stateT_bind_eq_ok.1 h
    obtain ⟨rfl, hget⟩ := getLocal_eq_ok hlocal
    by_cases href : type.isReference = true
    · rw [if_pos href] at hpush
      cases hpush
      obtain ⟨hwidth, hne⟩ := EditType.width_of_isReference href
      exact ⟨by rw [hkind, ← hwidth]; rfl, rfl, by rw [hkind, ← hwidth]; exact found _ hget hne⟩
    · rw [if_neg href] at hpush
      obtain ⟨_, _, hthrow, -⟩ := stateT_bind_eq_ok.1 hpush
      exact (stateT_throw_ne_ok.1 hthrow).elim

/-- A store takes its value from the stack and puts a type of its width into the slot. -/
theorem eq_setLocal_of_store {kind : SlotKind} {slot : UInt16}
    (h : (Insn.store kind slot).verify pool thisClass allocation before = .ok ((), after)) :
    ∃ (middle : EditFrame) (type : EditType), before.widths = kind.width :: middle.widths ∧
      promises middle.locals ⊆ promises before.locals ∧ type.width = kind.width ∧
        after = middle.setLocal slot type := by
  unfold verify at h
  dsimp only at h
  cases hk : kind.type? with
  | some expected =>
    rw [hk] at h
    obtain ⟨hwidth, -⟩ := SlotKind.width_of_type? hk
    obtain ⟨_, middle, hpop, hset⟩ := stateT_bind_eq_ok.1 h
    obtain ⟨⟨rest, hbefore, hmiddle⟩, hsub⟩ := Shifts.popExactly expected before _ middle hpop
    cases hset
    exact ⟨middle, expected, by rw [hbefore, hmiddle, hwidth]; rfl, hsub, hwidth, rfl⟩
  | none =>
    rw [hk] at h
    have hkind := SlotKind.width_of_type?_none hk
    obtain ⟨type, middle, hpop, hset⟩ := stateT_bind_eq_ok.1 h
    unfold Verifying.pop at hpop
    split at hpop
    · cases hpop
    next first rest hstack =>
    cases hpop
    by_cases href : type.isReference = true
    · rw [if_pos href] at hset
      obtain ⟨hwidth, -⟩ := EditType.width_of_isReference href
      cases hset
      refine ⟨{ before with stack := rest }, type, ?_, subset_rfl, hwidth.trans hkind.symm, rfl⟩
      rw [hkind, ← hwidth, EditFrame.widths, hstack, List.map_cons]
      rfl
    · rw [if_neg href] at hset
      obtain ⟨_, _, hthrow, -⟩ := stateT_bind_eq_ok.1 hset
      exact (stateT_throw_ne_ok.1 hthrow).elim

/-- What a store overwrites can be used. -/
theorem verify_store {kind : SlotKind} {slot : UInt16}
    (h : (Insn.store kind slot).verify pool thisClass allocation before = .ok ((), after)) :
    before.widths = kind.width :: after.widths ∧ promises after.locals ⊆
      promises before.locals ∪ {i | slot.toNat ≤ i ∧ i < slot.toNat + kind.width} := by
  obtain ⟨middle, type, hwidths, hsub, hwidth, rfl⟩ := eq_setLocal_of_store h
  have hset := promises_setLocal middle slot type
  rw [hwidth] at hset
  exact ⟨hwidths, hset.trans (Set.union_subset_union_left _ hsub)⟩

theorem verify_increment {slot : UInt16} {amount : Int16}
    (h : (Insn.increment slot amount).verify pool thisClass allocation before = .ok ((), after)) :
    after = before ∧ slot.toNat ∈ promises before.locals := by
  obtain ⟨type, middle, hlocal, hcheck⟩ := stateT_bind_eq_ok.1 h
  obtain ⟨rfl, hget⟩ := getLocal_eq_ok hlocal
  by_cases heq : type = .integer
  · rw [if_neg (not_not.2 heq)] at hcheck
    cases hcheck
    subst heq
    exact ⟨rfl, slot.toNat, _, hget, nofun, le_rfl, Nat.lt_succ_self _⟩
  · rw [if_pos heq] at hcheck
    exact (stateT_throw_ne_ok.1 hcheck).elim

theorem shifts_loadOfWidth (index : PoolIndex) (width : Nat) :
    Shifts (verify.loadOfWidth pool index width) [] [width] := by
  unfold verify.loadOfWidth
  split
  · exact .throw _
  · next type _ =>
    intro before _ after h
    by_cases hwidth : type.width = width
    · rw [if_neg (not_not.2 hwidth)] at h
      exact (EditType.width_ofFieldType type).trans hwidth ▸ Shifts.push _ before _ after h
    · rw [if_pos hwidth] at h
      obtain ⟨_, _, hthrow, -⟩ := stateT_bind_eq_ok.1 h
      exact (stateT_throw_ne_ok.1 hthrow).elim

theorem shifts_referenceElement (array : EditType) :
    Shifts (ArrayKind.referenceElement array >>= push) [] [1] := by
  unfold ArrayKind.referenceElement
  split
  · next element _ =>
    by_cases href : element.isReference = true
    · rw [if_pos href]
      exact (EditType.width_of_isReference href).1 ▸ Shifts.push element
    · rw [if_neg href]
      exact .throw_bind
  · exact .throw_bind

/-- A rule that goes on with nothing but an array has taken one slot. -/
theorem width_of_arrayElement? {array element : EditType}
    (h : EditType.arrayElement? array = some element) : array.width = 1 := by
  cases array <;> first | rfl | cases h

theorem shifts_popArray (classes : List String) : Shifts (ArrayKind.popArray classes) [1] [] := by
  refine .pop_bind (fun type _ => ?_) fun type before _ after h => ?_
  · split
    · exact .pure _
    · exact .ite (.pure _) (.throw _)
    · exact .throw _
  · cases type with
    | null | object => rfl
    | _ => exact (stateT_throw_ne_ok.1 h).elim

theorem shifts_arrayLoad (kind : ArrayKind) :
    Shifts ((Insn.arrayLoad kind).verify pool thisClass allocation) [1, 1] [kind.width] := by
  refine .bind (.popExactly .integer) fun _ => ?_
  cases hk : kind.element? with
  | some pair =>
    obtain ⟨element, classes⟩ := pair
    have hwidth : element.width = kind.width := by cases kind <;> cases hk <;> rfl
    exact (shifts_popArray classes).bind fun _ => hwidth ▸ Shifts.push element
  | none =>
    have hwidth : kind.width = 1 := by cases kind <;> first | rfl | cases hk
    rw [hwidth]
    refine .pop_bind (fun type _ => ?_) fun type before _ after h => ?_
    · split
      · exact .push _
      · exact shifts_referenceElement type
    · cases type with
      | null | object => rfl
      | _ =>
        obtain ⟨_, _, hthrow, -⟩ := stateT_bind_eq_ok.1 h
        exact (stateT_throw_ne_ok.1 hthrow).elim

theorem shifts_bitwise (op : BitOp) :
    Shifts ((Insn.bitwise op false).verify pool thisClass allocation) [1, 1] [1] :=
  .operate [.integer, .integer] .integer

theorem shifts_dup : Shifts ((Insn.stack .dup).verify pool thisClass allocation) [1] [1, 1] :=
  .popNarrow_bind fun type hwidth => by
    have h := Shifts.pushAll [type, type]
    rw [List.reverse_cons, List.reverse_singleton, List.singleton_append, List.map_cons,
      List.map_singleton, hwidth] at h
    exact h

theorem shifts_pop : Shifts ((Insn.stack .pop).verify pool thisClass allocation) [1] [] :=
  fun before _ after h => by
    obtain ⟨⟨type, middle⟩, hpop, h⟩ := except_bind_eq_ok.1
      (show (popNarrow before >>= fun p => .ok ((), p.2)) = .ok ((), after) from h)
    cases h
    exact Shifts.popNarrow_bind (fun _ _ => .pure ()) before () middle
      (stateT_bind_eq_ok.2 ⟨type, middle, hpop, rfl⟩)

/-- The instruction that drops two slots drops a single wide value. -/
theorem verify_pop2 {type : EditType} {below : List EditType} (hstack : before.stack = type :: below)
    (hwide : type.isWide = true)
    (h : (Insn.stack .pop2).verify pool thisClass allocation before = .ok ((), after)) :
    after = { before with stack := below } := by
  have hpop : Verifying.pop before = .ok (type, { before with stack := below }) := by
    unfold Verifying.pop
    rw [hstack]
  obtain ⟨found, middle, hfound, h⟩ := stateT_bind_eq_ok.1 h
  cases hpop.symm.trans hfound
  rw [if_pos hwide] at h
  exact (stateT_pure_eq_ok.1 h).2

theorem shifts_arrayLength :
    Shifts (Insn.arrayLength.verify pool thisClass allocation) [1] [1] :=
  .pop_bind (fun _ _ => .check (.push _)) fun type before _ after h => by
    by_cases hne : type ≠ .null ∧ EditType.arrayElement? type = none
    · rw [if_pos hne] at h
      obtain ⟨_, _, hthrow, -⟩ := stateT_bind_eq_ok.1 h
      exact (stateT_throw_ne_ok.1 hthrow).elim
    · by_cases hnull : type = .null
      · rw [hnull]
        rfl
      · cases he : EditType.arrayElement? type with
        | none => exact absurd ⟨hnull, he⟩ hne
        | some element => exact width_of_arrayElement? he

theorem shifts_classTypeAt {index : PoolIndex} : Shifts (classTypeAt pool index) [] [] := by
  unfold classTypeAt
  split
  · exact .throw _
  · split
    · exact .pure _
    · exact .throw _

theorem shifts_checkCast (index : PoolIndex) :
    Shifts ((Insn.checkCast index).verify pool thisClass allocation) [1] [1] :=
  .bind .popReference fun _ => .bind shifts_classTypeAt fun _ => .push _

theorem shifts_newRefArray (index : PoolIndex) :
    Shifts ((Insn.newRefArray index).verify pool thisClass allocation) [1] [1] :=
  .bind (.popExactly .integer) fun _ => .bind shifts_classTypeAt fun _ => .push _

/-- The checks of a store into an array, behind its operands. -/
def storesInto (value array : EditType) : Verifying Unit := do
  unless value.isReference do throw .badType
  if array ≠ .null then
    let element ← ArrayKind.referenceElement array
    unless EditType.assignable value element do throw (.incompatible value element)

theorem shifts_storesInto (value array : EditType) : Shifts (storesInto value array) [] [] := by
  refine .check_not (.ite ?_ (.pure _))
  unfold ArrayKind.referenceElement
  split
  · next element _ =>
    by_cases href : element.isReference = true
    · rw [if_pos href]
      exact .bind (.pure element) fun _ => .ite (.pure _) (.throw _)
    · rw [if_neg href]
      exact .throw_bind
  · exact .throw_bind

theorem widths_of_storesInto {value array : EditType}
    (h : storesInto value array before = .ok ((), after)) : value.width = 1 ∧ array.width = 1 := by
  unfold storesInto at h
  by_cases href : value.isReference = true
  · refine ⟨(EditType.width_of_isReference href).1, ?_⟩
    rw [if_pos href] at h
    by_cases hnull : array = .null
    · rw [hnull]
      rfl
    · rw [if_pos hnull] at h
      obtain ⟨element, _, helement, -⟩ := stateT_bind_eq_ok.1 h
      unfold ArrayKind.referenceElement at helement
      cases found : EditType.arrayElement? array with
      | some type => exact width_of_arrayElement? found
      | none =>
        rw [found] at helement
        exact (stateT_throw_ne_ok.1 helement).elim
  · rw [if_neg href] at h
    obtain ⟨_, _, hthrow, -⟩ := stateT_bind_eq_ok.1 h
    exact (stateT_throw_ne_ok.1 hthrow).elim

theorem shifts_arrayStore :
    Shifts ((Insn.arrayStore .reference).verify pool thisClass allocation) [1, 1, 1] [] := by
  have hverify : (Insn.arrayStore .reference).verify pool thisClass allocation = (do
      let value ← Verifying.pop
      popExactly .integer
      let array ← Verifying.pop
      storesInto value array) := rfl
  rw [hverify]
  refine .pop_bind (fun value _ => .bind (.popExactly .integer) fun _ => .pop_bind
    (fun array _ => shifts_storesInto value array) fun array _ _ _ h => (widths_of_storesInto h).2)
    fun value _ _ _ h => ?_
  obtain ⟨_, _, -, h⟩ := stateT_bind_eq_ok.1 h
  obtain ⟨array, _, -, h⟩ := stateT_bind_eq_ok.1 h
  exact (widths_of_storesInto h).1

theorem shifts_field {access : FieldAccess} {index : PoolIndex} {field : ConstantPool.MemberRef}
    {type : FieldType} (hf : pool.fieldRef index = .ok field)
    (ht : FieldType.parse field.descriptor = .ok type) :
    (access = .getField →
      Shifts ((Insn.field access index).verify pool thisClass allocation) [1] [type.width]) ∧
    (access = .getStatic →
      Shifts ((Insn.field access index).verify pool thisClass allocation) [] [type.width]) := by
  have hverify : (Insn.field access index).verify pool thisClass allocation =
      access.verify pool index := rfl
  rw [hverify]
  unfold FieldAccess.verify
  rw [hf]
  dsimp only
  rw [ht]
  refine ⟨?_, ?_⟩
  · rintro rfl
    exact .bind (@Shifts.popAssignable (.object field.owner) nofun) fun _ => .pushValue type
  · rintro rfl
    exact .pushValue type

theorem shifts_initialized {object : EditType} (hwidth : object.width = 1) (hne : object ≠ .top)
    (name : String) :
    Shifts (modify fun frame => EditFrame.initialize frame object (.object name)) [] [] :=
  fun before _ after h => by
    cases h
    refine ⟨⟨before.widths, rfl, ?_⟩, promises_map fun type hf => ?_⟩
    · rw [List.nil_append]
      unfold EditFrame.widths EditFrame.initialize
      rw [List.map_map]
      refine List.map_congr_left fun type _ => ?_
      rw [Function.comp_apply]
      split
      · next heq => rw [heq, hwidth]; rfl
      · rfl
    · split
      · next heq => rw [heq]; exact ⟨hwidth.symm, hne⟩
      · next heq => rw [if_neg heq] at hf; exact ⟨rfl, hf⟩

theorem shifts_popArguments (descriptor : MethodDescriptor) :
    Shifts (popArguments descriptor) (descriptor.parameters.reverse.map FieldType.width) [] :=
  .forM (fun type => EditType.width_ofFieldType type ▸
    .popAssignable (EditType.ofFieldType_ne_top type)) _

theorem shifts_pushReturn (descriptor : MethodDescriptor) :
    Shifts (pushReturn descriptor) [] (descriptor.returnType.map FieldType.width).toList := by
  unfold pushReturn
  cases descriptor.returnType with
  | none => exact .pure _
  | some type => exact .pushValue type

/-- A call takes its arguments, and the receiver below them if there is one. -/
theorem shifts_invoke {kind : InvokeKind} {index : PoolIndex} {method : ConstantPool.MemberRef}
    {descriptor : MethodDescriptor} (hm : pool.methodRef index = .ok method)
    (hd : MethodDescriptor.parse method.descriptor = .ok descriptor) :
    Shifts ((Insn.invoke kind index).verify pool thisClass allocation)
      (descriptor.parameters.reverse.map FieldType.width ++ List.replicate kind.hasReceiver.toNat 1)
      (descriptor.returnType.map FieldType.width).toList := by
  have harguments := shifts_popArguments descriptor
  have hreturn := shifts_pushReturn descriptor
  have hverify : (Insn.invoke kind index).verify pool thisClass allocation =
      kind.verify pool thisClass index := rfl
  rw [hverify]
  unfold InvokeKind.verify
  rw [hm]
  dsimp only
  rw [hd]
  dsimp only
  have hreceiver : ∀ kind : InvokeKind, Shifts (if kind.hasReceiver then do
        popAssignable (.object method.owner)
        pushReturn descriptor
      else pushReturn descriptor)
        (List.replicate kind.hasReceiver.toNat 1)
        (descriptor.returnType.map FieldType.width).toList := fun kind => by
    cases kind.hasReceiver with
    | true => exact .bind (@Shifts.popAssignable (.object method.owner) nofun) fun _ => hreturn
    | false => exact hreturn
  split
  · exact .check (.bind harguments fun _ => by rw [if_neg (by simp)]; exact hreceiver _)
  · refine .bind harguments fun _ => ?_
    by_cases hconstructor : kind = .special ∧ method.name = MemberName.constructor.text
    · rw [if_pos hconstructor, hconstructor.1]
      have hend : Shifts (do
          if descriptor.returnType.isSome then throw .badType
          pushReturn descriptor) [] (descriptor.returnType.map FieldType.width).toList :=
        .ite .throw_bind hreturn
      -- A receiver that is still to be initialised takes one slot, as the object does then.
      refine .pop_bind (fun type hwidth => ?_) fun type _ _ _ h => ?_
      · cases type with
        | uninitializedThis =>
          rw [pure_bind]
          exact .bind (@shifts_initialized .uninitializedThis rfl nofun _) fun _ => hend
        | uninitialized label =>
          rw [pure_bind]
          exact .bind (@shifts_initialized (.uninitialized label) rfl nofun _) fun _ => hend
        | _ => exact .throw_bind
      · cases type with
        | uninitializedThis | uninitialized => rfl
        | _ =>
          obtain ⟨_, _, hthrow, -⟩ := stateT_bind_eq_ok.1 h
          exact (stateT_throw_ne_ok.1 hthrow).elim
    · rw [if_neg hconstructor]
      exact hreceiver kind

end Insn

namespace Branch

variable {T : Type} {returnType : Option FieldType}

theorem shifts_ifZero (comparison : Comparison) (target : T) :
    Shifts ((Branch.ifZero comparison target).verify returnType) [1] [] :=
  .popExactly .integer

theorem shifts_ifNull (equality : Equality) (target : T) :
    Shifts ((Branch.ifNull equality target).verify returnType) [1] [] :=
  .popReference

theorem shifts_ifInts (comparison : Comparison) (target : T) :
    Shifts ((Branch.ifInts comparison target).verify returnType) [1, 1] [] :=
  .bind (.popExactly .integer) fun _ => .popExactly .integer

theorem shifts_return (kind : SlotKind) :
    Shifts ((Branch.return (some kind) : Branch T).verify returnType) [kind.width] [] := by
  unfold verify
  dsimp only
  cases hk : kind.type? with
  | some type =>
    rw [← (SlotKind.width_of_type? hk).1]
    exact @Shifts.bind _ _ _ [] [] _ _ (.popExactly type) fun _ => .ite (.throw _) (.pure _)
  | none =>
    rw [SlotKind.width_of_type?_none hk]
    dsimp only
    split
    · next type _ =>
      by_cases href : type.isReference = true
      · rw [if_pos href]
        obtain ⟨hwidth, hne⟩ := EditType.width_of_isReference href
        exact hwidth ▸ .popAssignable hne
      · rw [if_neg href]
        exact .throw _
    · exact .throw _

end Branch

end Rules

end ClassWeave
