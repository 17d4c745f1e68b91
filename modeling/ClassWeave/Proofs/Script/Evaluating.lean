import ClassWeave.Proofs.Script.Computing

/-!
The code of an expression computes the value that the expression has, in the place where it stands.
-/

namespace ClassWeave

open Evaluating Compiler Builder

variable {M : Machine}

namespace Host

section Expressions

variable {host : Host} {c c' : Compiler} {α β : Type}

theorem required_eq_ok {e : Expr} {found : Option FieldType} {type : FieldType}
    (h : required e found c = .ok type c') : found = some type ∧ c' = c := by
  cases found with
  | none => exact (throw_ne_ok.1 h).elim
  | some other =>
    obtain ⟨rfl, rfl⟩ := pure_eq_ok.1 h
    exact ⟨rfl, rfl⟩

/-- The type of a value is dropped, or looked at. -/
theorem expr_bind_eq_ok {e : Expr} {next : PUnit → Compiling β} {b : β}
    (h : (expr e >>= fun found => discard (required e found) >>= next) c = .ok b c') :
    ∃ type c₁, expr e c = .ok (some type) c₁ ∧ next ⟨⟩ c₁ = .ok b c' := by
  obtain ⟨found, c₁, h₁, h⟩ := bind_eq_ok.1 h
  obtain ⟨_, c₂, h₂, h⟩ := bind_eq_ok.1 h
  obtain ⟨type, h₂⟩ := discard_eq_ok.1 h₂
  obtain ⟨rfl, rfl⟩ := required_eq_ok h₂
  exact ⟨type, c₂, h₁, h⟩

theorem shape_bind_eq_ok {next : MethodShape → Compiling β} {b : β} :
    (Compiler.shape >>= next) c = .ok b c' ↔ next c.builder.shape c = .ok b c' := Iff.rfl

theorem fieldType_eq_ok {descriptor : String} {type : FieldType}
    (h : fieldType descriptor c = .ok type c') : FieldType.parse descriptor = .ok type ∧ c' = c := by
  unfold fieldType at h
  cases hp : FieldType.parse descriptor with
  | error problem =>
    rw [hp] at h
    exact (throw_ne_ok.1 h).elim
  | ok found =>
    rw [hp] at h
    obtain ⟨rfl, rfl⟩ := pure_eq_ok.1 h
    exact ⟨rfl, rfl⟩

theorem classType_eq_ok {name : String} {type : FieldType} (h : classType name c = .ok type c') :
    (RefType.ofClassName name).toOption.map FieldType.ref = some type ∧ c' = c := by
  unfold classType at h
  cases hp : RefType.ofClassName name with
  | error problem =>
    rw [hp] at h
    exact (throw_ne_ok.1 h).elim
  | ok found =>
    rw [hp] at h
    obtain ⟨rfl, rfl⟩ := pure_eq_ok.1 h
    exact ⟨rfl, rfl⟩

theorem width_classType {name : String} {type : FieldType}
    (h : (RefType.ofClassName name).toOption.map FieldType.ref = some type) : type.width = 1 := by
  obtain ⟨reference, -, rfl⟩ := Option.map_eq_some_iff.1 h
  rfl

theorem argument_eq_ok {index : Nat} {found : UInt16 × FieldType} (h : argument index c = .ok found c') :
    c.builder.shape.parameterSlot? index = some found ∧ c' = c := by
  unfold argument at h
  rw [shape_bind_eq_ok] at h
  cases hfound : c.builder.shape.parameterSlot? index with
  | none =>
    rw [hfound] at h
    exact (throw_ne_ok.1 h).elim
  | some other =>
    rw [hfound] at h
    obtain ⟨rfl, rfl⟩ := pure_eq_ok.1 h
    exact ⟨rfl, rfl⟩

theorem callDescriptor_eq_ok {owner name text : String} {count : Nat} {method : MethodDescriptor}
    (h : callDescriptor owner name text count c = .ok method c') :
    MethodDescriptor.parse text = .ok method ∧ method.parameters.length = count ∧ c' = c := by
  unfold callDescriptor at h
  cases hp : MethodDescriptor.parse text with
  | error problem =>
    rw [hp] at h
    exact (throw_ne_ok.1 h).elim
  | ok found =>
    rw [hp] at h
    by_cases hcount : found.parameters.length = count
    · simp only [hcount, if_true] at h
      obtain ⟨rfl, rfl⟩ := pure_eq_ok.1 h
      exact ⟨rfl, hcount, rfl⟩
    · simp only [hcount, if_false] at h
      exact (throw_ne_ok.1 h).elim

theorem width_kindOf (type : FieldType) : (SlotKind.ofFieldType type).width = type.width := by
  cases type with
  | base type => cases type <;> rfl
  | ref type => rfl

theorem width_arrayKind (type : FieldType) : (arrayKind type).width = type.width := by
  cases type with
  | base type => cases type <;> rfl
  | ref type => rfl

/-- The code of an expression in its place does what the expression means there, and its type is known. -/
def Evaluates (M : Machine) (host : Host) (c c' : Compiler) (e : Expr) (type : Option FieldType) : Prop :=
  type = e.valueType? c.builder.shape c.names ∧
    host.Computes c c' [] (type.map FieldType.width).toList fun (store : Store M) _ =>
      e.eval c.builder.shape c.names store

theorem Evaluates.value {e : Expr} {type : FieldType} (h : Evaluates M host c c' e (some type)) :
    e.valueType? c.builder.shape c.names = some type ∧
      host.Computes c c' [] [type.width] fun (store : Store M) _ => e.eval c.builder.shape c.names store :=
  ⟨h.1.symm, h.2⟩

/-- Names and types are the same behind an expression. -/
theorem Evaluates.moved {c₁ : Compiler} {e : Expr} {type : Option FieldType} (h : Evaluates M host c₁ c' e type)
    (stays : Stays c c₁) : type = e.valueType? c.builder.shape c.names ∧
      host.Computes c₁ c' [] (type.map FieldType.width).toList fun (store : Store M) _ =>
        e.eval c.builder.shape c.names store := by
  rw [← stays.run.shape_eq, ← stays.names]
  exact h

/-- Each argument leaves a value, the last on top. -/
def EvaluatesAll (M : Machine) (host : Host) (c c' : Compiler) (arguments : List Expr) : Prop :=
  ∃ widths, widths.length = arguments.length ∧ host.Computes c c' [] widths
    fun (store : Store M) _ => Expr.evalAll c.builder.shape c.names store arguments

/-- The elements are stored into the array on top, which stays there. -/
def StoresAll (M : Machine) (host : Host) (c c' : Compiler) (position : Nat) (elements : List Expr) :
    Prop :=
  host.Computes c c' [1] [1] fun (store : Store M) array => do
    Expr.storeAll c.builder.shape c.names store array position elements
    return array

theorem evaluates_this {type : Option FieldType} (h : expr .this c = .ok type c') :
    Evaluates M host c c' .this type := by
  rw [expr, shape_bind_eq_ok] at h
  cases hs : c.builder.shape.isStatic with
  | true =>
    rw [hs] at h
    exact (throw_bind_ne_ok.1 h).elim
  | false =>
    rw [hs] at h
    obtain ⟨_, B, hB, h⟩ := lift_bind_eq_ok.1 h
    obtain ⟨found, c₂, h₂, h⟩ := bind_eq_ok.1 h
    obtain ⟨rfl, rfl⟩ := pure_eq_ok.1 h
    obtain ⟨hfound, rfl⟩ := classType_eq_ok h₂
    refine ⟨hfound.symm, ?_⟩
    rw [Option.map_some, width_classType hfound]
    refine computes_load hB fun contains store locals hm => ?_
    have hreceiver := hm.receiver (contains.shape ▸ hs)
    rw [← hreceiver]
    exact Locals.read_one locals 0

theorem evaluates_argument {index : Nat} {type : Option FieldType} (h : expr (.argument index) c = .ok type c') :
    Evaluates M host c c' (.argument index) type := by
  rw [expr] at h
  obtain ⟨⟨slot, type⟩, c₁, h₁, hnext⟩ := bind_eq_ok.1 h
  obtain ⟨hslot, rfl⟩ := argument_eq_ok h₁
  obtain ⟨_, B, hB, hlast⟩ := lift_bind_eq_ok.1 hnext
  obtain ⟨rfl, rfl⟩ := pure_eq_ok.1 hlast
  constructor
  · obtain ⟨found, hfound, he⟩ := Option.map_eq_some_iff.1 hslot
    cases he
    exact hfound.symm
  · rw [Option.map_some, ← width_kindOf]
    refine computes_load hB fun contains store locals hm => ?_
    rw [width_kindOf]
    exact hm.arguments index slot type (contains.shape ▸ hslot)

theorem evaluates_variable {name : String} {type : Option FieldType} (h : expr (.variable name) c = .ok type c') :
    Evaluates M host c c' (.variable name) type := by
  rw [expr] at h
  obtain ⟨⟨slot, type⟩, c₁, h₁, hnext⟩ := bind_eq_ok.1 h
  obtain ⟨rfl, number, hfind, hslot⟩ := lookUp_eq_ok h₁
  obtain ⟨_, B, hB, hlast⟩ := lift_bind_eq_ok.1 hnext
  obtain ⟨rfl, rfl⟩ := pure_eq_ok.1 hlast
  refine ⟨by rw [Expr.valueType?, hfind]; rfl, ?_⟩
  rw [Option.map_some, ← width_kindOf]
  refine (@computes_load M host _ B _ _ _ (fun store => store.bindings number) hB
    fun contains store locals hm => ?_).congr fun store _ => ?_
  · rw [width_kindOf]
    exact hm.bindings number slot type (contains.getElem?_slots hslot)
  · rw [Expr.eval, hfind]
    rfl

/-- The receiver, if there is one, lies below the arguments. -/
theorem evaluates_call {kind : CallKind} {owner name text : String} {receiver : Option Expr} {arguments : List Expr}
    {method : MethodDescriptor} {c₁ c₂ : Compiler} {widths : List Nat} {u : Unit} {B : Builder}
    (hmethod : MethodDescriptor.parse text = .ok method) (hcount : method.parameters.length = arguments.length)
    (below : host.Computes c c₁ [] widths
      fun (store : Store M) _ => Expr.evalReceiver c.builder.shape c.names store receiver)
    (hwidths : widths.length = kind.invokeKind.hasReceiver.toNat) (operands : EvaluatesAll M host c₁ c₂ arguments)
    (hB : Builder.invoke kind.invokeKind owner name text c₂.builder = .ok u B) :
    Evaluates M host c { c₂ with builder := B } (.call kind owner name text receiver arguments) method.returnType := by
  obtain ⟨others, hlength, operands⟩ := operands
  rw [below.stays.run.shape_eq, below.stays.names] at operands
  obtain ⟨takes, invoked⟩ := @computes_invoke M host c₂ B _ _ _ _ _ _ hmethod hB
  refine ⟨by rw [Expr.valueType?, hmethod]; rfl, ?_⟩
  refine (((below.append operands).retake takes ?_).trans invoked).congr fun store _ => ?_
  · simp [hlength, hwidths, hcount]
  · rw [Expr.eval, hmethod]
    simp [bind_assoc, Except.toOption]

theorem evaluates_arrayElement {array index : Expr} {type other element : FieldType} {c₁ c₂ : Compiler} {u : Unit}
    {B : Builder} (first : Evaluates M host c c₁ array (some type)) (he : elementType? type = some element)
    (second : Evaluates M host c₁ c₂ index (some other))
    (hB : push (.arrayLoad (arrayKind element)) c₂.builder = .ok u B) :
    Evaluates M host c { c₂ with builder := B } (.arrayElement array index) (some element) := by
  obtain ⟨htype, first⟩ := first.value
  obtain ⟨-, second⟩ := second.moved first.stays
  have hload := @computes_arrayLoad M host c₂ B _ (arrayKind element) hB
  rw [width_arrayKind] at hload
  refine ⟨by rw [Expr.valueType?, htype]; exact he.symm, ?_⟩
  refine (first.pair second hload.1 (fun array index => perform (.other (.arrayLoad (arrayKind element)))
    (index ++ array) element.width) hload.2 fun _ _ _ => rfl).congr fun store _ => ?_
  rw [Expr.eval, htype, Option.bind_some, he]
  rfl

/-- The array is doubled and stays below its position and the element, which take the copy. -/
theorem storesAll_cons {position : Nat} {first : Expr} {rest : List Expr} {type : FieldType} {c₃ : Compiler}
    {u v w : Unit} {B₁ B₂ B₄ : Builder} (hdup : push (.stack .dup) c.builder = .ok u B₁)
    (hnumber : Builder.constInt (Int32.ofNat position) B₁ = .ok v B₂)
    (value : Evaluates M host { c with builder := B₂ } c₃ first (some type))
    (hstore : push (.arrayStore .reference) c₃.builder = .ok w B₄)
    (others : StoresAll M host { c₃ with builder := B₄ } c' (position + 1) rest) :
    StoresAll M host c c' position (first :: rest) := by
  have doubled := @computes_dup M host _ B₁ _ hdup
  have number := @computes_constInt M host { c with builder := B₁ } B₂ _ (Int32.ofNat position) hnumber
  have placed := doubled.append number
  obtain ⟨-, value⟩ := value.value
  obtain ⟨takes, stored⟩ := @computes_arrayStore M host _ B₄ _ hstore
  unfold StoresAll at others
  rw [stored.stays.run.shape_eq, stored.stays.names, value.stays.run.shape_eq, value.stays.names,
    placed.stays.run.shape_eq, placed.stays.names] at others
  rw [placed.stays.run.shape_eq, placed.stays.names] at value
  have operands : ∀ more filled, c.builder.Arrives ([1] ++ more) filled →
      type.width = 1 ∧ c₃.builder.Arrives ([1, 1, 1] ++ ([1] ++ more)) filled := fun more filled ha => by
    have h₃ := value.arrives _ filled (placed.arrives more filled ha)
    have heq := takes.eq_of_arrives (@Arrives.weaken _ _ [type.width, 1, 1] ([1] ++ more) h₃) rfl
    have hwidth : type.width = 1 := (List.cons.inj heq).1
    rw [hwidth] at h₃
    exact ⟨hwidth, h₃⟩
  have front := (placed.stays.trans value.stays).trans stored.stays
  refine ⟨front.trans others.stays, fun more filled ha => others.arrives more filled
    (stored.arrives _ filled (operands more filled ha).2), fun more hs => ?_, ?_⟩
  · have hheld : c₃.builder.Holds ([type.width, 1, 1] ++ ([1] ++ more)) :=
      value.holds _ (placed.holds more hs)
    exact others.holds more (stored.holds _ (takes.holds hheld rfl))
  intro contains store locals hm harrives array stack world hlength
  have contains₄ := contains.of_goes others.stays.goes
  have contains₃ := contains₄.of_goes stored.stays.goes
  obtain ⟨hwidth, h₃⟩ := operands [] locals.filled harrives
  have heval : (do
      Expr.storeAll c.builder.shape c.names store array position (first :: rest)
      return array : Evaluating M (List M.Slot)) =
        first.eval c.builder.shape c.names store >>= fun value =>
          storeElement array position value >>= fun _ => do
            Expr.storeAll c.builder.shape c.names store array (position + 1) rest
            return array := by
    simp [Expr.storeAll]
  rw [heval]
  obtain ⟨_, _, hreaches, rfl, rfl, -⟩ := placed.runs (contains₃.of_goes value.stays.goes) store locals hm
    harrives array stack world hlength
  refine .after hreaches (((value.runs contains₃ store locals hm
    (placed.arrives [] locals.filled harrives).bare [] _ world rfl).mono (position_le placed.stays.run)
    (position_le (stored.stays.trans others.stays).run) fun _ _ _ hgoal => hgoal).bind
    fun v _ _ world' _ hgoal => ?_)
  obtain ⟨rfl, rfl, hv⟩ := hgoal
  have hrun := (stored.runs contains₄ store locals hm h₃.weaken (v ++ M.int (Int32.ofNat position) :: array)
    (array ++ stack) world' (by
      rw [List.length_append, List.length_cons, hlength, hv]
      simp [hwidth])).mono (position_le (placed.stays.trans value.stays).run) (position_le others.stays.run)
      fun _ _ _ hgoal => hgoal
  rw [show v ++ M.int (Int32.ofNat position) :: array ++ (array ++ stack) =
    v ++ ([M.int (Int32.ofNat position)] ++ (array ++ array) ++ stack) by simp] at hrun
  refine hrun.dropped.bind fun _ _ _ world'' _ hgoal => ?_
  obtain ⟨out, rfl, rfl, hout⟩ := hgoal
  rw [List.length_eq_zero_iff.1 hout]
  exact (others.runs contains store locals hm (stored.arrives _ _ h₃) array stack world'' hlength).mono
    (position_le front.run) le_rfl fun _ _ _ hgoal => hgoal

mutual

theorem evaluates_expr (M : Machine) (host : Host) : ∀ (e : Expr) {c c' : Compiler} {type : Option FieldType},
    expr e c = .ok type c' → Evaluates M host c c' e type
  | .null, c, c', type, h => by
    rw [expr] at h
    obtain ⟨_, B, hB, h⟩ := lift_bind_eq_ok.1 h
    obtain ⟨rfl, rfl⟩ := pure_eq_ok.1 h
    exact ⟨rfl, computes_const hB (by simp) (fun _ _ _ => rfl) rfl fun _ _ _ _ => rfl⟩
  | .int value, c, c', type, h => by
    rw [expr] at h
    obtain ⟨_, B, hB, h⟩ := lift_bind_eq_ok.1 h
    obtain ⟨rfl, rfl⟩ := pure_eq_ok.1 h
    exact ⟨rfl, computes_constInt value hB⟩
  | .long value, c, c', type, h => by
    rw [expr] at h
    obtain ⟨_, B, hB, h⟩ := lift_bind_eq_ok.1 h
    obtain ⟨rfl, rfl⟩ := pure_eq_ok.1 h
    exact ⟨rfl, computes_constLong value hB⟩
  | .bool value, c, c', type, h => by
    rw [expr] at h
    obtain ⟨_, B, hB, h⟩ := lift_bind_eq_ok.1 h
    obtain ⟨rfl, rfl⟩ := pure_eq_ok.1 h
    exact ⟨rfl, computes_constInt _ hB⟩
  | .string text, c, c', type, h => by
    rw [expr] at h
    obtain ⟨_, B, hB, h⟩ := lift_bind_eq_ok.1 h
    obtain ⟨rfl, rfl⟩ := pure_eq_ok.1 h
    exact ⟨rfl, computes_constString text hB⟩
  | .this, _, _, _, h => evaluates_this h
  | .argument _, _, _, _, h => evaluates_argument h
  | .variable _, _, _, _, h => evaluates_variable h
  | .getField object field, c, c', type, h => by
    rw [expr] at h
    obtain ⟨type, c₁, h₁, h⟩ := expr_bind_eq_ok h
    obtain ⟨_, B, hB, h⟩ := lift_bind_eq_ok.1 h
    obtain ⟨found, c₃, h₃, h⟩ := bind_eq_ok.1 h
    obtain ⟨hfound, rfl⟩ := fieldType_eq_ok h₃
    obtain ⟨rfl, rfl⟩ := pure_eq_ok.1 h
    obtain ⟨-, first⟩ := (evaluates_expr M host object h₁).value
    obtain ⟨takes, second⟩ := @computes_getField M host c₁ B _ _ _ _ _ hfound hB
    refine ⟨by rw [Expr.valueType?, hfound]; rfl, ((first.retake takes rfl).trans second).congr fun store _ => ?_⟩
    rw [Expr.eval, hfound]
    rfl
  | .getStatic field, c, c', type, h => by
    rw [expr] at h
    obtain ⟨_, B, hB, h⟩ := lift_bind_eq_ok.1 h
    obtain ⟨found, c₃, h₃, h⟩ := bind_eq_ok.1 h
    obtain ⟨hfound, rfl⟩ := fieldType_eq_ok h₃
    obtain ⟨rfl, rfl⟩ := pure_eq_ok.1 h
    refine ⟨by rw [Expr.valueType?, hfound]; rfl, (computes_getStatic hfound hB).congr fun store _ => ?_⟩
    rw [Expr.eval, hfound]
    rfl
  | .call kind owner name text receiver arguments, c, c', type, h => by
    rw [expr] at h
    obtain ⟨method, c₁, h₁, hnext⟩ := bind_eq_ok.1 h
    obtain ⟨hmethod, hcount, rfl⟩ := callDescriptor_eq_ok h₁
    cases receiver with
    | none =>
      cases kind with
      | static =>
        obtain ⟨_, c₂, h₂, hlast⟩ := bind_eq_ok.1 hnext
        obtain ⟨_, B, hB, hlast⟩ := lift_bind_eq_ok.1 hlast
        obtain ⟨rfl, rfl⟩ := pure_eq_ok.1 hlast
        exact evaluates_call hmethod hcount (.nothing c₁) rfl (evaluates_values M host arguments h₂) hB
      | _ => exact (throw_bind_ne_ok.1 hnext).elim
    | some receiver =>
      cases kind with
      | static => exact (throw_bind_ne_ok.1 hnext).elim
      | _ =>
        obtain ⟨_, c₂, h₂, hnext⟩ := expr_bind_eq_ok hnext
        obtain ⟨_, c₃, h₃, hlast⟩ := bind_eq_ok.1 hnext
        obtain ⟨_, B, hB, hlast⟩ := lift_bind_eq_ok.1 hlast
        obtain ⟨rfl, rfl⟩ := pure_eq_ok.1 hlast
        exact evaluates_call hmethod hcount (evaluates_expr M host receiver h₂).value.2 rfl
          (evaluates_values M host arguments h₃) hB
  | .checkCast value target, c, c', type, h => by
    rw [expr] at h
    obtain ⟨type, c₁, h₁, h⟩ := expr_bind_eq_ok h
    obtain ⟨_, B, hB, h⟩ := lift_bind_eq_ok.1 h
    obtain ⟨found, c₃, h₃, h⟩ := bind_eq_ok.1 h
    obtain ⟨hfound, rfl⟩ := classType_eq_ok h₃
    obtain ⟨rfl, rfl⟩ := pure_eq_ok.1 h
    obtain ⟨-, first⟩ := (evaluates_expr M host value h₁).value
    obtain ⟨takes, second⟩ := @computes_checkCast M host c₁ B _ target hB
    refine ⟨hfound.symm, ?_⟩
    rw [Option.map_some, width_classType hfound]
    exact (first.retake takes rfl).trans second
  | .arrayLength array, c, c', type, h => by
    rw [expr] at h
    obtain ⟨type, c₁, h₁, h⟩ := expr_bind_eq_ok h
    obtain ⟨_, B, hB, h⟩ := lift_bind_eq_ok.1 h
    obtain ⟨rfl, rfl⟩ := pure_eq_ok.1 h
    obtain ⟨-, first⟩ := (evaluates_expr M host array h₁).value
    obtain ⟨takes, second⟩ := @computes_arrayLength M host c₁ B _ hB
    exact ⟨rfl, (first.retake takes rfl).trans second⟩
  | .arrayElement array index, c, c', _, h => by
    rw [expr] at h
    obtain ⟨found, c₁, h₁, hrest⟩ := bind_eq_ok.1 h
    obtain ⟨type, c₂, h₂, hnext⟩ := bind_eq_ok.1 hrest
    obtain ⟨rfl, rfl⟩ := required_eq_ok h₂
    cases he : elementType? type with
    | none =>
      rw [he] at hnext
      exact (throw_ne_ok.1 hnext).elim
    | some element =>
      rw [he] at hnext
      obtain ⟨_, c₃, h₃, hindex⟩ := expr_bind_eq_ok hnext
      obtain ⟨_, B, hB, hlast⟩ := lift_bind_eq_ok.1 hindex
      obtain ⟨rfl, rfl⟩ := pure_eq_ok.1 hlast
      exact evaluates_arrayElement (evaluates_expr M host array h₁) he (evaluates_expr M host index h₃) hB
  | .objectArray element elements, c, c', _, h => by
    rw [expr] at h
    obtain ⟨found, c₁, h₁, hnext⟩ := bind_eq_ok.1 h
    obtain ⟨hfound, rfl⟩ := classType_eq_ok h₁
    obtain ⟨_, B, hB, hnext⟩ := lift_bind_eq_ok.1 hnext
    obtain ⟨_, B₃, hB₃, hnext⟩ := lift_bind_eq_ok.1 hnext
    obtain ⟨_, c₄, h₄, hlast⟩ := bind_eq_ok.1 hnext
    obtain ⟨rfl, rfl⟩ := pure_eq_ok.1 hlast
    have length := @computes_constInt M host _ B _ _ hB
    obtain ⟨takes, created⟩ := @computes_newRefArray M host _ B₃ _ element hB₃
    have array := length.trans created
    have stored := storesAll_storeElements M host elements h₄
    unfold StoresAll at stored
    rw [array.stays.run.shape_eq, array.stays.names] at stored
    refine ⟨?_, (array.trans stored).congr fun store _ => ?_⟩
    · obtain ⟨reference, hreference, rfl⟩ := Option.map_eq_some_iff.1 hfound
      rw [Expr.valueType?, hreference]
      rfl
    · rw [Expr.eval]
      rfl
  | .bitAnd a b, c, c', type, h => by
    rw [expr] at h
    obtain ⟨_, c₁, h₁, h⟩ := expr_bind_eq_ok h
    obtain ⟨_, c₂, h₂, h⟩ := expr_bind_eq_ok h
    obtain ⟨_, B, hB, h⟩ := lift_bind_eq_ok.1 h
    obtain ⟨rfl, rfl⟩ := pure_eq_ok.1 h
    obtain ⟨-, first⟩ := (evaluates_expr M host a h₁).value
    obtain ⟨-, second⟩ := (evaluates_expr M host b h₂).moved first.stays
    obtain ⟨takes, joined⟩ := @computes_bitwise M host c₂ B _ hB
    exact ⟨rfl, first.pair second takes _ joined fun _ _ _ => rfl⟩

theorem evaluates_values (M : Machine) (host : Host) : ∀ (arguments : List Expr) {c c' : Compiler} {u : Unit},
    values arguments c = .ok u c' → EvaluatesAll M host c c' arguments
  | [], c, c', u, h => by
    rw [values] at h
    obtain ⟨-, rfl⟩ := pure_eq_ok.1 h
    exact ⟨[], rfl, .nothing c'⟩
  | first :: rest, c, c', u, h => by
    rw [values] at h
    obtain ⟨type, c₁, h₁, h⟩ := expr_bind_eq_ok h
    obtain ⟨-, value⟩ := (evaluates_expr M host first h₁).value
    obtain ⟨widths, hlength, others⟩ := evaluates_values M host rest h
    rw [value.stays.run.shape_eq, value.stays.names] at others
    refine ⟨widths ++ [type.width], by simp [hlength], value.append others⟩

theorem storesAll_storeElements (M : Machine) (host : Host) : ∀ (elements : List Expr) {position : Nat}
    {c c' : Compiler} {u : Unit}, storeElements position elements c = .ok u c' →
      StoresAll M host c c' position elements
  | [], position, c, c', u, h => by
    rw [storeElements] at h
    obtain ⟨-, rfl⟩ := pure_eq_ok.1 h
    refine ⟨.refl _, fun _ _ ha => ha, fun _ hs => hs, fun _ _ _ _ _ array stack world hlength => ?_⟩
    exact .pure ⟨rfl, rfl, hlength⟩
  | first :: rest, position, c, c', u, h => by
    rw [storeElements] at h
    obtain ⟨_, B₁, hdup, h⟩ := lift_bind_eq_ok.1 h
    obtain ⟨_, B₂, hnumber, h⟩ := lift_bind_eq_ok.1 h
    obtain ⟨type, c₃, h₃, h⟩ := expr_bind_eq_ok h
    obtain ⟨_, B₄, hstore, h⟩ := lift_bind_eq_ok.1 h
    exact storesAll_cons hdup hnumber (evaluates_expr M host first h₃) hstore (storesAll_storeElements M host rest h)

end

theorem value_eq_ok {e : Expr} {type : FieldType} (h : value e c = .ok type c') :
    expr e c = .ok (some type) c' := by
  obtain ⟨found, c₁, hfound, hrequired⟩ := bind_eq_ok.1 h
  obtain ⟨rfl, rfl⟩ := required_eq_ok hrequired
  exact hfound

theorem value_bind_eq_ok {e : Expr} {next : PUnit → Compiling β} {b : β}
    (h : (discard (value e) >>= next) c = .ok b c') :
    ∃ type c₁, expr e c = .ok (some type) c₁ ∧ next ⟨⟩ c₁ = .ok b c' := by
  obtain ⟨_, c₁, h₁, h⟩ := bind_eq_ok.1 h
  obtain ⟨type, h₁⟩ := discard_eq_ok.1 h₁
  exact ⟨type, c₁, value_eq_ok h₁, h⟩

end Expressions

end Host

end ClassWeave
