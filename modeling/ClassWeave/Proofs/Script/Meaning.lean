import ClassWeave.Proofs.Machine.Meaning
import ClassWeave.Script.Compile

/-!
What scripts mean. A name stands for the nearest declaration before it in the text, operands are
evaluated from left to right, and conditions only as far as they decide. Loops have fuel: a script that
runs out of it is still running.
-/

namespace ClassWeave

/-- Why an evaluation gives nothing. -/
inductive Fault (M : Machine) where
  | thrown (exception : M.Slot)
  | stuck

abbrev Evaluating (M : Machine) := EStateM (Fault M) (World M)

/-- The declarations before a point of a script, the latest first. A variable goes by the number of
declarations before its own. -/
abbrev Scope := List (String × FieldType)

def Scope.find? : Scope → String → Option (Nat × FieldType)
  | [], _ => none
  | (other, type) :: rest, name => if name = other then some (rest.length, type) else find? rest name

/-- Values of the receiver, the parameters and the variables that have any. -/
structure Store (M : Machine) where
  receiver : Option M.Slot
  arguments : Nat → Option (List M.Slot)
  bindings : Nat → Option (List M.Slot)

variable {M : Machine}

namespace Store

def setArgument (store : Store M) (index : Nat) (value : List M.Slot) : Store M :=
  { store with arguments := fun i => if i = index then some value else store.arguments i }

def setVariable (store : Store M) (number : Nat) (value : List M.Slot) : Store M :=
  { store with bindings := fun i => if i = number then some value else store.bindings i }

end Store

namespace Evaluating

def perform (action : Action) (operands : List M.Slot) (count : Nat) : Evaluating M (List M.Slot) :=
  fun world =>
    match world.perform action operands count with
    | .ok (values, world) => .ok values.val world
    | .error (exception, world) => .error (.thrown exception) world

def ofOption {α : Type} : Option α → Evaluating M α
  | some a => pure a
  | none => throw .stuck

/-- A value of one slot. -/
def narrow : List M.Slot → Evaluating M M.Slot
  | [value] => pure value
  | _ => throw .stuck

end Evaluating

open Evaluating

/-- Type of the values of an expression. -/
def Expr.valueType? (shape : MethodShape) (scope : Scope) : Expr → Option FieldType
  | .null => some (.object .object)
  | .int _ | .arrayLength _ | .bitAnd _ _ => some .int
  | .long _ => some .long
  | .bool _ => some .boolean
  | .string _ => some (.object .string)
  | .this => (RefType.ofClassName shape.thisClass).toOption.map .ref
  | .argument index => shape.descriptor.parameters[index]?
  | .variable name => (scope.find? name).map Prod.snd
  | .getField _ field | .getStatic field => (FieldType.parse field.descriptor).toOption
  | .call _ _ _ text _ _ => (MethodDescriptor.parse text).toOption.bind MethodDescriptor.returnType
  | .checkCast _ target => (RefType.ofClassName target).toOption.map .ref
  | .arrayElement array _ => (array.valueType? shape scope).bind Compiler.elementType?
  | .objectArray element _ => (RefType.ofClassName element).toOption.map fun type => .arrayOf (.ref type)

/-- Slots of a value of an optional type. -/
def slotsOf (type : Option FieldType) : Nat := (type.map FieldType.width).getD 0

/-- Stores a value at a position of an array. -/
def Evaluating.storeElement (array : List M.Slot) (position : Nat) (value : List M.Slot) :
    Evaluating M Unit :=
  discard (perform (.other (.arrayStore .reference))
    (value ++ M.int (Int32.ofNat position) :: array) 0)

section

variable (shape : MethodShape) (scope : Scope) (store : Store M)

mutual

/-- The slots of the value, topmost first; none for a call of a method that returns nothing. -/
def Expr.eval : Expr → Evaluating M (List M.Slot)
  | .null => pure [M.null]
  | .int value => pure [M.int value]
  | .long value => perform (.long value) [] 2
  | .bool value => pure [M.int (if value then 1 else 0)]
  | .string text => perform (.text text) [] 1
  | .this => ofOption (store.receiver.map fun value => [value])
  | .argument index => ofOption (store.arguments index)
  | .variable name => ofOption ((scope.find? name).bind fun found => store.bindings found.1)
  | .getField object field => do
    let operands ← object.eval
    perform (.field .getField field) operands (slotsOf (FieldType.parse field.descriptor).toOption)
  | .getStatic field =>
    perform (.field .getStatic field) [] (slotsOf (FieldType.parse field.descriptor).toOption)
  | .call kind owner name text receiver arguments => do
    let receiver ← Expr.evalReceiver receiver
    let operands ← Expr.evalAll arguments
    perform (.call kind ⟨owner, name, text, kind == .interface⟩) (operands ++ receiver)
      (slotsOf ((MethodDescriptor.parse text).toOption.bind MethodDescriptor.returnType))
  | .checkCast value target => do
    let operands ← value.eval
    perform (.cast target) operands 1
  | .arrayLength array => do
    let operands ← array.eval
    perform (.other .arrayLength) operands 1
  | .arrayElement array index => do
    let array' ← array.eval
    let index ← index.eval
    let element ← ofOption ((array.valueType? shape scope).bind Compiler.elementType?)
    perform (.other (.arrayLoad (Compiler.arrayKind element))) (index ++ array') element.width
  | .objectArray element elements => do
    let array ← perform (.newArray element) [M.int (Int32.ofNat elements.length)] 1
    Expr.storeAll array 0 elements
    return array
  | .bitAnd a b => do
    let a ← a.eval
    let b ← b.eval
    return [M.int (M.toInt (← narrow a) &&& M.toInt (← narrow b))]

def Expr.evalReceiver : Option Expr → Evaluating M (List M.Slot)
  | none => pure []
  | some receiver => receiver.eval

/-- The slots of the values in order, those of the last topmost. -/
def Expr.evalAll : List Expr → Evaluating M (List M.Slot)
  | [] => pure []
  | first :: rest => do
    let value ← first.eval
    let values ← Expr.evalAll rest
    return values ++ value

/-- Evaluates the elements of an array and stores them from a position on, one after another. -/
def Expr.storeAll (array : List M.Slot) (position : Nat) : List Expr → Evaluating M Unit
  | [] => pure ()
  | first :: rest => do
    let value ← first.eval
    storeElement array position value
    Expr.storeAll array (position + 1) rest

end

mutual

def Cond.holds : Cond → Evaluating M Bool
  | .isNull value => do return M.isNull (← narrow (← value.eval shape scope store))
  | .notNull value => do return !M.isNull (← narrow (← value.eval shape scope store))
  | .isTrue value => do return M.toInt (← narrow (← value.eval shape scope store)) != 0
  | .isFalse value => do return M.toInt (← narrow (← value.eval shape scope store)) == 0
  | .compare comparison a b => do
    let a ← a.eval shape scope store
    let b ← b.eval shape scope store
    return comparison.holds (M.toInt (← narrow a)) (M.toInt (← narrow b))
  | .all conditions => Cond.allHold conditions
  | .any conditions => Cond.anyHolds conditions
  | .not condition => do return !(← condition.holds)

def Cond.allHold : List Cond → Evaluating M Bool
  | [] => pure true
  | first :: rest => do if ← first.holds then Cond.allHold rest else return false

def Cond.anyHolds : List Cond → Evaluating M Bool
  | [] => pure false
  | first :: rest => do if ← first.holds then return true else Cond.anyHolds rest

end

end

namespace Scope

def declareAs (scope : Scope) (name : String) (type : Option FieldType) : Scope :=
  match type with
  | some type => (name, type) :: scope
  | none => scope

/-- The scope of the test of the elements of an array. -/
def iterate (shape : MethodShape) (scope : Scope) (result element : String) (array : Expr) : Scope :=
  Scope.declareAs ((result, .boolean) :: scope) element
    ((array.valueType? shape scope).bind Compiler.elementType?)

/-- The scope of a handler. -/
def catching (scope : Scope) (catchType binding : Option String) : Scope :=
  match binding with
  | none => scope
  | some name =>
    scope.declareAs name <| match catchType with
      | none => some (.object .throwable)
      | some caught => (RefType.ofClassName caught).toOption.map .ref

end Scope

mutual

/-- The scope behind a statement; what a block declares stays declared behind it. -/
def Stmt.namesAfter (shape : MethodShape) (scope : Scope) : Stmt → Scope
  | .declare name descriptor _ => scope.declareAs name (FieldType.parse descriptor).toOption
  | .branch _ whenTrue whenFalse =>
    Stmt.namesAfterAll shape (Stmt.namesAfterAll shape scope whenTrue) whenFalse
  | .loop _ body => Stmt.namesAfterAll shape scope body
  | .allOf result array element _ => scope.iterate shape result element array
  | .tryCatch body catchType binding handler =>
    Stmt.namesAfterAll shape ((Stmt.namesAfterAll shape scope body).catching catchType binding) handler
  | .assign _ _ | .setArgument _ _ | .eval _ | .increment _ _ | .leave _ => scope

def Stmt.namesAfterAll (shape : MethodShape) (scope : Scope) : List Stmt → Scope
  | [] => scope
  | first :: rest => Stmt.namesAfterAll shape (first.namesAfter shape scope) rest

end

/-- How statements end. -/
inductive Ending (M : Machine) where
  | next (store : Store M) (world : World M)
  | left (values : List M.Slot) (world : World M)
  | thrown (exception : M.Slot) (store : Store M) (world : World M)
  | running (world : World M)
  | stuck

namespace Ending

/-- Goes on if control gets behind the statements. -/
def andThen (ending : Ending M) (next : Store M → World M → Ending M) : Ending M :=
  match ending with
  | .next store world => next store world
  | ending => ending

/-- Goes on with what an evaluation gives. -/
def ofEval {α : Type} (step : Evaluating M α) (store : Store M) (world : World M)
    (next : α → World M → Ending M) : Ending M :=
  match step world with
  | .ok a world => next a world
  | .error (.thrown exception) world => .thrown exception store world
  | .error .stuck _ => .stuck

/-- Runs the body as long as the test succeeds, before each time. -/
def loop (test : Store M → Evaluating M Bool) (body : Store M → World M → Ending M) :
    (fuel : Nat) → Store M → World M → Ending M
  | 0, _, world => .running world
  | fuel + 1, store, world =>
    ofEval (test store) store world fun holds world =>
      if holds then (body store world).andThen (loop test body fuel) else .next store world

/-- Tests the elements of an array from an index on. The variable with the given number has the
element, and the one before it whether all elements have passed so far. -/
def tally (array : List M.Slot) (type : FieldType) (number : Nat) (test : Store M → Evaluating M Bool) :
    (fuel : Nat) → (index : Int32) → Store M → World M → Ending M
  | 0, _, _, world => .running world
  | fuel + 1, index, store, world =>
    ofEval (do narrow (← perform (.other .arrayLength) array 1)) store world fun length world =>
      if M.toInt length ≤ index then .next store world
      else
        let action := .other (.arrayLoad (Compiler.arrayKind type))
        ofEval (perform action (M.int index :: array) type.width) store world fun value world =>
          let store := store.setVariable (number + 1) value
          let step : Evaluating M (List M.Slot) := do
            let passed ← narrow (← ofOption (store.bindings number))
            let holds ← test store
            return [M.int (M.toInt passed &&& if holds then 1 else 0)]
          ofEval step store world fun passed world =>
            tally array type number test fuel (index + 1) (store.setVariable number passed) world

end Ending

open Ending

mutual

def Stmt.exec (shape : MethodShape) (fuel : Nat) (scope : Scope) :
    Stmt → Store M → World M → Ending M
  | .declare _ _ value, store, world =>
    ofEval (value.eval shape scope store) store world fun value world =>
      .next (store.setVariable scope.length value) world
  | .assign name value, store, world =>
    match scope.find? name with
    | none => .stuck
    | some (number, _) =>
      ofEval (value.eval shape scope store) store world fun value world =>
        .next (store.setVariable number value) world
  | .setArgument index value, store, world =>
    ofEval (value.eval shape scope store) store world fun value world =>
      .next (store.setArgument index value) world
  | .eval value, store, world =>
    ofEval (value.eval shape scope store) store world fun _ world => .next store world
  | .branch condition whenTrue whenFalse, store, world =>
    ofEval (condition.holds shape scope store) store world fun holds world =>
      if holds then Stmt.execAll shape fuel scope whenTrue store world
      else Stmt.execAll shape fuel (Stmt.namesAfterAll shape scope whenTrue) whenFalse store world
  | .loop condition body, store, world =>
    Ending.loop (fun store => condition.holds shape scope store) (Stmt.execAll shape fuel scope body) fuel
      store world
  | .increment name amount, store, world =>
    match scope.find? name with
    | none => .stuck
    | some (number, _) =>
      ofEval (do narrow (← ofOption (store.bindings number))) store world fun value world =>
        .next (store.setVariable number [M.int (M.toInt value + amount.toInt32)]) world
  | .allOf result array element test, store, world =>
    match (array.valueType? shape scope).bind Compiler.elementType? with
    | none => .stuck
    | some type =>
      ofEval (array.eval shape scope store) store world fun value world =>
        let inside := scope.iterate shape result element array
        tally value type scope.length (fun store => test.holds shape inside store) fuel 0
          (store.setVariable scope.length [M.int 1]) world
  | .tryCatch body catchType binding handler, store, world =>
    match Stmt.execAll shape fuel scope body store world with
    | .thrown exception store world =>
      if M.catches catchType exception world then
        let behind := Stmt.namesAfterAll shape scope body
        let store := if binding.isSome then store.setVariable behind.length [exception] else store
        Stmt.execAll shape fuel (behind.catching catchType binding) handler store world
      else .thrown exception store world
    | ending => ending
  | .leave none, _, world => .left [] world
  | .leave (some value), store, world =>
    ofEval (value.eval shape scope store) store world .left

/-- Statements in order, until one of them does not end with what is behind it. -/
def Stmt.execAll (shape : MethodShape) (fuel : Nat) (scope : Scope) :
    List Stmt → Store M → World M → Ending M
  | [], store, world => .next store world
  | first :: rest, store, world =>
    (Stmt.exec shape fuel scope first store world).andThen
      (Stmt.execAll shape fuel (first.namesAfter shape scope) rest)

end

/-- A loop runs its body as long as its condition holds. -/
theorem Stmt.exec_loop (shape : MethodShape) (fuel : Nat) (scope : Scope) (condition : Cond) (body : List Stmt)
    (store : Store M) (world : World M) : Stmt.exec shape fuel scope (.loop condition body) store world =
      Ending.loop (fun store => condition.holds shape scope store) (Stmt.execAll shape fuel scope body) fuel
        store world := by
  rw [Stmt.exec]

/-- A handler goes on where its body throws what it catches. -/
theorem Stmt.exec_tryCatch (shape : MethodShape) (fuel : Nat) (scope : Scope) (body : List Stmt)
    (catchType : Option String) (binding : Option String) (handler : List Stmt) (store : Store M) (world : World M) :
    Stmt.exec shape fuel scope (.tryCatch body catchType binding handler) store world =
      match Stmt.execAll shape fuel scope body store world with
      | .thrown exception store world =>
        if M.catches catchType exception world then
          let behind := Stmt.namesAfterAll shape scope body
          let store := if binding.isSome then store.setVariable behind.length [exception] else store
          Stmt.execAll shape fuel (behind.catching catchType binding) handler store world
        else .thrown exception store world
      | ending => ending := by
  rw [Stmt.exec]

end ClassWeave
