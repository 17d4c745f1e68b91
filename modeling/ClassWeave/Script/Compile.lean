import ClassWeave.Code.Builder
import ClassWeave.Patch.Error
import ClassWeave.Script.Basic

/-!
Compiling scripts. Statements go straight onto a builder, which types each instruction, so code that
is accepted comes with its frames. Every variable a script declares has slots of its own.
-/

namespace ClassWeave

/-- A builder, and the variables declared so far, the latest first. -/
structure Compiler where
  builder : Builder
  scope : List (String × UInt16 × FieldType)
  nextLocal : UInt16

abbrev Compiling := EStateM PatchError Compiler

namespace Compiler

/-- Nothing declared yet; the slots of the parameters are never given to variables. -/
def start (builder : Builder) (firstFree : UInt16) : Compiler :=
  let parameters := builder.shape.parameterSlots
  ⟨builder, [], if firstFree ≤ parameters then parameters else firstFree⟩

def lift {α : Type} (step : Building α) : Compiling α := fun compiler =>
  match step compiler.builder with
  | .ok value builder => .ok value { compiler with builder := builder }
  | .error problem builder => .error (.ofClass problem) { compiler with builder := builder }

instance : MonadLift Building Compiling := ⟨lift⟩

open Builder (push pushBranch place fresh)

def isReachable : Compiling Bool := return (← get).builder.isReachable

def isJumpedTo (label : Label) : Compiling Bool := return (← get).builder.isJumpedTo label

def shape : Compiling MethodShape := return (← get).builder.shape

/-- Places a label, unless nothing would ever arrive there. -/
def placeIfReachable (label : Label) : Compiling Unit := do
  if (← isReachable) || (← isJumpedTo label) then place label

/-- Jumps, unless control cannot get to the jump. -/
def gotoIfReachable (label : Label) : Compiling Unit := do
  if ← isReachable then pushBranch (.goto label)

/-- Slots for a new variable. -/
def allocate (type : FieldType) : Compiling UInt16 := do
  let compiler ← get
  let next := compiler.nextLocal.toNat + type.width
  if 65535 < next then throw (.unsupported .tooManyLocals)
  set { compiler with nextLocal := UInt16.ofNat next }
  return compiler.nextLocal

def declare (name : String) (slot : UInt16) (type : FieldType) : Compiling Unit :=
  modify fun compiler => { compiler with scope := (name, slot, type) :: compiler.scope }

def lookUp (name : String) : Compiling (UInt16 × FieldType) := do
  match (← get).scope.lookup name with
  | some found => return found
  | none => throw (.unknownVariable name)

def argument (index : Nat) : Compiling (UInt16 × FieldType) := do
  match (← shape).parameterSlot? index with
  | some found => return found
  | none => throw (.argumentOutOfRange index)

def fieldType (descriptor : String) : Compiling FieldType :=
  match FieldType.parse descriptor with
  | .ok type => pure type
  | .error _ => throw (.badClass (.badDescriptor descriptor))

/-- Type of the values of a class, which may be an array class. -/
def classType (name : String) : Compiling FieldType :=
  match RefType.ofClassName name with
  | .ok type => pure (.ref type)
  | .error _ => throw (.badClass (.badClassName name))

def elementType? : FieldType → Option FieldType
  | .ref type => type.elementType?
  | .base _ => none

def arrayKind : FieldType → ArrayKind
  | .base .byte | .base .boolean => .byte
  | .base .char => .char
  | .base .short => .short
  | .base .int => .int
  | .base .long => .long
  | .base .float => .float
  | .base .double => .double
  | .ref _ => .reference

/-- The type of a value that an expression has to have. -/
def required (expr : Expr) : Option FieldType → Compiling FieldType
  | some type => pure type
  | none => throw (.unsupported (.voidValue expr.text))

/-- A call takes as many arguments as its descriptor tells. -/
def callDescriptor (owner name text : String) (count : Nat) : Compiling MethodDescriptor :=
  match MethodDescriptor.parse text with
  | .error _ => throw (.badClass (.badDescriptor text))
  | .ok descriptor =>
    if descriptor.parameters.length = count then pure descriptor
    else throw (.arityMismatch (owner ++ "." ++ name ++ text) descriptor.parameters.length count)

mutual

/-- Code of an expression, and the type of its value unless it has none. -/
def expr : Expr → Compiling (Option FieldType)
  | .null => do
    push .constNull
    return some (.object .object)
  | .int value => do
    Builder.constInt value
    return some .int
  | .long value => do
    Builder.constLong value
    return some .long
  | .bool value => do
    Builder.constInt (if value then 1 else 0)
    return some .boolean
  | .string text => do
    Builder.constString text
    return some (.object .string)
  | .this => do
    let shape ← shape
    if shape.isStatic then throw (.unsupported .thisInStatic)
    push (.load .reference 0)
    return some (← classType shape.thisClass)
  | .argument index => do
    let (slot, type) ← argument index
    Builder.load slot type
    return some type
  | .variable name => do
    let (slot, type) ← lookUp name
    Builder.load slot type
    return some type
  | .getField object field => do
    discard (required object (← expr object))
    Builder.field .getField field.owner field.name field.descriptor
    return some (← fieldType field.descriptor)
  | .getStatic field => do
    Builder.field .getStatic field.owner field.name field.descriptor
    return some (← fieldType field.descriptor)
  | .call kind owner name text receiver arguments => do
    let descriptor ← callDescriptor owner name text arguments.length
    match kind, receiver with
    | .static, none => pure ()
    | .static, some _ => throw (.unsupported (.staticReceiver name))
    | _, none => throw (.unsupported (.missingReceiver name))
    | _, some receiver => discard (required receiver (← expr receiver))
    values arguments
    Builder.invoke kind.invokeKind owner name text
    return descriptor.returnType
  | .checkCast value target => do
    discard (required value (← expr value))
    Builder.checkCast target
    return some (← classType target)
  | .arrayLength array => do
    discard (required array (← expr array))
    push .arrayLength
    return some .int
  | .arrayElement array index => do
    let type ← required array (← expr array)
    match elementType? type with
    | none => throw (.unsupported (.notIndexed type.render))
    | some element =>
      discard (required index (← expr index))
      push (.arrayLoad (arrayKind element))
      return some element
  | .objectArray element elements => do
    let type ← classType element
    Builder.constInt (Int32.ofNat elements.length)
    Builder.newRefArray element
    storeElements 0 elements
    return some (.arrayOf type)
  | .bitAnd a b => do
    discard (required a (← expr a))
    discard (required b (← expr b))
    push (.bitwise .and false)
    return some .int

def values : List Expr → Compiling Unit
  | [] => pure ()
  | first :: rest => do
    discard (required first (← expr first))
    values rest

/-- Stores values into the array on top, from a position on. -/
def storeElements (position : Nat) : List Expr → Compiling Unit
  | [] => pure ()
  | first :: rest => do
    push (.stack .dup)
    Builder.constInt (Int32.ofNat position)
    discard (required first (← expr first))
    push (.arrayStore .reference)
    storeElements (position + 1) rest

end

/-- Code of an expression that has to have a value, and its type. -/
def value (expression : Expr) : Compiling FieldType := do required expression (← expr expression)

/-- Code of conditions of which one with a value other than `neutral` decides. If that is the value
to jump for, each of them jumps by itself; else one that decides skips the jump of the last. -/
def junction (neutral jumpIf : Bool) (target : Label) (isEmpty : Bool) (each : Compiling Unit)
    (lastOf : Label → Compiling Unit) : Compiling Unit := do
  if isEmpty then
    if jumpIf = neutral then pushBranch (.goto target)
  else if jumpIf ≠ neutral then each
  else
    let skip ← fresh
    lastOf skip
    placeIfReachable skip

mutual

/-- Code that jumps to `target` if the condition has the value `jumpIf`, and falls through if it has
not. -/
def cond (jumpIf : Bool) (target : Label) : Cond → Compiling Unit
  | .isNull operand => do
    discard (value operand)
    pushBranch (.ifNull (if jumpIf then .eq else .ne) target)
  | .notNull operand => do
    discard (value operand)
    pushBranch (.ifNull (if jumpIf then .ne else .eq) target)
  | .isTrue operand => do
    discard (value operand)
    pushBranch (.ifZero (if jumpIf then .ne else .eq) target)
  | .isFalse operand => do
    discard (value operand)
    pushBranch (.ifZero (if jumpIf then .eq else .ne) target)
  | .compare comparison a b => do
    discard (value a)
    discard (value b)
    pushBranch (.ifInts (if jumpIf then comparison else comparison.not) target)
  | .not condition => cond (!jumpIf) target condition
  | .all conditions =>
    junction true jumpIf target conditions.isEmpty (each jumpIf target conditions)
      fun skip => lastOf jumpIf target skip conditions
  | .any conditions =>
    junction false jumpIf target conditions.isEmpty (each jumpIf target conditions)
      fun skip => lastOf jumpIf target skip conditions

/-- Each condition jumps by itself. -/
def each (jumpIf : Bool) (target : Label) : List Cond → Compiling Unit
  | [] => pure ()
  | first :: rest => do
    cond jumpIf target first
    each jumpIf target rest

/-- The last condition jumps to `target`; those before it skip it if they have the other value. -/
def lastOf (jumpIf : Bool) (target skip : Label) : List Cond → Compiling Unit
  | [] => pure ()
  | [last] => cond jumpIf target last
  | first :: rest => do
    cond (!jumpIf) skip first
    lastOf jumpIf target skip rest

end

/-- Pushes whether a condition holds, as an int. -/
def condValue (condition : Cond) : Compiling Unit := do
  let zero ← fresh
  let join ← fresh
  cond false zero condition
  if ← isReachable then
    Builder.constInt 1
    pushBranch (.goto join)
  if ← isJumpedTo zero then
    place zero
    Builder.constInt 0
  placeIfReachable join

/-- Declares a variable with the value on top of the stack. -/
def bind (name : String) (type : FieldType) : Compiling Unit := do
  let slot ← allocate type
  Builder.store slot type
  declare name slot type

/-- A loop over the elements of an array, with variables for the array and the index that have no
name. -/
def allOf (result : String) (array : Expr) (element : String) (test : Cond) : Compiling Unit := do
  let arrayType ← value array
  match elementType? arrayType with
  | none => throw (.unsupported (.notIterated arrayType.render))
  | some elementType =>
    let arraySlot ← allocate arrayType
    Builder.store arraySlot arrayType
    let indexSlot ← allocate .int
    Builder.constInt 0
    Builder.store indexSlot .int
    let resultSlot ← allocate .boolean
    Builder.constInt 1
    Builder.store resultSlot .boolean
    let elementSlot ← allocate elementType
    declare result resultSlot .boolean
    declare element elementSlot elementType
    let head ← fresh
    let exit ← fresh
    place head
    push (.load .int indexSlot)
    push (.load .reference arraySlot)
    push .arrayLength
    pushBranch (.ifInts .ge exit)
    push (.load .reference arraySlot)
    push (.load .int indexSlot)
    push (.arrayLoad (arrayKind elementType))
    Builder.store elementSlot elementType
    push (.load .int resultSlot)
    condValue test
    push (.bitwise .and false)
    push (.store .int resultSlot)
    push (.increment indexSlot 1)
    pushBranch (.goto head)
    place exit

/-- Leaves the method with a value of its return type. -/
def leave (result : Option Expr) : Compiling Unit := do
  let expected := (← shape).returnType
  let expectedText := (expected.map FieldType.render).getD "V"
  match result with
  | none => if expected.isSome then throw (.returnTypeMismatch expectedText "V")
  | some result =>
    let found ← value result
    if expected.map SlotKind.ofFieldType ≠ some (SlotKind.ofFieldType found) then
      throw (.returnTypeMismatch expectedText found.render)
  Builder.leave

mutual

def stmt : Stmt → Compiling Unit
  | .declare name descriptor initial => do
    let type ← fieldType descriptor
    discard (value initial)
    bind name type
  | .assign name assigned => do
    let (slot, type) ← lookUp name
    discard (value assigned)
    Builder.store slot type
  | .setArgument index assigned => do
    let (slot, type) ← argument index
    discard (value assigned)
    Builder.store slot type
  | .eval expression => do
    if (← expr expression).isSome then Builder.pop
  | .branch condition whenTrue whenFalse => do
    let otherwise ← fresh
    cond false otherwise condition
    block whenTrue
    if whenFalse.isEmpty then placeIfReachable otherwise
    else
      let done ← fresh
      gotoIfReachable done
      placeIfReachable otherwise
      block whenFalse
      placeIfReachable done
  | .loop condition body => do
    let head ← fresh
    let exit ← fresh
    place head
    cond false exit condition
    block body
    gotoIfReachable head
    placeIfReachable exit
  | .increment name amount => do
    let (slot, type) ← lookUp name
    if SlotKind.ofFieldType type ≠ .int then
      throw (.unsupported (.notIncremented name type.render))
    push (.increment slot amount)
  | .allOf result array element test => allOf result array element test
  | .tryCatch body catchType binding handler => do
    if body.isEmpty then throw (.unsupported .emptyTry)
    let after ← fresh
    let start ← Builder.beginTry
    block body
    let (label, frame) ← Builder.endTry start catchType
    gotoIfReachable after
    Builder.placeWith label frame
    match binding with
    | none => Builder.pop
    | some name =>
      let type ← match catchType with
        | some caught => classType caught
        | none => pure (.object .throwable)
      bind name type
    block handler
    placeIfReachable after
  | .leave result => leave result

def block : List Stmt → Compiling Unit
  | [] => pure ()
  | first :: rest => do
    stmt first
    block rest

end

/-- Code that goes on if the condition holds, and jumps to `target` if it does not. -/
def jumpUnless (condition : Cond) (target : Label) : Compiling Unit := cond false target condition

end Compiler

end ClassWeave
