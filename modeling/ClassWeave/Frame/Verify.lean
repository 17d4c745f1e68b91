import ClassWeave.Code.Branch
import ClassWeave.Pool.Loadable

/-!
The typing rules of the instructions: from the frame before an instruction, the frame after it, or
why the instruction cannot run there.
-/

namespace ClassWeave

abbrev Verifying := StateT EditFrame (Except VerifyError)

namespace Verifying

def push (type : EditType) : Verifying Unit :=
  modify fun frame => { frame with stack := type :: frame.stack }

/-- Pushes in order, so the last ends on top. -/
def pushAll (types : List EditType) : Verifying Unit :=
  modify fun frame => { frame with stack := types.reverse ++ frame.stack }

def pop : Verifying EditType := fun frame =>
  match frame.stack with
  | [] => .error .emptyStack
  | type :: rest => .ok (type, { frame with stack := rest })

def popNarrow : Verifying EditType := do
  let type ← pop
  if type.isWide then throw (.badWidth type.width)
  return type

def popExactly (expected : EditType) : Verifying Unit := do
  let type ← pop
  if type ≠ expected then throw (.incompatible type expected)

def popAssignable (expected : EditType) : Verifying Unit := do
  let type ← pop
  unless EditType.assignable type expected do throw (.incompatible type expected)

def popReference : Verifying Unit := do
  let type ← pop
  unless type.isReference do throw .badType

def getLocal (slot : UInt16) : Verifying EditType := do
  match (← get).locals[slot.toNat]? with
  | some type => return type
  | none => throw .badIndex

def setLocal (slot : UInt16) (type : EditType) : Verifying Unit :=
  modify fun frame => EditFrame.setLocal frame slot type

/-- Takes operands, given in the order they were pushed, and gives a result. -/
def operate (operands : List EditType) (result : EditType) : Verifying Unit := do
  operands.reverse.forM popExactly
  push result

end Verifying

open Verifying

def NumberKind.type : NumberKind → EditType
  | .int => .integer
  | .long => .long
  | .float => .float
  | .double => .double

/-- Type of the values of a kind; references have none in common. -/
def SlotKind.type? : SlotKind → Option EditType
  | .int => some .integer
  | .long => some .long
  | .float => some .float
  | .double => some .double
  | .reference => none

namespace ArrayKind

/-- Type of the elements on the stack, and the classes of the arrays; references have neither in
common. -/
def element? : ArrayKind → Option (EditType × List String)
  | .int => some (.integer, ["[I"])
  | .long => some (.long, ["[J"])
  | .float => some (.float, ["[F"])
  | .double => some (.double, ["[D"])
  | .byte => some (.integer, ["[B", "[Z"])
  | .char => some (.integer, ["[C"])
  | .short => some (.integer, ["[S"])
  | .reference => none

def popArray (classes : List String) : Verifying Unit := do
  match ← pop with
  | .null => return
  | .object name => unless classes.contains name do throw .notArray
  | _ => throw .notArray

/-- Type of the elements of an array of references. -/
def referenceElement (array : EditType) : Verifying EditType :=
  match EditType.arrayElement? array with
  | some element => if element.isReference then pure element else throw .notArray
  | none => throw .notArray

def verifyLoad (kind : ArrayKind) : Verifying Unit := do
  popExactly .integer
  match kind.element? with
  | some (element, classes) =>
    popArray classes
    push element
  | none =>
    match ← pop with
    | .null => push .null
    | array => push (← referenceElement array)

def verifyStore (kind : ArrayKind) : Verifying Unit := do
  match kind.element? with
  | some (element, classes) =>
    popExactly element
    popExactly .integer
    popArray classes
  | none =>
    let value ← pop
    popExactly .integer
    let array ← pop
    unless value.isReference do throw .badType
    if array ≠ .null then
      let element ← referenceElement array
      unless EditType.assignable value element do throw (.incompatible value element)

end ArrayKind

/-- Whether a value that is not on top may be wide decides which values move. -/
def StackOp.verify : StackOp → Verifying Unit
  | .pop => do discard popNarrow
  | .pop2 => do
    let a ← Verifying.pop
    unless a.isWide do discard popNarrow
  | .dup => do
    let a ← popNarrow
    pushAll [a, a]
  | .dupX1 => do
    let a ← popNarrow
    let b ← popNarrow
    pushAll [a, b, a]
  | .dupX2 => do
    let a ← popNarrow
    let b ← Verifying.pop
    if b.isWide then pushAll [a, b, a]
    else
      let c ← popNarrow
      pushAll [a, c, b, a]
  | .dup2 => do
    let a ← Verifying.pop
    if a.isWide then pushAll [a, a]
    else
      let b ← popNarrow
      pushAll [b, a, b, a]
  | .dup2X1 => do
    let a ← Verifying.pop
    if a.isWide then
      let b ← popNarrow
      pushAll [a, b, a]
    else
      let b ← popNarrow
      let c ← popNarrow
      pushAll [b, a, c, b, a]
  | .dup2X2 => do
    let a ← Verifying.pop
    if a.isWide then
      let b ← Verifying.pop
      if b.isWide then pushAll [a, b, a]
      else
        let c ← popNarrow
        pushAll [a, c, b, a]
    else
      let b ← popNarrow
      let c ← Verifying.pop
      if c.isWide then pushAll [b, a, c, b, a]
      else
        let d ← popNarrow
        pushAll [b, a, d, c, b, a]
  | .swap => do
    let a ← popNarrow
    let b ← popNarrow
    pushAll [a, b]

/-- The type that a class constant names. -/
def classTypeAt (pool : ConstantPool) (index : PoolIndex) : Verifying RefType :=
  match pool.className index with
  | .error _ => throw (.badDescriptor index.classText)
  | .ok name =>
    match RefType.ofClassName name with
    | .ok type => pure type
    | .error _ => throw (.badDescriptor name)

def FieldAccess.verify (pool : ConstantPool) (access : FieldAccess) (index : PoolIndex) :
    Verifying Unit :=
  match pool.fieldRef index with
  | .error _ => throw (.badDescriptor index.fieldText)
  | .ok field =>
    match FieldType.parse field.descriptor with
    | .error _ => throw (.badDescriptor field.descriptor)
    | .ok fieldType => do
      let type := EditType.ofFieldType fieldType
      match access with
      | .getStatic => push type
      | .putStatic => popAssignable type
      | .getField =>
        popAssignable (.object field.owner)
        push type
      | .putField =>
        popAssignable type
        popAssignable (.object field.owner)

/-- Every copy of an object becomes initialised at once. -/
def EditFrame.initialize (frame : EditFrame) (object initialized : EditType) : EditFrame :=
  let update (type : EditType) : EditType := if type = object then initialized else type
  ⟨frame.locals.map update, frame.stack.map update⟩

def popArguments (method : MethodDescriptor) : Verifying Unit :=
  method.parameters.reverse.forM fun type => popAssignable (EditType.ofFieldType type)

def pushReturn (method : MethodDescriptor) : Verifying Unit :=
  match method.returnType with
  | some type => push (EditType.ofFieldType type)
  | none => pure ()

def InvokeKind.verify (pool : ConstantPool) (thisClass : String) (kind : InvokeKind)
    (index : PoolIndex) : Verifying Unit :=
  match pool.methodRef index with
  | .error _ => throw (.badDescriptor index.methodText)
  | .ok method =>
    match MethodDescriptor.parse method.descriptor with
    | .error _ => throw (.badDescriptor method.descriptor)
    | .ok descriptor => do
      if let .interface slots := kind then
        if slots.toNat ≠ descriptor.parameterSlots true then throw .badIndex
      popArguments descriptor
      if kind = .special ∧ method.name = MemberName.constructor.text then
        let receiver ← pop
        let initialized ← match receiver with
          | .uninitializedThis => pure (.object thisClass)
          | .uninitialized _ => pure (.object method.owner)
          | _ => throw .badType
        modify fun frame => EditFrame.initialize frame receiver initialized
        if descriptor.returnType.isSome then throw .badType
      else if kind.hasReceiver then popAssignable (.object method.owner)
      pushReturn descriptor

/-- Rule of an instruction that does not jump. An allocation takes the label in front of it as the
identity of the object. -/
def Insn.verify (pool : ConstantPool) (thisClass : String) (allocation : Option Label) :
    Insn → Verifying Unit
  | .nop => pure ()
  | .constNull => push .null
  | .constInt _ | .pushByte _ | .pushShort _ => push .integer
  | .constLong _ => push .long
  | .constFloat _ => push .float
  | .constDouble _ => push .double
  | .loadConstant index => loadOfWidth index 1
  | .loadWideConstant index => loadOfWidth index 2
  | .load kind slot =>
    match kind.type? with
    | some expected => do
      let type ← getLocal slot
      if type ≠ expected then throw (.incompatible type expected)
      push expected
    | none => do
      let type ← getLocal slot
      unless type.isReference do throw .badType
      push type
  | .store kind slot =>
    match kind.type? with
    | some expected => do
      popExactly expected
      setLocal slot expected
    | none => do
      let type ← pop
      unless type.isReference do throw .badType
      setLocal slot type
  | .arrayLoad kind => kind.verifyLoad
  | .arrayStore kind => kind.verifyStore
  | .stack op => op.verify
  | .arithmetic _ kind => operate [kind.type, kind.type] kind.type
  | .negate kind => operate [kind.type] kind.type
  | .shift _ ofLong => if ofLong then operate [.long, .integer] .long
      else operate [.integer, .integer] .integer
  | .bitwise _ ofLong => if ofLong then operate [.long, .long] .long
      else operate [.integer, .integer] .integer
  | .increment slot _ => do
    let type ← getLocal slot
    if type ≠ .integer then throw .badType
  | .convert conversion => operate [conversion.source.type] conversion.target.type
  | .compareLong => operate [.long, .long] .integer
  | .compareFloat ofDouble _ => if ofDouble then operate [.double, .double] .integer
      else operate [.float, .float] .integer
  | .field access index => access.verify pool index
  | .invoke kind index => kind.verify pool thisClass index
  | .invokeDynamic index =>
    match pool.callSite index with
    | .error _ => throw (.badDescriptor index.callSiteText)
    | .ok (_, text) =>
      match MethodDescriptor.parse text with
      | .error _ => throw (.badDescriptor text)
      | .ok descriptor => do
        popArguments descriptor
        pushReturn descriptor
  | .new _ =>
    match allocation with
    | some label => push (.uninitialized label)
    | none => throw .badType
  | .newArray element => do
    popExactly .integer
    push (.object (RefType.arrayOf (.base element)).className)
  | .newRefArray index => do
    popExactly .integer
    let element ← classTypeAt pool index
    push (.object (RefType.arrayOf (.ref element)).className)
  | .newMultiArray index dimensions => do
    (List.replicate dimensions.toNat .integer).forM popExactly
    push (.object (← classTypeAt pool index).className)
  | .arrayLength => do
    let array ← pop
    if array ≠ .null ∧ EditType.arrayElement? array = none then throw .notArray
    push .integer
  | .checkCast index => do
    popReference
    push (.object (← classTypeAt pool index).className)
  | .instanceOf _ => do
    popReference
    push .integer
  | .monitorEnter | .monitorExit => popReference
where
  loadOfWidth (index : PoolIndex) (width : Nat) : Verifying Unit :=
    match pool.loadableType index with
    | .error _ => throw (.notLoadable index)
    | .ok type => do
      if type.width ≠ width then throw (.badWidth type.width)
      push (EditType.ofFieldType type)

/-- Rule of an instruction that jumps or leaves the method: the frame after it is the one at its
targets. -/
def Branch.verify {T : Type} (returnType : Option FieldType) : Branch T → Verifying Unit
  | .ifZero _ _ | .tableSwitch _ _ _ | .lookupSwitch _ _ => popExactly .integer
  | .ifInts _ _ => do
    popExactly .integer
    popExactly .integer
  | .ifRefs _ _ => do
    popReference
    popReference
  | .ifNull _ _ => popReference
  | .goto _ => pure ()
  | .return (some kind) =>
    let expected := returnType.map EditType.ofFieldType
    match kind.type? with
    | some type => do
      popExactly type
      if expected ≠ some type then throw .badType
    | none =>
      match expected with
      | some type => if type.isReference then popAssignable type else throw .badType
      | none => throw .badType
  | .return none => if returnType.isSome then throw .badType else pure ()
  | .raise => do
    let exception ← pop
    let throwable : EditType := .object ClassName.throwable.text
    unless EditType.assignable exception throwable do throw (.incompatible exception throwable)

end ClassWeave
