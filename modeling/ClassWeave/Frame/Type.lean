import ClassWeave.Code.Label
import ClassWeave.Descriptor.Parse
import ClassWeave.Pool.Constant

/-!
Verification types. While code is edited an object type names its class and an uninitialised one the
label of its allocation; a class file stores a pool index and a code offset instead.
-/

namespace ClassWeave

/-- What the verifier knows of a value; `top` is a value that nothing may use. -/
inductive VerificationType (Class Position : Type) where
  | top
  | integer
  | float
  | double
  | long
  | null
  | uninitializedThis
  | object (name : Class)
  | uninitialized (allocation : Position)
  deriving DecidableEq, Repr

abbrev EditType := VerificationType String Label
abbrev StoredType := VerificationType PoolIndex UInt16

namespace VerificationType

variable {C P : Type}

def isReference : VerificationType C P → Bool
  | .null | .uninitializedThis | .object _ | .uninitialized _ => true
  | _ => false

def isWide : VerificationType C P → Bool
  | .double | .long => true
  | _ => false

/-- Slots that a value of the type takes. -/
def width (type : VerificationType C P) : Nat := if type.isWide then 2 else 1

/-- Translates the class and the allocation that a type names. -/
def mapM {C' P' : Type} {m : Type → Type} [Monad m] (onClass : C → m C') (onPosition : P → m P') :
    VerificationType C P → m (VerificationType C' P')
  | .top => pure .top
  | .integer => pure .integer
  | .float => pure .float
  | .double => pure .double
  | .long => pure .long
  | .null => pure .null
  | .uninitializedThis => pure .uninitializedThis
  | .object name => return .object (← onClass name)
  | .uninitialized allocation => return .uninitialized (← onPosition allocation)

/-- The type as listings show it. -/
def text (onClass : C → String) (onPosition : P → String) : VerificationType C P → String
  | .top => "Top"
  | .integer => "Integer"
  | .float => "Float"
  | .double => "Double"
  | .long => "Long"
  | .null => "Null"
  | .uninitializedThis => "UninitializedThis"
  | .object name => "Object:" ++ onClass name
  | .uninitialized allocation => "Uninitialized:" ++ onPosition allocation

/-- The type that listings show by a text. -/
def ofText? (onClass : String → Option C) (onPosition : String → Option P) (text : String) :
    Option (VerificationType C P) :=
  match text.toList.span (· ≠ ':') with
  | (kind, _ :: operand) =>
    let operand := String.ofList operand
    if kind = "Object".toList then (onClass operand).map .object
    else if kind = "Uninitialized".toList then (onPosition operand).map .uninitialized
    else none
  | (_, []) =>
    let plain : List (VerificationType C P) :=
      [.top, .integer, .float, .double, .long, .null, .uninitializedThis]
    plain.find? fun type => type.text (fun _ => "") (fun _ => "") = text

end VerificationType

namespace EditType

def text : EditType → String := VerificationType.text id fun label => toString label.number

def ofText? : String → Option EditType :=
  VerificationType.ofText? some fun number => number.toNat?.map Label.mk

/-- Type of a value that is stored in a variable of the given type. -/
def ofFieldType : FieldType → EditType
  | .base .float => .float
  | .base .long => .long
  | .base .double => .double
  | .base _ => .integer
  | .ref type => .object type.className

/-- A component descriptor as a class name, if it is one of a reference type. -/
def referenceComponent? : List Char → Option (List Char)
  | '[' :: rest => some ('[' :: rest)
  | 'L' :: rest => if rest.getLast? = some ';' then some rest.dropLast else none
  | _ => none

theorem referenceComponent?_length {descriptor component : List Char}
    (h : referenceComponent? descriptor = some component) :
    component.length ≤ descriptor.length := by
  unfold referenceComponent? at h
  split at h
  · simp_all
  · split at h
    · simp only [Option.some.injEq] at h
      subst h
      simp only [List.length_dropLast, List.length_cons]
      omega
    · simp at h
  · simp at h

/-- No class hierarchy is known, so any class passes for another; arrays pass only for arrays of
what their components pass for, and for the classes above every array. -/
def classAssignable (sub sup : List Char) : Bool :=
  if sub = sup ∨ sup = "java/lang/Object".toList then true
  else match sub, sup with
    | '[' :: sub, '[' :: sup =>
      match _hs : referenceComponent? sub, referenceComponent? sup with
      | some sub, some sup => classAssignable sub sup
      | _, _ => sub = sup
    | '[' :: _, sup => sup = "java/lang/Cloneable".toList ∨ sup = "java/io/Serializable".toList
    | _, '[' :: _ => false
    | _, _ => true
termination_by sub.length
decreasing_by
  have := referenceComponent?_length ‹_›
  simp_wf
  omega

/-- May a value of the first type stand where the second is expected? -/
def assignable : EditType → EditType → Bool
  | _, .top => true
  | .null, .object _ => true
  | .object sub, .object sup => classAssignable sub.toList sup.toList
  | a, b => a = b

/-- What is known of a value where two paths meet: what both know, where null is any object. -/
def meet : EditType → EditType → EditType
  | .null, .object name => .object name
  | .object name, .null => .object name
  | a, b => if a = b then a else .top

/-- Type of the elements, if the type is that of an array. -/
def arrayElement? : EditType → Option EditType
  | .object name =>
    match name.toList with
    | '[' :: _ => do
      let array ← (RefType.ofClassName name).toOption
      let element ← array.elementType?
      return ofFieldType element
    | _ => none
  | _ => none

end EditType

namespace StoredType

def text : StoredType → String :=
  VerificationType.text (fun index => toString index.toNat) fun offset => toString offset.toNat

def ofText? : String → Option StoredType :=
  VerificationType.ofText? (fun number => number.toNat?.map fun n => ⟨UInt16.ofNat n⟩) fun number =>
    number.toNat?.map UInt16.ofNat

def bytes : StoredType → Bytes
  | .top => [0]
  | .integer => [1]
  | .float => [2]
  | .double => [3]
  | .long => [4]
  | .null => [5]
  | .uninitializedThis => [6]
  | .object name => 7 :: name.bytes
  | .uninitialized allocation => 8 :: Bytes.u16 allocation

def read : Reader StoredType := do
  match ← Reader.u8 with
  | 0 => return .top
  | 1 => return .integer
  | 2 => return .float
  | 3 => return .double
  | 4 => return .long
  | 5 => return .null
  | 6 => return .uninitializedThis
  | 7 => return .object (← PoolIndex.read)
  | 8 => return .uninitialized (← Reader.u16)
  | tag => throw (.typeTag tag)

end StoredType

end ClassWeave
