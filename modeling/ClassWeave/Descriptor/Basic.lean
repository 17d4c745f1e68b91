import ClassWeave.Name

/-!
Types of fields and methods, and their descriptors. An array type is kept flat: its innermost
element and how many dimensions it has beyond the first.
-/

namespace ClassWeave

inductive BaseType where
  | byte | char | double | float | int | long | short | boolean
  deriving DecidableEq, Repr

namespace BaseType

def all : List BaseType := [.byte, .char, .double, .float, .int, .long, .short, .boolean]

def tag : BaseType → Char
  | .byte => 'B'
  | .char => 'C'
  | .double => 'D'
  | .float => 'F'
  | .int => 'I'
  | .long => 'J'
  | .short => 'S'
  | .boolean => 'Z'

def ofTag? : Char → Option BaseType
  | 'B' => some .byte
  | 'C' => some .char
  | 'D' => some .double
  | 'F' => some .float
  | 'I' => some .int
  | 'J' => some .long
  | 'S' => some .short
  | 'Z' => some .boolean
  | _ => none

/-- Slots a value takes, on the operand stack and among the locals alike. -/
def width : BaseType → Nat
  | .double | .long => 2
  | _ => 1

/-- Operand that names the type in the instruction for arrays of primitive values. -/
def arrayCode : BaseType → UInt8
  | .boolean => 4
  | .char => 5
  | .float => 6
  | .double => 7
  | .byte => 8
  | .short => 9
  | .int => 10
  | .long => 11

def ofArrayCode? : UInt8 → Option BaseType
  | 4 => some .boolean
  | 5 => some .char
  | 6 => some .float
  | 7 => some .double
  | 8 => some .byte
  | 9 => some .short
  | 10 => some .int
  | 11 => some .long
  | _ => none

end BaseType

/-- Innermost element of an array type. -/
inductive ElementType where
  | base (type : BaseType)
  | object (name : ClassName)
  deriving DecidableEq

/-- A class, or an array with `more + 1` dimensions. -/
inductive RefType where
  | object (name : ClassName)
  | array (more : Fin 255) (element : ElementType)
  deriving DecidableEq

/-- Type of a field, parameter or local variable. -/
inductive FieldType where
  | base (type : BaseType)
  | ref (type : RefType)
  deriving DecidableEq

/-- A return type of `none` is `void`. -/
structure MethodDescriptor where
  parameters : List FieldType
  returnType : Option FieldType
  deriving DecidableEq

namespace ElementType

def chars : ElementType → List Char
  | .base type => [type.tag]
  | .object name => 'L' :: name.text.toList ++ [';']

def toFieldType : ElementType → FieldType
  | .base type => .base type
  | .object name => .ref (.object name)

end ElementType

namespace RefType

def chars : RefType → List Char
  | .object name => (ElementType.object name).chars
  | .array more element => List.replicate (more.val + 1) '[' ++ element.chars

def render (type : RefType) : String := String.ofList type.chars

/-- Array of elements of the given type; the 255th dimension is the last. -/
def arrayOf : FieldType → RefType
  | .base type => .array 0 (.base type)
  | .ref (.object name) => .array 0 (.object name)
  | .ref (.array more element) =>
    if h : more.val + 1 < 255 then .array ⟨more.val + 1, h⟩ element else .array more element

def elementType? : RefType → Option FieldType
  | .object _ => none
  | .array ⟨0, _⟩ element => some element.toFieldType
  | .array ⟨more + 1, h⟩ element => some (.ref (.array ⟨more, by omega⟩ element))

/-- Name in a class constant: a class goes by its binary name, an array by its descriptor. -/
def className : RefType → String
  | .object name => name.text
  | array@(.array ..) => array.render

end RefType

namespace FieldType

def int : FieldType := .base .int
def long : FieldType := .base .long
def float : FieldType := .base .float
def double : FieldType := .base .double
def boolean : FieldType := .base .boolean
def object (name : ClassName) : FieldType := .ref (.object name)
def arrayOf (element : FieldType) : FieldType := .ref (.arrayOf element)

def width : FieldType → Nat
  | .base type => type.width
  | .ref _ => 1

def chars : FieldType → List Char
  | .base type => [type.tag]
  | .ref type => type.chars

def render (type : FieldType) : String := String.ofList type.chars

end FieldType

namespace MethodDescriptor

/-- Local slots the parameters take, counting the receiver if there is one. -/
def parameterSlots (descriptor : MethodDescriptor) (hasThis : Bool) : Nat :=
  (descriptor.parameters.map FieldType.width).foldr (· + ·) 0 + hasThis.toNat

def returnChars (descriptor : MethodDescriptor) : List Char :=
  match descriptor.returnType with
  | none => ['V']
  | some type => type.chars

def chars (descriptor : MethodDescriptor) : List Char :=
  '(' :: descriptor.parameters.flatMap FieldType.chars ++ ')' :: descriptor.returnChars

def render (descriptor : MethodDescriptor) : String := String.ofList descriptor.chars

end MethodDescriptor

end ClassWeave
