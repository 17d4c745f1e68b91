import ClassWeave.Descriptor.Basic
import ClassWeave.Pool.Constant

/-!
Instructions that do not jump. Instructions that differ only in the type they work on form families,
whose members follow each other in the opcode table; the forms of one instruction for small and
large operands are one instruction here.
-/

namespace ClassWeave

/-- Types of arithmetic. -/
inductive NumberKind where
  | int | long | float | double
  deriving DecidableEq, Repr

namespace NumberKind

def code : NumberKind → UInt8
  | .int => 0
  | .long => 1
  | .float => 2
  | .double => 3

def ofCode : Nat → NumberKind
  | 0 => .int
  | 1 => .long
  | 2 => .float
  | _ => .double

def letter : NumberKind → String
  | .int => "I"
  | .long => "L"
  | .float => "F"
  | .double => "D"

def width : NumberKind → Nat
  | .int | .float => 1
  | .long | .double => 2

end NumberKind

/-- Types that loads, stores and returns tell apart. -/
inductive SlotKind where
  | int | long | float | double | reference
  deriving DecidableEq, Repr

namespace SlotKind

def code : SlotKind → UInt8
  | .int => 0
  | .long => 1
  | .float => 2
  | .double => 3
  | .reference => 4

def ofCode : Nat → SlotKind
  | 0 => .int
  | 1 => .long
  | 2 => .float
  | 3 => .double
  | _ => .reference

def letter : SlotKind → String
  | .int => "I"
  | .long => "L"
  | .float => "F"
  | .double => "D"
  | .reference => "A"

def width : SlotKind → Nat
  | .int | .float | .reference => 1
  | .long | .double => 2

def ofFieldType : FieldType → SlotKind
  | .base .long => .long
  | .base .float => .float
  | .base .double => .double
  | .base _ => .int
  | .ref _ => .reference

end SlotKind

/-- Types of array elements that element access tells apart. -/
inductive ArrayKind where
  | int | long | float | double | reference | byte | char | short
  deriving DecidableEq, Repr

namespace ArrayKind

def code : ArrayKind → UInt8
  | .int => 0
  | .long => 1
  | .float => 2
  | .double => 3
  | .reference => 4
  | .byte => 5
  | .char => 6
  | .short => 7

def ofCode : Nat → ArrayKind
  | 0 => .int
  | 1 => .long
  | 2 => .float
  | 3 => .double
  | 4 => .reference
  | 5 => .byte
  | 6 => .char
  | _ => .short

def letter : ArrayKind → String
  | .int => "I"
  | .long => "L"
  | .float => "F"
  | .double => "D"
  | .reference => "A"
  | .byte => "B"
  | .char => "C"
  | .short => "S"

def width : ArrayKind → Nat
  | .long | .double => 2
  | _ => 1

end ArrayKind

/-- Rearrangements of the stack. -/
inductive StackOp where
  | pop | pop2 | dup | dupX1 | dupX2 | dup2 | dup2X1 | dup2X2 | swap
  deriving DecidableEq, Repr

namespace StackOp

def code : StackOp → UInt8
  | .pop => 0
  | .pop2 => 1
  | .dup => 2
  | .dupX1 => 3
  | .dupX2 => 4
  | .dup2 => 5
  | .dup2X1 => 6
  | .dup2X2 => 7
  | .swap => 8

def ofCode : Nat → StackOp
  | 0 => .pop
  | 1 => .pop2
  | 2 => .dup
  | 3 => .dupX1
  | 4 => .dupX2
  | 5 => .dup2
  | 6 => .dup2X1
  | 7 => .dup2X2
  | _ => .swap

def name : StackOp → String
  | .pop => "Pop"
  | .pop2 => "Pop2"
  | .dup => "Dup"
  | .dupX1 => "DupX1"
  | .dupX2 => "DupX2"
  | .dup2 => "Dup2"
  | .dup2X1 => "Dup2X1"
  | .dup2X2 => "Dup2X2"
  | .swap => "Swap"

end StackOp

inductive ArithmeticOp where
  | add | sub | mul | div | rem
  deriving DecidableEq, Repr

namespace ArithmeticOp

def code : ArithmeticOp → UInt8
  | .add => 0
  | .sub => 1
  | .mul => 2
  | .div => 3
  | .rem => 4

def ofCode : Nat → ArithmeticOp
  | 0 => .add
  | 1 => .sub
  | 2 => .mul
  | 3 => .div
  | _ => .rem

def name : ArithmeticOp → String
  | .add => "Add"
  | .sub => "Sub"
  | .mul => "Mul"
  | .div => "Div"
  | .rem => "Rem"

end ArithmeticOp

inductive ShiftOp where
  | left | arithmeticRight | logicalRight
  deriving DecidableEq, Repr

namespace ShiftOp

def code : ShiftOp → UInt8
  | .left => 0
  | .arithmeticRight => 1
  | .logicalRight => 2

def ofCode : Nat → ShiftOp
  | 0 => .left
  | 1 => .arithmeticRight
  | _ => .logicalRight

def name : ShiftOp → String
  | .left => "Left"
  | .arithmeticRight => "ArithmeticRight"
  | .logicalRight => "LogicalRight"

end ShiftOp

inductive BitOp where
  | and | or | xor
  deriving DecidableEq, Repr

namespace BitOp

def code : BitOp → UInt8
  | .and => 0
  | .or => 1
  | .xor => 2

def ofCode : Nat → BitOp
  | 0 => .and
  | 1 => .or
  | _ => .xor

def name : BitOp → String
  | .and => "And"
  | .or => "Or"
  | .xor => "Xor"

end BitOp

/-- Changes of a number's type; the last three keep an int and drop its high bits. -/
inductive Conversion where
  | intToLong | intToFloat | intToDouble
  | longToInt | longToFloat | longToDouble
  | floatToInt | floatToLong | floatToDouble
  | doubleToInt | doubleToLong | doubleToFloat
  | toByte | toChar | toShort
  deriving DecidableEq, Repr

namespace Conversion

def code : Conversion → UInt8
  | .intToLong => 0
  | .intToFloat => 1
  | .intToDouble => 2
  | .longToInt => 3
  | .longToFloat => 4
  | .longToDouble => 5
  | .floatToInt => 6
  | .floatToLong => 7
  | .floatToDouble => 8
  | .doubleToInt => 9
  | .doubleToLong => 10
  | .doubleToFloat => 11
  | .toByte => 12
  | .toChar => 13
  | .toShort => 14

def ofCode : Nat → Conversion
  | 0 => .intToLong
  | 1 => .intToFloat
  | 2 => .intToDouble
  | 3 => .longToInt
  | 4 => .longToFloat
  | 5 => .longToDouble
  | 6 => .floatToInt
  | 7 => .floatToLong
  | 8 => .floatToDouble
  | 9 => .doubleToInt
  | 10 => .doubleToLong
  | 11 => .doubleToFloat
  | 12 => .toByte
  | 13 => .toChar
  | _ => .toShort

def source : Conversion → NumberKind
  | .intToLong | .intToFloat | .intToDouble | .toByte | .toChar | .toShort => .int
  | .longToInt | .longToFloat | .longToDouble => .long
  | .floatToInt | .floatToLong | .floatToDouble => .float
  | .doubleToInt | .doubleToLong | .doubleToFloat => .double

def target : Conversion → NumberKind
  | .longToInt | .floatToInt | .doubleToInt | .toByte | .toChar | .toShort => .int
  | .intToLong | .floatToLong | .doubleToLong => .long
  | .intToFloat | .longToFloat | .doubleToFloat => .float
  | .intToDouble | .longToDouble | .floatToDouble => .double

def name (conversion : Conversion) : String :=
  conversion.source.letter ++ "2" ++ match conversion with
    | .toByte => "B"
    | .toChar => "C"
    | .toShort => "S"
    | other => other.target.letter

end Conversion

/-- What a comparison gives for an operand that is no number. -/
inductive NanMode where
  | less | greater
  deriving DecidableEq, Repr

namespace NanMode

def code : NanMode → UInt8
  | .less => 0
  | .greater => 1

def ofCode : Nat → NanMode
  | 0 => .less
  | _ => .greater

def name : NanMode → String
  | .less => "L"
  | .greater => "G"

end NanMode

inductive FieldAccess where
  | getStatic | putStatic | getField | putField
  deriving DecidableEq, Repr

namespace FieldAccess

def code : FieldAccess → UInt8
  | .getStatic => 0
  | .putStatic => 1
  | .getField => 2
  | .putField => 3

def ofCode : Nat → FieldAccess
  | 0 => .getStatic
  | 1 => .putStatic
  | 2 => .getField
  | _ => .putField

def name : FieldAccess → String
  | .getStatic => "GetStatic"
  | .putStatic => "PutStatic"
  | .getField => "GetField"
  | .putField => "PutField"

end FieldAccess

/-- How a method is chosen at run time; an interface call repeats the slots of its arguments. -/
inductive InvokeKind where
  | virtual
  | special
  | static
  | interface (slots : UInt8)
  deriving DecidableEq, Repr

namespace InvokeKind

def text : InvokeKind → String
  | .virtual => "Virtual"
  | .special => "Special"
  | .static => "Static"
  | .interface slots => "Interface(" ++ toString slots.toNat ++ ")"

def hasReceiver : InvokeKind → Bool
  | .static => false
  | _ => true

end InvokeKind

namespace BaseType

def name : BaseType → String
  | .byte => "Byte"
  | .char => "Char"
  | .double => "Double"
  | .float => "Float"
  | .int => "Int"
  | .long => "Long"
  | .short => "Short"
  | .boolean => "Boolean"

end BaseType

inductive Insn where
  | nop
  | constNull
  /-- The int one less than the operand. -/
  | constInt (value : Fin 7)
  | constLong (value : Fin 2)
  | constFloat (value : Fin 3)
  | constDouble (value : Fin 2)
  | pushByte (value : Int8)
  | pushShort (value : Int16)
  | loadConstant (index : PoolIndex)
  | loadWideConstant (index : PoolIndex)
  | load (kind : SlotKind) (slot : UInt16)
  | store (kind : SlotKind) (slot : UInt16)
  | arrayLoad (kind : ArrayKind)
  | arrayStore (kind : ArrayKind)
  | stack (op : StackOp)
  | arithmetic (op : ArithmeticOp) (kind : NumberKind)
  | negate (kind : NumberKind)
  | shift (op : ShiftOp) (ofLong : Bool)
  | bitwise (op : BitOp) (ofLong : Bool)
  | increment (slot : UInt16) (amount : Int16)
  | convert (conversion : Conversion)
  | compareLong
  | compareFloat (ofDouble : Bool) (mode : NanMode)
  | field (access : FieldAccess) (index : PoolIndex)
  | invoke (kind : InvokeKind) (index : PoolIndex)
  | invokeDynamic (index : PoolIndex)
  | new (index : PoolIndex)
  | newArray (element : BaseType)
  | newRefArray (index : PoolIndex)
  | newMultiArray (index : PoolIndex) (dimensions : UInt8)
  | arrayLength
  | checkCast (index : PoolIndex)
  | instanceOf (index : PoolIndex)
  | monitorEnter
  | monitorExit
  deriving DecidableEq, Repr

namespace PoolIndex

/-- How listings show an index of one kind of constant. -/
def textAs (index : PoolIndex) (kind : String) : String :=
  kind ++ "ConstantIndex(" ++ index.text ++ ")"

def classText (index : PoolIndex) : String := index.textAs "Class"
def fieldText (index : PoolIndex) : String := index.textAs "FieldRef"
def methodText (index : PoolIndex) : String := index.textAs "MethodRef"
def callSiteText (index : PoolIndex) : String := index.textAs "InvokeDynamic"

end PoolIndex

namespace Insn

def longLetter (ofLong : Bool) : String := if ofLong then "L" else "I"

/-- The instruction as listings show it. -/
def text : Insn → String
  | .nop => "Nop"
  | .constNull => "AConstNull"
  | .constInt value => "IConst" ++ if value.val = 0 then "M1" else toString (value.val - 1)
  | .constLong value => "LConst" ++ toString value.val
  | .constFloat value => "FConst" ++ toString value.val
  | .constDouble value => "DConst" ++ toString value.val
  | .pushByte value => "BiPush(" ++ toString value.toInt ++ ")"
  | .pushShort value => "SiPush(" ++ toString value.toInt ++ ")"
  | .loadConstant index => "Ldc(" ++ index.text ++ ")"
  | .loadWideConstant index => "Ldc2(" ++ index.text ++ ")"
  | .load kind slot => kind.letter ++ "Load(" ++ toString slot.toNat ++ ")"
  | .store kind slot => kind.letter ++ "Store(" ++ toString slot.toNat ++ ")"
  | .arrayLoad kind => kind.letter ++ "ALoad"
  | .arrayStore kind => kind.letter ++ "AStore"
  | .stack op => op.name
  | .arithmetic op kind => kind.letter ++ op.name
  | .negate kind => kind.letter ++ "Neg"
  | .shift op ofLong => longLetter ofLong ++ "Sh(" ++ op.name ++ ")"
  | .bitwise op ofLong => longLetter ofLong ++ op.name
  | .increment slot amount =>
    "IInc(" ++ toString slot.toNat ++ ", " ++ toString amount.toInt ++ ")"
  | .convert conversion => conversion.name
  | .compareLong => "LCmp"
  | .compareFloat ofDouble mode => (if ofDouble then "DCmp(" else "FCmp(") ++ mode.name ++ ")"
  | .field access index => access.name ++ "(" ++ index.fieldText ++ ")"
  | .invoke kind index => "Invoke(" ++ kind.text ++ ", " ++ index.methodText ++ ")"
  | .invokeDynamic index => "InvokeDynamic(" ++ index.callSiteText ++ ")"
  | .new index => "New(" ++ index.classText ++ ")"
  | .newArray element => "NewArray(" ++ element.name ++ ")"
  | .newRefArray index => "ANewArray(" ++ index.classText ++ ")"
  | .newMultiArray index dimensions =>
    "MultiANewArray(" ++ index.classText ++ ", " ++ toString dimensions.toNat ++ ")"
  | .arrayLength => "ArrayLength"
  | .checkCast index => "CheckCast(" ++ index.classText ++ ")"
  | .instanceOf index => "InstanceOf(" ++ index.classText ++ ")"
  | .monitorEnter => "MonitorEnter"
  | .monitorExit => "MonitorExit"

/-- Local slot that the instruction reads or writes, with the slots of the value there. -/
def localAccess? : Insn → Option (UInt16 × Nat)
  | .load kind slot | .store kind slot => some (slot, kind.width)
  | .increment slot _ => some (slot, 1)
  | _ => none

/-- Bytes the instruction takes. -/
def width : Insn → Nat
  | .load _ slot | .store _ slot => if slot ≤ 3 then 1 else if slot ≤ 255 then 2 else 4
  | .loadConstant index => if index.value ≤ 255 then 2 else 3
  | .increment slot amount => if slot ≤ 255 ∧ -128 ≤ amount ∧ amount ≤ 127 then 3 else 6
  | .pushByte _ | .newArray _ => 2
  | .pushShort _ | .loadWideConstant _ | .field _ _ | .new _ | .newRefArray _ | .checkCast _
  | .instanceOf _ => 3
  | .newMultiArray _ _ => 4
  | .invoke (.interface _) _ | .invokeDynamic _ => 5
  | .invoke _ _ => 3
  | _ => 1

/-- Access to a local slot: the opcode alone for the first four slots, and an extended form for
slots that do not fit a byte. -/
def slotBytes (short long : UInt8) (slot : UInt16) : Bytes :=
  if slot ≤ 3 then [short + slot.toUInt8]
  else if slot ≤ 255 then [long, slot.toUInt8]
  else 0xC4 :: long :: Bytes.u16 slot

def bytes : Insn → Bytes
  | .nop => [0x00]
  | .constNull => [0x01]
  | .constInt value => [0x02 + UInt8.ofNat value.val]
  | .constLong value => [0x09 + UInt8.ofNat value.val]
  | .constFloat value => [0x0B + UInt8.ofNat value.val]
  | .constDouble value => [0x0E + UInt8.ofNat value.val]
  | .pushByte value => 0x10 :: Bytes.i8 value
  | .pushShort value => 0x11 :: Bytes.i16 value
  | .loadConstant index =>
    if index.value ≤ 255 then [0x12, index.value.toUInt8] else 0x13 :: index.bytes
  | .loadWideConstant index => 0x14 :: index.bytes
  | .load kind slot => slotBytes (0x1A + 4 * kind.code) (0x15 + kind.code) slot
  | .arrayLoad kind => [0x2E + kind.code]
  | .store kind slot => slotBytes (0x3B + 4 * kind.code) (0x36 + kind.code) slot
  | .arrayStore kind => [0x4F + kind.code]
  | .stack op => [0x57 + op.code]
  | .arithmetic op kind => [0x60 + 4 * op.code + kind.code]
  | .negate kind => [0x74 + kind.code]
  | .shift op ofLong => [0x78 + 2 * op.code + ofLong.toUInt8]
  | .bitwise op ofLong => [0x7E + 2 * op.code + ofLong.toUInt8]
  | .increment slot amount =>
    if slot ≤ 255 ∧ -128 ≤ amount ∧ amount ≤ 127 then
      0x84 :: slot.toUInt8 :: Bytes.i8 amount.toInt8
    else 0xC4 :: 0x84 :: Bytes.u16 slot ++ Bytes.i16 amount
  | .convert conversion => [0x85 + conversion.code]
  | .compareLong => [0x94]
  | .compareFloat ofDouble mode => [0x95 + 2 * ofDouble.toUInt8 + mode.code]
  | .field access index => (0xB2 + access.code) :: index.bytes
  | .invoke .virtual index => 0xB6 :: index.bytes
  | .invoke .special index => 0xB7 :: index.bytes
  | .invoke .static index => 0xB8 :: index.bytes
  | .invoke (.interface slots) index => 0xB9 :: index.bytes ++ [slots, 0]
  | .invokeDynamic index => 0xBA :: index.bytes ++ [0, 0]
  | .new index => 0xBB :: index.bytes
  | .newArray element => [0xBC, element.arrayCode]
  | .newRefArray index => 0xBD :: index.bytes
  | .arrayLength => [0xBE]
  | .checkCast index => 0xC0 :: index.bytes
  | .instanceOf index => 0xC1 :: index.bytes
  | .monitorEnter => [0xC2]
  | .monitorExit => [0xC3]
  | .newMultiArray index dimensions => 0xC5 :: index.bytes ++ [dimensions]

end Insn

end ClassWeave
