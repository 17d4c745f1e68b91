import ClassWeave.Code.Branch
import ClassWeave.Error

/-!
Reading the bytes of a code array as instructions. Jumps are written relative to the instruction
they stand in and read as absolute offsets, which have to lie inside the code.
-/

namespace ClassWeave

/-- Bytes of code still to be read, and their offset. -/
structure Cursor where
  offset : Nat
  ahead : Bytes

abbrev CodeReader := StateT Cursor (Except ClassError)

/-- An instruction as it stands in a code array, with offsets for targets. -/
inductive Decoded where
  | insn (insn : Insn)
  | branch (branch : Branch Nat)
  deriving DecidableEq, Repr

/-- Zeros between the opcode of a switch at an offset and its operands. -/
def switchPadding (offset : Nat) : Nat := (4 - (offset + 1) % 4) % 4

/-- The instruction being read: where it starts, and the length of the code around it. -/
structure Site where
  start : Nat
  length : Nat

namespace Site

variable (site : Site)

def fail {α : Type} (fault : CodeFault) : CodeReader α := throw (.malformedCode site.start fault)

def take (count : Nat) : CodeReader Bytes := fun cursor =>
  let (taken, rest) := cursor.ahead.splitAt count
  if taken.length = count then .ok (taken, ⟨cursor.offset + count, rest⟩)
  else .error (.malformedCode site.start .truncated)

def nat (width : Nat) : CodeReader Nat :=
  return (← site.take width).foldl (fun n b => n * 256 + b.toNat) 0

def u8 : CodeReader UInt8 := return UInt8.ofNat (← site.nat 1)
def u16 : CodeReader UInt16 := return UInt16.ofNat (← site.nat 2)
def i8 : CodeReader Int8 := return (← site.u8).toInt8
def i16 : CodeReader Int16 := return (← site.u16).toInt16
def i32 : CodeReader Int32 := return (UInt32.ofNat (← site.nat 4)).toInt32
def index : CodeReader PoolIndex := return ⟨← site.u16⟩

/-- Offset that a relative jump leads to. -/
def target (relative : Int) : CodeReader Nat :=
  let target := site.start + relative
  if 0 ≤ target ∧ target < site.length then pure target.toNat else site.fail (.jumpOutside target)

def target16 : CodeReader Nat := do site.target (← site.i16).toInt
def target32 : CodeReader Nat := do site.target (← site.i32).toInt

/-- What `count` runs of a reader give, put behind what was read before in reverse. -/
def repeatOnto {α : Type} (item : CodeReader α) :
    Nat → List α → Cursor → Except ClassError (List α × Cursor)
  | 0, found, cursor => .ok (found.reverse, cursor)
  | count + 1, found, cursor =>
    match item cursor with
    | .ok (value, cursor) => repeatOnto item count (value :: found) cursor
    | .error problem => .error problem

def tableSwitch : CodeReader (Branch Nat) := do
  discard (site.take (switchPadding site.start))
  let default ← site.target32
  let low ← site.i32
  let high ← site.i32
  if high < low then site.fail (.emptyTable low high)
  let count := (high.toInt - low.toInt + 1).toNat
  return .tableSwitch default low (← repeatOnto site.target32 count [])

def lookupSwitch : CodeReader (Branch Nat) := do
  discard (site.take (switchPadding site.start))
  let default ← site.target32
  let count ← site.i32
  if count < 0 then site.fail (.negativePairs count)
  let pair : CodeReader (Int32 × Nat) := do
    let key ← site.i32
    return (key, ← site.target32)
  return .lookupSwitch default (← repeatOnto pair count.toInt.toNat [])

def newArray : CodeReader Insn := do
  let code ← site.u8
  match BaseType.ofArrayCode? code with
  | some element => return .newArray element
  | none => site.fail (.arrayType code)

/-- The instruction whose operands an extension widens. -/
def widened : CodeReader Insn := do
  let opcode ← site.u8
  let op := opcode.toNat
  if 0x15 ≤ op ∧ op ≤ 0x19 then return .load (.ofCode (op - 0x15)) (← site.u16)
  else if 0x36 ≤ op ∧ op ≤ 0x3A then return .store (.ofCode (op - 0x36)) (← site.u16)
  else if op = 0x84 then return .increment (← site.u16) (← site.i16)
  else if op = 0xA9 then throw (.unsupportedOpcode opcode site.start)
  else site.fail (.notWidened opcode)

/-- Operands of the instructions with opcodes up to that of the last comparison. -/
def valueInsn (op : Nat) : CodeReader Insn := do
  if op = 0x00 then return .nop
  else if op = 0x01 then return .constNull
  else if op ≤ 0x08 then return .constInt (Fin.ofNat 7 (op - 0x02))
  else if op ≤ 0x0A then return .constLong (Fin.ofNat 2 (op - 0x09))
  else if op ≤ 0x0D then return .constFloat (Fin.ofNat 3 (op - 0x0B))
  else if op ≤ 0x0F then return .constDouble (Fin.ofNat 2 (op - 0x0E))
  else if op = 0x10 then return .pushByte (← site.i8)
  else if op = 0x11 then return .pushShort (← site.i16)
  else if op = 0x12 then return .loadConstant ⟨(← site.u8).toUInt16⟩
  else if op = 0x13 then return .loadConstant (← site.index)
  else if op = 0x14 then return .loadWideConstant (← site.index)
  else if op ≤ 0x19 then return .load (.ofCode (op - 0x15)) (← site.u8).toUInt16
  else if op ≤ 0x2D then
    return .load (.ofCode ((op - 0x1A) / 4)) (UInt16.ofNat ((op - 0x1A) % 4))
  else if op ≤ 0x35 then return .arrayLoad (.ofCode (op - 0x2E))
  else if op ≤ 0x3A then return .store (.ofCode (op - 0x36)) (← site.u8).toUInt16
  else if op ≤ 0x4E then
    return .store (.ofCode ((op - 0x3B) / 4)) (UInt16.ofNat ((op - 0x3B) % 4))
  else if op ≤ 0x56 then return .arrayStore (.ofCode (op - 0x4F))
  else if op ≤ 0x5F then return .stack (.ofCode (op - 0x57))
  else if op ≤ 0x73 then
    return .arithmetic (.ofCode ((op - 0x60) / 4)) (.ofCode ((op - 0x60) % 4))
  else if op ≤ 0x77 then return .negate (.ofCode (op - 0x74))
  else if op ≤ 0x7D then return .shift (.ofCode ((op - 0x78) / 2)) ((op - 0x78) % 2 = 1)
  else if op ≤ 0x83 then return .bitwise (.ofCode ((op - 0x7E) / 2)) ((op - 0x7E) % 2 = 1)
  else if op = 0x84 then
    let slot ← site.u8
    let amount ← site.i8
    return .increment slot.toUInt16 amount.toInt16
  else if op ≤ 0x93 then return .convert (.ofCode (op - 0x85))
  else if op = 0x94 then return .compareLong
  else return .compareFloat ((op - 0x95) / 2 = 1) (.ofCode ((op - 0x95) % 2))

/-- Operands of the instructions on members and objects. -/
def objectInsn (op : Nat) : CodeReader Insn := do
  if op ≤ 0xB5 then return .field (.ofCode (op - 0xB2)) (← site.index)
  else if op = 0xB6 then return .invoke .virtual (← site.index)
  else if op = 0xB7 then return .invoke .special (← site.index)
  else if op = 0xB8 then return .invoke .static (← site.index)
  else if op = 0xB9 then
    let index ← site.index
    let slots ← site.u8
    discard site.u8
    return .invoke (.interface slots) index
  else if op = 0xBA then
    let index ← site.index
    discard site.u16
    return .invokeDynamic index
  else if op = 0xBB then return .new (← site.index)
  else if op = 0xBC then site.newArray
  else if op = 0xBD then return .newRefArray (← site.index)
  else if op = 0xBE then return .arrayLength
  else if op = 0xC0 then return .checkCast (← site.index)
  else if op = 0xC1 then return .instanceOf (← site.index)
  else if op = 0xC2 then return .monitorEnter
  else if op = 0xC3 then return .monitorExit
  else if op = 0xC4 then site.widened
  else
    let index ← site.index
    return .newMultiArray index (← site.u8)

/-- Operands of the jumps and returns, which have most opcodes between the comparisons and the field
accesses. -/
def branch (opcode : UInt8) : CodeReader (Branch Nat) := do
  let op := opcode.toNat
  if 0x99 ≤ op ∧ op ≤ 0x9E then return .ifZero (.ofCode (op - 0x99)) (← site.target16)
  else if 0x9F ≤ op ∧ op ≤ 0xA4 then return .ifInts (.ofCode (op - 0x9F)) (← site.target16)
  else if op = 0xA5 ∨ op = 0xA6 then return .ifRefs (.ofCode (op - 0xA5)) (← site.target16)
  else if op = 0xA7 then return .goto (← site.target16)
  else if op = 0xAA then site.tableSwitch
  else if op = 0xAB then site.lookupSwitch
  else if 0xAC ≤ op ∧ op ≤ 0xB0 then return .return (some (.ofCode (op - 0xAC)))
  else if op = 0xB1 then return .return none
  else if op = 0xBF then return .raise
  else if op = 0xC6 ∨ op = 0xC7 then return .ifNull (.ofCode (op - 0xC6)) (← site.target16)
  else if op = 0xC8 then return .goto (← site.target32)
  else throw (.unsupportedOpcode opcode site.start)

def decoded : CodeReader Decoded := do
  let opcode ← site.u8
  let op := opcode.toNat
  if op ≤ 0x98 then return .insn (← site.valueInsn op)
  else if 0xB2 ≤ op ∧ op ≤ 0xC5 ∧ op ≠ 0xBF then return .insn (← site.objectInsn op)
  else return .branch (← site.branch opcode)

end Site

/-- Instruction at an offset of a code array, with the offset of the next. -/
def Decoded.read (code : Bytes) (offset : Nat) : Except ClassError (Decoded × Nat) := do
  let (decoded, cursor) ← (Site.mk offset code.length).decoded ⟨offset, code.drop offset⟩
  return (decoded, cursor.offset)

/-- Instructions up to the end of the code, each with its offset, put behind those read before in
reverse; `fuel` bounds their number. -/
def Decoded.readOnto (length : Nat) :
    (fuel : Nat) → List (Nat × Decoded) → Cursor → Except ClassError (List (Nat × Decoded))
  | 0, found, _ => .ok found.reverse
  | fuel + 1, found, cursor =>
    match cursor.ahead with
    | [] => .ok found.reverse
    | _ =>
      match (Site.mk cursor.offset length).decoded cursor with
      | .ok (decoded, next) => readOnto length fuel ((cursor.offset, decoded) :: found) next
      | .error problem => .error problem

/-- All instructions of a code array; each takes a byte at least. -/
def Decoded.readAll (code : Bytes) : Except ClassError (List (Nat × Decoded)) :=
  readOnto code.length code.length [] ⟨0, code⟩

end ClassWeave
