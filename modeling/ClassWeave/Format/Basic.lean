/-!
Binary fields: big-endian numbers, counted lists and sized byte strings. Each kind of value has a
reader, which takes it off the front of the bytes, and a function that gives its bytes.
-/

namespace ClassWeave

abbrev Bytes := List UInt8

/-- Why bytes are not what they should be, or a value has none. -/
inductive FormatError where
  | unexpectedEnd
  | emptyPool
  | poolOverrun
  | constantTag (tag : UInt8)
  | handleKind (code : UInt8)
  | typeTag (tag : UInt8)
  | frameTag (tag : UInt8)
  | chopCount (count : UInt8)
  | appendCount (count : Nat)
  | leftover (name : String)
  | noMethod (index : Nat)
  deriving DecidableEq, Repr

def FormatError.message : FormatError → String
  | .unexpectedEnd => "failed to fill whole buffer"
  | .emptyPool => "constant pool count must be at least 1"
  | .poolOverrun => "8-byte constant overruns the constant pool"
  | .constantTag tag => "Invalid constant pool tag " ++ toString tag.toNat
  | .handleKind code => "Invalid method handle kind " ++ toString code.toNat
  | .typeTag tag => "Invalid verification type tag " ++ toString tag.toNat
  | .frameTag tag => "Reserved stack map frame type " ++ toString tag.toNat
  | .chopCount count => "Chop frame cannot remove " ++ toString count.toNat ++ " locals"
  | .appendCount count => "Append frame cannot add " ++ toString count ++ " locals"
  | .leftover name => "Leftover bytes at the end of the `" ++ name ++ "` attribute"
  | .noMethod index => "No method at index " ++ toString index

abbrev Reader (α : Type) := StateT Bytes (Except FormatError) α

namespace Reader

/-- Exactly the next `count` bytes. -/
def bytes (count : Nat) : Reader Bytes := fun input =>
  let (taken, rest) := input.splitAt count
  if taken.length = count then .ok (taken, rest) else .error .unexpectedEnd

/-- Number in the next `width` bytes, most significant first. -/
def nat (width : Nat) : Reader Nat := fun input =>
  match bytes width input with
  | .ok (taken, rest) => .ok (taken.foldl (fun n b => n * 256 + b.toNat) 0, rest)
  | .error problem => .error problem

def u8 : Reader UInt8
  | [] => .error .unexpectedEnd
  | b :: rest => .ok (b, rest)

def u16 : Reader UInt16 := return UInt16.ofNat (← nat 2)
def u32 : Reader UInt32 := return UInt32.ofNat (← nat 4)
def u64 : Reader UInt64 := return UInt64.ofNat (← nat 8)
def i8 : Reader Int8 := return (← u8).toInt8
def i16 : Reader Int16 := return (← u16).toInt16
def i32 : Reader Int32 := return (← u32).toInt32
def i64 : Reader Int64 := return (← u64).toInt64

/-- The values that `count` runs of a reader give, put behind those read before in reverse. -/
def repeatOnto {α : Type} (item : Reader α) : Nat → List α → Reader (List α)
  | 0, found, input => .ok (found.reverse, input)
  | count + 1, found, input =>
    match item input with
    | .ok (value, rest) => repeatOnto item count (value :: found) rest
    | .error problem => .error problem

/-- A list led by its length in two bytes. -/
def list {α : Type} (item : Reader α) : Reader (List α) := do
  let count ← u16
  repeatOnto item count.toNat []

/-- Bytes led by their number in four bytes. -/
def sized : Reader Bytes := do
  let count ← u32
  bytes count.toNat

end Reader

namespace Bytes

/-- The lowest `width` bytes of a number, most significant first. -/
def ofNat : (width : Nat) → Nat → Bytes
  | 0, _ => []
  | width + 1, n => UInt8.ofNat (n / 256 ^ width) :: ofNat width n

def u8 (n : UInt8) : Bytes := [n]
def u16 (n : UInt16) : Bytes := ofNat 2 n.toNat
def u32 (n : UInt32) : Bytes := ofNat 4 n.toNat
def u64 (n : UInt64) : Bytes := ofNat 8 n.toNat
def i8 (n : Int8) : Bytes := u8 n.toUInt8
def i16 (n : Int16) : Bytes := u16 n.toUInt16
def i32 (n : Int32) : Bytes := u32 n.toUInt32
def i64 (n : Int64) : Bytes := u64 n.toUInt64

/-- The length is written modulo `2 ^ 16`. -/
def list {α : Type} (item : α → Bytes) (values : List α) : Bytes :=
  u16 (UInt16.ofNat values.length) ++ values.flatMap item

/-- The number of bytes is written modulo `2 ^ 32`. -/
def sized (content : Bytes) : Bytes :=
  u32 (UInt32.ofNat content.length) ++ content

end Bytes

end ClassWeave
