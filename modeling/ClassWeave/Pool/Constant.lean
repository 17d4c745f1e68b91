import ClassWeave.Format.ModifiedUtf8

/-!
Constants of a class file and their binary form. Floating-point constants are kept as bit patterns,
and a text whose bytes are not modified UTF-8 is kept as those bytes.
-/

namespace ClassWeave

/-- Position of a constant in the pool. -/
structure PoolIndex where
  value : UInt16
  deriving DecidableEq, Repr

namespace PoolIndex

def toNat (index : PoolIndex) : Nat := index.value.toNat
def bytes (index : PoolIndex) : Bytes := Bytes.u16 index.value
def read : Reader PoolIndex := return ⟨← Reader.u16⟩

/-- The index zero stands for no constant. -/
def bytes? : Option PoolIndex → Bytes
  | none => Bytes.u16 0
  | some index => index.bytes

def read? : Reader (Option PoolIndex) := do
  let index ← read
  return if index.value = 0 then none else some index

/-- How listings show an index. -/
def text (index : PoolIndex) : String := "ConstantIndex(" ++ toString index.toNat ++ ")"

end PoolIndex

inductive HandleKind where
  | getField | getStatic | putField | putStatic
  | invokeVirtual | invokeStatic | invokeSpecial | newInvokeSpecial | invokeInterface
  deriving DecidableEq, Repr

namespace HandleKind

def code : HandleKind → UInt8
  | .getField => 1
  | .getStatic => 2
  | .putField => 3
  | .putStatic => 4
  | .invokeVirtual => 5
  | .invokeStatic => 6
  | .invokeSpecial => 7
  | .newInvokeSpecial => 8
  | .invokeInterface => 9

def name : HandleKind → String
  | .getField => "GetField"
  | .getStatic => "GetStatic"
  | .putField => "PutField"
  | .putStatic => "PutStatic"
  | .invokeVirtual => "InvokeVirtual"
  | .invokeStatic => "InvokeStatic"
  | .invokeSpecial => "InvokeSpecial"
  | .newInvokeSpecial => "NewInvokeSpecial"
  | .invokeInterface => "InvokeInterface"

def read : Reader HandleKind := do
  match ← Reader.u8 with
  | 1 => return .getField
  | 2 => return .getStatic
  | 3 => return .putField
  | 4 => return .putStatic
  | 5 => return .invokeVirtual
  | 6 => return .invokeStatic
  | 7 => return .invokeSpecial
  | 8 => return .newInvokeSpecial
  | 9 => return .invokeInterface
  | code => throw (.handleKind code)

end HandleKind

/-- Entry of a constant pool. Method references of classes and of interfaces differ in a flag; the
member of a reference is the index of its name and type. -/
inductive Constant where
  | utf8 (text : String)
  | undecodedUtf8 (content : Bytes)
  | integer (value : Int32)
  | float (bits : UInt32)
  | long (value : Int64)
  | double (bits : UInt64)
  | classRef (name : PoolIndex)
  | string (text : PoolIndex)
  | fieldRef (owner member : PoolIndex)
  | methodRef (owner member : PoolIndex) (ofInterface : Bool)
  | nameAndType (name descriptor : PoolIndex)
  | methodHandle (kind : HandleKind) (member : PoolIndex)
  | methodType (descriptor : PoolIndex)
  | dynamic (bootstrap : UInt16) (member : PoolIndex)
  | invokeDynamic (bootstrap : UInt16) (member : PoolIndex)
  | moduleRef (name : PoolIndex)
  | packageRef (name : PoolIndex)
  deriving DecidableEq, Repr

namespace Constant

def isWide : Constant → Bool
  | .long _ | .double _ => true
  | _ => false

/-- Slots of the pool that the constant takes. -/
def width (constant : Constant) : Nat := if constant.isWide then 2 else 1

/-- What the constant puts into the pool: itself, and an empty slot after it if it is wide. -/
def slots (constant : Constant) : List (Option Constant) :=
  if constant.isWide then [some constant, none] else [some constant]

/-- Texts carry their length modulo `2 ^ 16`. -/
def textBytes (content : Bytes) : Bytes :=
  Bytes.u16 (UInt16.ofNat content.length) ++ content

def bytes : Constant → Bytes
  | .utf8 text => 1 :: textBytes (ModifiedUtf8.encode text.toList)
  | .undecodedUtf8 content => 1 :: textBytes content
  | .integer value => 3 :: Bytes.i32 value
  | .float bits => 4 :: Bytes.u32 bits
  | .long value => 5 :: Bytes.i64 value
  | .double bits => 6 :: Bytes.u64 bits
  | .classRef name => 7 :: name.bytes
  | .string text => 8 :: text.bytes
  | .fieldRef owner member => 9 :: owner.bytes ++ member.bytes
  | .methodRef owner member ofInterface =>
    (if ofInterface then 11 else 10) :: owner.bytes ++ member.bytes
  | .nameAndType name descriptor => 12 :: name.bytes ++ descriptor.bytes
  | .methodHandle kind member => 15 :: kind.code :: member.bytes
  | .methodType descriptor => 16 :: descriptor.bytes
  | .dynamic bootstrap member => 17 :: Bytes.u16 bootstrap ++ member.bytes
  | .invokeDynamic bootstrap member => 18 :: Bytes.u16 bootstrap ++ member.bytes
  | .moduleRef name => 19 :: name.bytes
  | .packageRef name => 20 :: name.bytes

def ofTextBytes (content : Bytes) : Constant :=
  match ModifiedUtf8.decode content with
  | some text => .utf8 (String.ofList text)
  | none => .undecodedUtf8 content

def read : Reader Constant := do
  match ← Reader.u8 with
  | 1 =>
    let length ← Reader.u16
    return ofTextBytes (← Reader.bytes length.toNat)
  | 3 => return .integer (← Reader.i32)
  | 4 => return .float (← Reader.u32)
  | 5 => return .long (← Reader.i64)
  | 6 => return .double (← Reader.u64)
  | 7 => return .classRef (← PoolIndex.read)
  | 8 => return .string (← PoolIndex.read)
  | 9 => return .fieldRef (← PoolIndex.read) (← PoolIndex.read)
  | 10 => return .methodRef (← PoolIndex.read) (← PoolIndex.read) false
  | 11 => return .methodRef (← PoolIndex.read) (← PoolIndex.read) true
  | 12 => return .nameAndType (← PoolIndex.read) (← PoolIndex.read)
  | 15 => return .methodHandle (← HandleKind.read) (← PoolIndex.read)
  | 16 => return .methodType (← PoolIndex.read)
  | 17 => return .dynamic (← Reader.u16) (← PoolIndex.read)
  | 18 => return .invokeDynamic (← Reader.u16) (← PoolIndex.read)
  | 19 => return .moduleRef (← PoolIndex.read)
  | 20 => return .packageRef (← PoolIndex.read)
  | tag => throw (.constantTag tag)

/-- Number of the bucket that an index files the constant under. -/
def bucket (constant : Constant) : Nat :=
  let mix (tag a b : Nat) : Nat := (tag + 32 * (a + 31 * b)) % 0x40000
  match constant with
  | .utf8 text => text.toList.foldl (fun h c => (h * 31 + c.toNat) % 0x40000) 1
  | .undecodedUtf8 content => content.foldl (fun h b => (h * 31 + b.toNat) % 0x40000) 2
  | .integer value => mix 3 value.toUInt32.toNat 0
  | .float bits => mix 4 bits.toNat 0
  | .long value => mix 5 value.toUInt64.toNat 0
  | .double bits => mix 6 bits.toNat 0
  | .classRef name => mix 7 name.toNat 0
  | .string text => mix 8 text.toNat 0
  | .fieldRef owner member => mix 9 owner.toNat member.toNat
  | .methodRef owner member ofInterface =>
    mix (10 + ofInterface.toNat) owner.toNat member.toNat
  | .nameAndType name descriptor => mix 12 name.toNat descriptor.toNat
  | .methodHandle kind member => mix 15 kind.code.toNat member.toNat
  | .methodType descriptor => mix 16 descriptor.toNat 0
  | .dynamic bootstrap member => mix 17 bootstrap.toNat member.toNat
  | .invokeDynamic bootstrap member => mix 18 bootstrap.toNat member.toNat
  | .moduleRef name => mix 19 name.toNat 0
  | .packageRef name => mix 20 name.toNat 0

end Constant

end ClassWeave
