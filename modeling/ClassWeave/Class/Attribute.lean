import ClassWeave.Error
import ClassWeave.Flags

/-!
Attributes. All are stored alike, as a name and bytes; a format tells how the bytes of one name are
read and written. The formats here are those of code, stack maps and debug tables.
-/

namespace ClassWeave

structure Attribute where
  name : PoolIndex
  content : Bytes
  deriving DecidableEq, Repr

namespace Attribute

def bytes (item : Attribute) : Bytes := item.name.bytes ++ Bytes.sized item.content

def read : Reader Attribute := do
  let name ← PoolIndex.read
  return ⟨name, ← Reader.sized⟩

end Attribute

/-- How the values of one kind of attribute are stored. -/
structure AttributeFormat (α : Type) where
  name : String
  read : Reader α
  bytes : α → Except FormatError Bytes

/-- The whole content of an attribute as a value. -/
def Attribute.parse {α : Type} (format : AttributeFormat α) (item : Attribute) :
    Except FormatError α :=
  match format.read item.content with
  | .ok (value, []) => .ok value
  | .ok (_, _) => .error (.leftover format.name)
  | .error problem => .error problem

/-- The first attribute of the given name, with its position. -/
def ConstantPool.findAttribute (pool : ConstantPool) (name : String) (attributes : List Attribute) :
    Option (Nat × Attribute) :=
  (attributes.zipIdx.find? fun (item, _) => (pool.utf8 item.name).toOption = some name).map
    fun (item, i) => (i, item)

/-- A value as an attribute, whose name is interned first. -/
def AttributeFormat.store {α : Type} (format : AttributeFormat α) (value : α) :
    Encoding Attribute := do
  let name ← ConstantPool.internUtf8 format.name
  let content ← (format.bytes value : Except FormatError Bytes)
  return ⟨name, content⟩

/-- Row of an exception table: a range of offsets, the handler, and the class it catches. -/
structure ExceptionEntry where
  start : UInt16
  stop : UInt16
  handler : UInt16
  catchType : Option PoolIndex
  deriving DecidableEq, Repr

namespace ExceptionEntry

def bytes (entry : ExceptionEntry) : Bytes :=
  Bytes.u16 entry.start ++ Bytes.u16 entry.stop ++ Bytes.u16 entry.handler
    ++ PoolIndex.bytes? entry.catchType

def read : Reader ExceptionEntry := do
  let start ← Reader.u16
  let stop ← Reader.u16
  let handler ← Reader.u16
  return ⟨start, stop, handler, ← PoolIndex.read?⟩

end ExceptionEntry

structure Code where
  maxStack : UInt16
  maxLocals : UInt16
  code : Bytes
  exceptions : List ExceptionEntry
  attributes : List Attribute
  deriving DecidableEq, Repr

namespace Code

def bytes (code : Code) : Bytes :=
  Bytes.u16 code.maxStack ++ Bytes.u16 code.maxLocals ++ Bytes.sized code.code
    ++ Bytes.list ExceptionEntry.bytes code.exceptions ++ Bytes.list Attribute.bytes code.attributes

def read : Reader Code := do
  let maxStack ← Reader.u16
  let maxLocals ← Reader.u16
  let code ← Reader.sized
  let exceptions ← Reader.list ExceptionEntry.read
  return ⟨maxStack, maxLocals, code, exceptions, ← Reader.list Attribute.read⟩

def format : AttributeFormat Code := ⟨"Code", read, fun code => .ok code.bytes⟩

end Code

def stackMapTable : AttributeFormat (List StackMapFrame) where
  name := "StackMapTable"
  read := Reader.list StackMapFrame.read
  bytes frames := do
    return Bytes.u16 (UInt16.ofNat frames.length) ++ (← frames.mapM StackMapFrame.bytes).flatten

structure LineNumber where
  start : UInt16
  line : UInt16
  deriving DecidableEq, Repr

namespace LineNumber

def bytes (entry : LineNumber) : Bytes := Bytes.u16 entry.start ++ Bytes.u16 entry.line

def read : Reader LineNumber := do
  let start ← Reader.u16
  return ⟨start, ← Reader.u16⟩

def table : AttributeFormat (List LineNumber) :=
  ⟨"LineNumberTable", Reader.list read, fun entries => .ok (Bytes.list bytes entries)⟩

end LineNumber

/-- Row of a table of variables, whose descriptor is a generic signature in the table of types. -/
structure LocalVariable where
  start : UInt16
  length : UInt16
  name : PoolIndex
  descriptor : PoolIndex
  slot : UInt16
  deriving DecidableEq, Repr

namespace LocalVariable

def bytes (entry : LocalVariable) : Bytes :=
  Bytes.u16 entry.start ++ Bytes.u16 entry.length ++ entry.name.bytes ++ entry.descriptor.bytes
    ++ Bytes.u16 entry.slot

def read : Reader LocalVariable := do
  let start ← Reader.u16
  let length ← Reader.u16
  let name ← PoolIndex.read
  let descriptor ← PoolIndex.read
  return ⟨start, length, name, descriptor, ← Reader.u16⟩

def table : AttributeFormat (List LocalVariable) :=
  ⟨"LocalVariableTable", Reader.list read, fun entries => .ok (Bytes.list bytes entries)⟩

def typeTable : AttributeFormat (List LocalVariable) :=
  ⟨"LocalVariableTypeTable", Reader.list read, fun entries => .ok (Bytes.list bytes entries)⟩

end LocalVariable

end ClassWeave
