import ClassWeave.Class.Attribute

/-!
Class files. Reading one and writing it again changes nothing but flag bits without a meaning, and
an edit leaves everything in place that it is not about.
-/

namespace ClassWeave

/-- A declared field or method. -/
structure Member (kind : FlagKind) where
  flags : Flags kind
  name : PoolIndex
  descriptor : PoolIndex
  attributes : List Attribute
  deriving DecidableEq

abbrev Field := Member .ofField
abbrev Method := Member .ofMethod

namespace Member

def bytes {kind : FlagKind} (declared : Member kind) : Bytes :=
  declared.flags.bytes ++ declared.name.bytes ++ declared.descriptor.bytes
    ++ Bytes.list Attribute.bytes declared.attributes

def read (kind : FlagKind) : Reader (Member kind) := do
  let flags ← Flags.read kind
  let name ← PoolIndex.read
  let descriptor ← PoolIndex.read
  return ⟨flags, name, descriptor, ← Reader.list Attribute.read⟩

end Member

/-- Only the root of all classes has no superclass. -/
structure ClassFile where
  version : Version
  pool : ConstantPool
  flags : ClassFlags
  thisClass : PoolIndex
  superClass : Option PoolIndex
  interfaces : List PoolIndex
  fields : List Field
  methods : List Method
  attributes : List Attribute

namespace ClassFile

/-- Number that every class file starts with. -/
def magic : UInt32 := 0xCAFEBABE

/-- A class without members. -/
def new (thisClass : String) (superClass : Option String) (flags : ClassFlags) (version : Version) :
    Except PoolError ClassFile :=
  let names : Interning (PoolIndex × Option PoolIndex) := do
    let thisClass ← ConstantPool.internClass thisClass
    return (thisClass, ← superClass.mapM ConstantPool.internClass)
  match names .empty with
  | .ok (thisClass, superClass) pool =>
    .ok ⟨version, pool, flags, thisClass, superClass, [], [], [], []⟩
  | .error problem _ => .error problem

/-- The fields behind the magic number. -/
def read : Reader ClassFile := do
  let version ← Version.read
  let pool ← ConstantPool.read
  let flags ← Flags.read .ofClass
  let thisClass ← PoolIndex.read
  let superClass ← PoolIndex.read?
  let interfaces ← Reader.list PoolIndex.read
  let fields ← Reader.list (Member.read .ofField)
  let methods ← Reader.list (Member.read .ofMethod)
  let attributes ← Reader.list Attribute.read
  return ⟨version, pool, flags, thisClass, superClass, interfaces, fields, methods, attributes⟩

def parse (input : Bytes) : Except ClassError ClassFile := do
  let (found, rest) ← (Reader.u32 input : Except FormatError (UInt32 × Bytes))
  if found ≠ magic then throw (.badMagic found)
  let (file, rest) ← (read rest : Except FormatError (ClassFile × Bytes))
  if rest.isEmpty then return file else throw (.trailingBytes rest.length)

def bytes (file : ClassFile) : Bytes :=
  Bytes.u32 magic ++ file.version.bytes ++ file.pool.bytes ++ file.flags.bytes
    ++ file.thisClass.bytes ++ PoolIndex.bytes? file.superClass
    ++ Bytes.list PoolIndex.bytes file.interfaces ++ Bytes.list Member.bytes file.fields
    ++ Bytes.list Member.bytes file.methods ++ Bytes.list Attribute.bytes file.attributes

def name (file : ClassFile) : Except PoolError String := file.pool.className file.thisClass

def superName (file : ClassFile) : Except PoolError (Option String) :=
  file.superClass.mapM file.pool.className

/-- Runs a step on the pool of a class. -/
def withPool {α ε : Type} (file : ClassFile) (step : EStateM ε ConstantPool α) :
    EStateM.Result ε ClassFile α :=
  match step file.pool with
  | .ok value pool => .ok value { file with pool }
  | .error problem pool => .error problem { file with pool }

/-- Steps that edit a class, and keep what they interned when they fail. -/
abbrev Editing := EStateM ClassError ClassFile

def interning {α : Type} (step : Encoding α) : Editing α := fun file => file.withPool step

def addField (flags : FieldFlags) (name descriptor : String) : Editing Unit := do
  let name ← interning (ConstantPool.internUtf8 name)
  let descriptor ← interning (ConstantPool.internUtf8 descriptor)
  let field : Field := ⟨flags, name, descriptor, []⟩
  modify fun file => { file with fields := file.fields ++ [field] }

/-- Gives the position of the new method. -/
def addMethod (flags : MethodFlags) (name descriptor : String) (code : Option Code) :
    Editing Nat := do
  let name ← interning (ConstantPool.internUtf8 name)
  let descriptor ← interning (ConstantPool.internUtf8 descriptor)
  let stored ← code.mapM fun code => interning (Code.format.store code)
  let method : Method := ⟨flags, name, descriptor, stored.toList⟩
  let file ← get
  set { file with methods := file.methods ++ [method] }
  return file.methods.length

def method (file : ClassFile) (position : Nat) : Except FormatError Method :=
  match file.methods[position]? with
  | some method => .ok method
  | none => .error (.noMethod position)

/-- The code of a method, if it has any. -/
def methodCode (file : ClassFile) (position : Nat) : Except FormatError (Option Code) := do
  let method ← file.method position
  match file.pool.findAttribute Code.format.name method.attributes with
  | none => return none
  | some (_, item) => some <$> item.parse Code.format

/-- Puts code in the place of the old code, or behind the other attributes if there is none. -/
def setMethodCode (position : Nat) (code : Code) : Editing Unit := do
  let stored ← interning (Code.format.store code)
  let file ← get
  match file.method position with
  | .error problem => throw (.format problem)
  | .ok method =>
    let attributes := match file.pool.findAttribute Code.format.name method.attributes with
      | some (i, _) => method.attributes.set i stored
      | none => method.attributes ++ [stored]
    set { file with methods := file.methods.set position { method with attributes } }

end ClassFile

end ClassWeave
