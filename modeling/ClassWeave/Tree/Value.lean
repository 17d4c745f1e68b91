import ClassWeave.Class.File
import ClassWeave.Code.Builder
import ClassWeave.Tree.Basic

/-!
Values of class files and of code as trees.
-/

namespace ClassWeave

open ClassWeave.Tree (each ofBytes ofText)

instance : ToTree PoolIndex := ⟨fun index => index.value⟩
instance : ToTree Label := ⟨fun label => label.number⟩
instance {kind : FlagKind} : ToTree (Flags kind) := ⟨fun flags => flags.bits⟩
instance : ToTree EditType := ⟨fun type => EditType.text type⟩
instance : ToTree StoredType := ⟨fun type => StoredType.text type⟩
instance : ToTree Version := ⟨fun version => .list [version.major, version.minor]⟩

instance : ToTree Constant where
  toTree
    | .utf8 text => .list ["Utf8", ofText text]
    | .undecodedUtf8 content => .list ["UndecodedUtf8", ofBytes content]
    | .integer value => .list ["Integer", value]
    | .float bits => .list ["Float", Text.hex (Bytes.u32 bits)]
    | .long value => .list ["Long", value]
    | .double bits => .list ["Double", Text.hex (Bytes.u64 bits)]
    | .classRef name => .list ["Class", name]
    | .string text => .list ["String", text]
    | .fieldRef owner member => .list ["FieldRef", owner, member]
    | .methodRef owner member ofInterface =>
      .list [if ofInterface then "InterfaceMethodRef" else "MethodRef", owner, member]
    | .nameAndType name descriptor => .list ["NameAndType", name, descriptor]
    | .methodHandle kind member => .list ["MethodHandle", kind.name, member]
    | .methodType descriptor => .list ["MethodType", descriptor]
    | .dynamic bootstrap member => .list ["Dynamic", bootstrap, member]
    | .invokeDynamic bootstrap member => .list ["InvokeDynamic", bootstrap, member]
    | .moduleRef name => .list ["Module", name]
    | .packageRef name => .list ["Package", name]

/-- A pool with more than 100 slots is shown by its bytes. -/
instance : ToTree ConstantPool where
  toTree pool :=
    if 100 < pool.size then .record [("len", pool.size), ("bytes", ofBytes pool.bytes)]
    else .list (pool.entries.map fun (index, constant) => .list [index, constant])

namespace Tree

def ofEditTypes (types : List EditType) : Tree := Tree.runs (types.map EditType.text)

def ofStoredTypes (types : List StoredType) : Tree := Tree.runs (types.map StoredType.text)

def ofNodes (nodes : List Node) : Tree := runs (nodes.map Node.text)

def ofFrames (frames : FrameTable) : Tree :=
  .list (frames.map fun (label, frame) =>
    .list [label, .record [("locals", Tree.ofEditTypes frame.locals),
      ("stack", Tree.ofEditTypes frame.stack.reverse)]])

end Tree

/-- The stack is shown from its bottom. -/
instance : ToTree EditFrame where
  toTree frame :=
    .record
      [("locals", Tree.ofEditTypes frame.locals),
        ("stack", Tree.ofEditTypes frame.stack.reverse)]

instance : ToTree StoredFrame where
  toTree frame :=
    .record
      [("locals", Tree.ofStoredTypes frame.locals),
        ("stack", Tree.ofStoredTypes frame.stack.reverse)]

instance : ToTree StackMapFrame where
  toTree
    | .same delta => .list ["Same", delta]
    | .sameOne delta type => .list ["SameOne", delta, type]
    | .chop delta count => .list ["Chop", delta, count]
    | .append delta locals => .list ["Append", delta, Tree.ofStoredTypes locals]
    | .full delta locals stack =>
      .list ["Full", delta, Tree.ofStoredTypes locals, Tree.ofStoredTypes stack]

instance : ToTree Envelope := ⟨fun envelope => .list [envelope.maxStack, envelope.maxLocals]⟩

instance : ToTree Handler where
  toTree handler := .list [handler.start, handler.stop, handler.handler, handler.catchType]

instance : ToTree LineEntry := ⟨fun entry => .list [entry.start, entry.line]⟩

instance : ToTree LocalEntry where
  toTree entry := .list [entry.start, entry.stop, entry.name, entry.descriptor, entry.slot]

instance : ToTree MethodBody where
  toTree body := .record
    [("nodes", Tree.ofNodes body.nodes), ("envelope", body.envelope),
      ("handlers", each body.handlers), ("frames", Tree.ofFrames body.frames),
      ("lines", each body.lines), ("locals", each body.locals),
      ("local_types", each body.localTypes), ("labels", body.labels.allocated)]

instance : ToTree Fragment where
  toTree fragment := .record
    [("nodes", Tree.ofNodes fragment.nodes), ("frames", Tree.ofFrames fragment.frames),
      ("handlers", each fragment.handlers), ("exit", fragment.exit), ("max", fragment.envelope)]

instance : ToTree ExceptionEntry where
  toTree entry := .list [entry.start, entry.stop, entry.handler, entry.catchType]

instance : ToTree Attribute := ⟨fun item => .list [item.name, ofBytes item.content]⟩

instance : ToTree Code where
  toTree code := .record
    [("max_stack", code.maxStack), ("max_locals", code.maxLocals), ("code", ofBytes code.code),
      ("exceptions", each code.exceptions), ("attributes", each code.attributes)]

instance : ToTree LineNumber := ⟨fun entry => .list [entry.start, entry.line]⟩

instance : ToTree LocalVariable where
  toTree entry := .list [entry.start, entry.length, entry.name, entry.descriptor, entry.slot]

instance : ToTree ElementType where
  toTree
    | .base type => type.name
    | .object name => .record [("object", name.text)]

instance : ToTree FieldType where
  toTree
    | .base type => type.name
    | .ref (.object name) => .record [("object", name.text)]
    | .ref (.array more element) =>
      .record [("dimensions", toTree (more.val + 1)), ("element", element)]

instance : ToTree RefType where
  toTree type := .record
    [("render", type.render), ("class_name", type.className), ("type", FieldType.ref type),
      ("element", type.elementType?.map FieldType.render),
      ("array_of", (RefType.arrayOf (.ref type)).render)]

instance : ToTree ConstantPool.MemberRef where
  toTree member := .list [member.owner, member.name, member.descriptor, member.ofInterface]

end ClassWeave
