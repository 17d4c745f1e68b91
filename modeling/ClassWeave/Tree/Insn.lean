import ClassWeave.Tree.Read

/-!
Reading instructions from trees. An operand in the pool is written as its index, or else as what it
refers to, which is then interned.
-/

namespace ClassWeave

/-- Steps that read a tree and intern constants; there is no result if the tree has a wrong form. -/
abbrev Assembling := OptionT Interning

namespace Assembling

def read (α : Type) [OfTree α] (tree : Tree) : Assembling α := OptionT.mk (pure (tree.as? α))

def intern (step : Interning PoolIndex) : Assembling PoolIndex := OptionT.lift step

/-- A constant, written by its kind and its content. -/
def constant (tree : Tree) : Assembling PoolIndex := do
  match tree with
  | .list [.text "utf8", text] => intern (ConstantPool.internUtf8 (← read _ text))
  | .list [.text "class", name] => intern (ConstantPool.internClass (← read _ name))
  | .list [.text "string", text] => intern (ConstantPool.internString (← read _ text))
  | .list [.text "integer", value] => intern (ConstantPool.internInteger (← read _ value))
  | .list [.text "long", value] => intern (ConstantPool.internLong (← read _ value))
  | .list [.text "nat", name, descriptor] =>
    intern (ConstantPool.internNameAndType (← read _ name) (← read _ descriptor))
  | .list [.text "field", owner, name, descriptor] =>
    intern (ConstantPool.internField (← read _ owner) (← read _ name) (← read _ descriptor))
  | .list [.text "method", owner, name, descriptor, ofInterface] =>
    intern (ConstantPool.internMethod (← read _ owner) (← read _ name) (← read _ descriptor)
      (← read _ ofInterface))
  | _ => failure

/-- An index as it is, or what a step makes of the tree. -/
def operand (step : Tree → Assembling PoolIndex) (tree : Tree) : Assembling PoolIndex :=
  match tree with
  | .number _ => read _ tree
  | _ => step tree

def utf8 : Tree → Assembling PoolIndex :=
  operand fun tree => do intern (ConstantPool.internUtf8 (← read _ tree))

def className : Tree → Assembling PoolIndex :=
  operand fun tree => do intern (ConstantPool.internClass (← read _ tree))

def field : Tree → Assembling PoolIndex :=
  operand fun tree => do
    let (owner, name, descriptor) ← read (String × String × String) tree
    intern (ConstantPool.internField owner name descriptor)

/-- A method belongs to an interface only if a fourth entry says so. -/
def method : Tree → Assembling PoolIndex :=
  operand fun tree => do
    match tree with
    | .list (owner :: name :: descriptor :: rest) =>
      let ofInterface ← read (Option Bool) (rest.headD .null)
      intern (ConstantPool.internMethod (← read _ owner) (← read _ name) (← read _ descriptor)
        (ofInterface.getD false))
    | _ => failure

def insn (tree : Tree) : Assembling Insn := do
  match tree with
  | .text name => OptionT.mk (pure (Insn.ofName? name))
  | .list [.text "BiPush", value] => return .pushByte (← read _ value)
  | .list [.text "SiPush", value] => return .pushShort (← read _ value)
  | .list [.text "IInc", slot, amount] => return .increment (← read _ slot) (← read _ amount)
  | .list [.text "ISh", op] => return .shift (← read _ op) false
  | .list [.text "LSh", op] => return .shift (← read _ op) true
  | .list [.text "FCmp", mode] => return .compareFloat false (← read _ mode)
  | .list [.text "DCmp", mode] => return .compareFloat true (← read _ mode)
  | .list [.text "NewArray", element] => return .newArray (← read _ element)
  | .list [.text "Ldc", index] => return .loadConstant (← operand constant index)
  | .list [.text "Ldc2", index] => return .loadWideConstant (← operand constant index)
  | .list [.text "Invoke", kind, index] =>
    let kind ← read _ kind
    return .invoke kind (← method index)
  | .list [.text "InvokeDynamic", index] => return .invokeDynamic (← read _ index)
  | .list [.text "New", index] => return .new (← className index)
  | .list [.text "ANewArray", index] => return .newRefArray (← className index)
  | .list [.text "CheckCast", index] => return .checkCast (← className index)
  | .list [.text "InstanceOf", index] => return .instanceOf (← className index)
  | .list [.text "MultiANewArray", index, dimensions] =>
    return .newMultiArray (← className index) (← read _ dimensions)
  | .list [.text name, operand] =>
    match FieldAccess.ofName? name with
    | some access => return .field access (← field operand)
    | none => OptionT.mk (pure ((operand.as? _).bind (Insn.ofSlot? name)))
  | _ => failure

end Assembling

end ClassWeave
