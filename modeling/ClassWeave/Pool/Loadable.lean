import ClassWeave.Error

/-!
Constants that code can load onto the stack.
-/

namespace ClassWeave.ConstantPool

/-- Type of the value that loading the constant pushes. -/
def loadableType (pool : ConstantPool) (index : PoolIndex) : Except ClassError FieldType := do
  match ← pool.get index with
  | .integer _ => return .int
  | .float _ => return .float
  | .long _ => return .long
  | .double _ => return .double
  | .string _ => return .object .string
  | .classRef _ => return .object .classType
  | .methodType _ => return .object .methodType
  | .methodHandle _ _ => return .object .methodHandle
  | .dynamic _ member =>
    let (_, descriptor) ← pool.nameAndType member
    match FieldType.parse descriptor with
    | .ok type => return type
    | .error _ => throw (.badDescriptor descriptor)
  | _ => throw (.pool (.unexpected index .loadable))

end ClassWeave.ConstantPool
