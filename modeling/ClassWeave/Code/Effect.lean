import ClassWeave.Code.Branch
import ClassWeave.Error

/-!
Stack effects: how many slots an instruction takes from the stack and how many it puts there. Wide
values count twice, as they do in the declared height of the stack.
-/

namespace ClassWeave

structure StackEffect where
  pops : Nat
  pushes : Nat
  deriving DecidableEq, Repr

def fieldWidth (pool : ConstantPool) (index : PoolIndex) : Except ClassError Nat := do
  let field ← pool.fieldRef index
  match FieldType.parse field.descriptor with
  | .ok type => return type.width
  | .error _ => throw (.badDescriptor field.descriptor)

def callEffect (descriptor : String) (hasReceiver : Bool) : Except ClassError StackEffect :=
  match MethodDescriptor.parse descriptor with
  | .ok method =>
    .ok ⟨method.parameterSlots hasReceiver, (method.returnType.map FieldType.width).getD 0⟩
  | .error _ => .error (.badDescriptor descriptor)

namespace StackOp

def effect : StackOp → StackEffect
  | .pop => ⟨1, 0⟩
  | .pop2 => ⟨2, 0⟩
  | .dup => ⟨1, 2⟩
  | .dupX1 => ⟨2, 3⟩
  | .dupX2 => ⟨3, 4⟩
  | .dup2 => ⟨2, 4⟩
  | .dup2X1 => ⟨3, 5⟩
  | .dup2X2 => ⟨4, 6⟩
  | .swap => ⟨2, 2⟩

end StackOp

namespace Insn

/-- Members are looked up, since their descriptors decide. -/
def stackEffect (pool : ConstantPool) : Insn → Except ClassError StackEffect
  | .nop | .increment _ _ => return ⟨0, 0⟩
  | .constNull | .constInt _ | .constFloat _ | .pushByte _ | .pushShort _ | .loadConstant _
  | .new _ => return ⟨0, 1⟩
  | .constLong _ | .constDouble _ | .loadWideConstant _ => return ⟨0, 2⟩
  | .load kind _ => return ⟨0, kind.width⟩
  | .store kind _ => return ⟨kind.width, 0⟩
  | .arrayLoad kind => return ⟨2, kind.width⟩
  | .arrayStore kind => return ⟨2 + kind.width, 0⟩
  | .stack op => return op.effect
  | .arithmetic _ kind => return ⟨2 * kind.width, kind.width⟩
  | .negate kind => return ⟨kind.width, kind.width⟩
  | .shift _ ofLong => return if ofLong then ⟨3, 2⟩ else ⟨2, 1⟩
  | .bitwise _ ofLong => return if ofLong then ⟨4, 2⟩ else ⟨2, 1⟩
  | .convert conversion => return ⟨conversion.source.width, conversion.target.width⟩
  | .compareLong => return ⟨4, 1⟩
  | .compareFloat ofDouble _ => return if ofDouble then ⟨4, 1⟩ else ⟨2, 1⟩
  | .field .getStatic index => return ⟨0, ← fieldWidth pool index⟩
  | .field .putStatic index => return ⟨← fieldWidth pool index, 0⟩
  | .field .getField index => return ⟨1, ← fieldWidth pool index⟩
  | .field .putField index => return ⟨1 + (← fieldWidth pool index), 0⟩
  | .invoke kind index => do
    let method ← pool.methodRef index
    callEffect method.descriptor kind.hasReceiver
  | .invokeDynamic index => do
    let (_, descriptor) ← pool.callSite index
    callEffect descriptor false
  | .newArray _ | .newRefArray _ | .arrayLength | .checkCast _ | .instanceOf _ => return ⟨1, 1⟩
  | .newMultiArray _ dimensions => return ⟨dimensions.toNat, 1⟩
  | .monitorEnter | .monitorExit => return ⟨1, 0⟩

end Insn

end ClassWeave
