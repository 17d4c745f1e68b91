import ClassWeave.Frame.StackMap

/-!
What can be wrong with a class, with the code of a method, or with code that is being built.
-/

namespace ClassWeave

/-- Why the verifier refuses an instruction. -/
inductive VerifyError where
  | emptyStack
  | badWidth (found : Nat)
  | notArray
  | badIndex
  | badType
  | incompatible (found expected : EditType)
  | badDescriptor (text : String)
  | notLoadable (index : PoolIndex)
  deriving DecidableEq, Repr

/-- Why bytes are not the code of a method. -/
inductive CodeFault where
  | truncated
  | jumpOutside (target : Int)
  | emptyTable (low high : Int32)
  | negativePairs (count : Int32)
  | arrayType (code : UInt8)
  | notWidened (opcode : UInt8)
  | notAnInstruction
  | missingLabel
  | badRange
  | badFrame (fault : FrameFault)
  deriving DecidableEq, Repr

inductive ClassError where
  | format (problem : FormatError)
  | badMagic (found : UInt32)
  | trailingBytes (count : Nat)
  | pool (problem : PoolError)
  | badDescriptor (text : String)
  | badClassName (text : String)
  | malformedCode (offset : Nat) (fault : CodeFault)
  | unsupportedOpcode (opcode : UInt8) (offset : Nat)
  | codeOverflow (length : Nat)
  | branchOutOfRange (label : Label) (distance : Int)
  | unboundLabel (label : Label)
  | duplicateLabel (label : Label)
  | missingFrame (label : Label)
  | conflictingFrames (offset : Nat)
  | unreachableLabel (label : Label)
  | unreachableCode
  | refused (instruction : String) (cause : VerifyError)
  | incompatibleFrames (label : Label) (found expected : EditFrame)
  | emptyRange (start stop : Label)
  deriving DecidableEq, Repr

namespace PoolError

/-- The problem as messages about other problems quote it. -/
def text : PoolError → String
  | .overflow _ offset => "ConstantPoolOverflow \x7b offset: " ++ toString offset ++ " \x7d"
  | .missing index => "MissingConstant(" ++ index.text ++ ")"
  | .unexpected index expected =>
    "UnexpectedConstant \x7b index: " ++ index.text ++ ", expected: \"" ++ expected.text
      ++ "\" \x7d"

end PoolError

namespace FrameFault

def message : FrameFault → String
  | .chop count available =>
    "Cannot chop " ++ toString count ++ " locals from a frame with " ++ toString available
  | .unresolved cause => cause.text
  | .noInstruction offset => "No instruction at offset " ++ toString offset.toNat

end FrameFault

namespace CodeFault

/-- Digits of a number in base sixteen, without leading zeros. -/
def hexadecimal (n : Nat) : String := String.ofList (Nat.toDigits 16 n)

def message : CodeFault → String
  | .truncated => "Truncated instruction"
  | .jumpOutside target => "Jump target " ++ toString target ++ " is out of bounds"
  | .emptyTable low high =>
    "tableswitch with low " ++ toString low.toInt ++ " above high " ++ toString high.toInt
  | .negativePairs count => "lookupswitch with " ++ toString count.toInt ++ " pairs"
  | .arrayType code => "Bad newarray type " ++ toString code.toNat
  | .notWidened opcode => "`wide` cannot modify opcode 0x" ++ hexadecimal opcode.toNat
  | .notAnInstruction => "Reference to an offset that is not an instruction"
  | .missingLabel => "Missing label"
  | .badRange => "Empty or inverted exception range"
  | .badFrame fault => fault.message

end CodeFault

/-- Lookups in the pool, as steps that may fail in other ways too. -/
instance : MonadLift (Except PoolError) (Except ClassError) := ⟨Except.mapError .pool⟩

instance : MonadLift (Except FormatError) (Except ClassError) := ⟨Except.mapError .format⟩

/-- Steps that intern constants, and may fail in any way. -/
abbrev Encoding := EStateM ClassError ConstantPool

instance : MonadLift (EStateM PoolError ConstantPool) Encoding := ⟨EStateM.adaptExcept .pool⟩

instance : MonadLift (Except ClassError) Encoding where
  monadLift
    | .ok value => pure value
    | .error problem => throw problem

end ClassWeave
