import ClassWeave.Error

/-!
Why a patch is refused. A refused patch leaves its method as it was.
-/

namespace ClassWeave

/-- How code can leave its envelope; instructions are named by their position. -/
inductive EnvelopeViolation where
  | stackExceeded (instruction height : Nat) (maxStack : UInt16)
  | localOutOfRange (instruction : Nat) (slot maxLocals : UInt16)
  | localsOverflow (instruction : Nat) (slot : UInt16)
  | stackUnderflow (instruction height : Nat)
  | inconsistentHeight (instruction first second : Nat)
  | parametersExceedLocals (parameters maxLocals : UInt16)
  deriving DecidableEq, Repr

/-- What patches do not support. -/
inductive Unsupported where
  | voidValue (expression : String)
  | thisInStatic
  | notIndexed (type : String)
  | notIterated (type : String)
  | notIncremented (name type : String)
  | emptyTry
  | staticReceiver (method : String)
  | missingReceiver (method : String)
  | tooManyLocals
  | wrapConstructor
  | guardConstructor
  | replaceConstructor
  | emptyBody
  | logDescriptor (method : String)
  deriving DecidableEq, Repr

def Unsupported.message : Unsupported → String
  | .voidValue expression => "`void` expression used as a value: " ++ expression
  | .thisInStatic => "`this` in a static method"
  | .notIndexed type => "cannot index into " ++ type
  | .notIterated type => "cannot iterate over " ++ type
  | .notIncremented name type => "cannot increment `" ++ name ++ "` of type " ++ type
  | .emptyTry => "empty try block"
  | .staticReceiver method => "static call to " ++ method ++ " with a receiver"
  | .missingReceiver method => "instance call to " ++ method ++ " without a receiver"
  | .tooManyLocals => "too many locals"
  | .wrapConstructor => "wrapping a constructor body"
  | .guardConstructor => "guarding a constructor before its super call"
  | .replaceConstructor => "replacing a constructor body"
  | .emptyBody => "empty method body"
  | .logDescriptor method => "log method " ++ method ++ " must take nothing or the exception"

inductive PatchError where
  | descriptorMismatch (expected found : String)
  | missingBody
  | argumentOutOfRange (index : Nat)
  | arityMismatch (method : String) (expected found : Nat)
  | returnTypeMismatch (expected found : String)
  | unsupported (reason : Unsupported)
  | tooLarge (length : Nat)
  | envelope (violation : EnvelopeViolation)
  | fallsOffEnd
  | unknownVariable (name : String)
  | badClass (cause : ClassError)
  deriving DecidableEq, Repr

namespace PatchError

/-- Code that is too long is a reason of its own. -/
def ofClass : ClassError → PatchError
  | .codeOverflow length => .tooLarge length
  | cause => .badClass cause

end PatchError

abbrev Patching := EStateM PatchError ConstantPool

instance : MonadLift (Except ClassError) (Except PatchError) := ⟨Except.mapError .ofClass⟩

instance : MonadLift Encoding Patching := ⟨EStateM.adaptExcept .ofClass⟩

end ClassWeave
