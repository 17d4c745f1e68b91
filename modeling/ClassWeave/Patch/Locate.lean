import ClassWeave.Class.File
import ClassWeave.Code.Decode
import ClassWeave.Signature

/-!
Finding the method that a signature names. Other methods of the same name do not matter as long as
their descriptors can be read.
-/

namespace ClassWeave

/-- A method without code has no body. -/
structure LocatedMethod where
  position : Nat
  flags : MethodFlags
  shape : MethodShape
  body : Option MethodBody

namespace ClassFile

/-- The declaration of a method, if it is the one that the signature names. -/
def matchMethod? (file : ClassFile) (thisClass : String) (signature : MethodSignature)
    (method : Method) : Except ClassError (Option MethodShape) := do
  if (← file.pool.utf8 method.name) ≠ signature.name.text then return none
  let text ← file.pool.utf8 method.descriptor
  match MethodDescriptor.parse text with
  | .error _ => throw (.badDescriptor text)
  | .ok descriptor =>
    if descriptor ≠ signature.descriptor then return none
    some <$> MethodShape.parse thisClass signature.name.text method.flags text

/-- The first method that the signature names, with its position; `position` is that of the first
method in the list. -/
def findMethod? (file : ClassFile) (thisClass : String) (signature : MethodSignature) :
    List Method → (position : Nat) → Except ClassError (Option (Nat × Method × MethodShape))
  | [], _ => .ok none
  | method :: rest, position =>
    match file.matchMethod? thisClass signature method with
    | .error problem => .error problem
    | .ok (some shape) => .ok (some (position, method, shape))
    | .ok none => file.findMethod? thisClass signature rest (position + 1)

/-- A class other than the owner has no such method. -/
def locate (file : ClassFile) (signature : MethodSignature) :
    Except ClassError (Option LocatedMethod) := do
  let thisClass ← file.name
  if thisClass ≠ signature.owner.text then return none
  match ← file.findMethod? thisClass signature file.methods 0 with
  | none => return none
  | some (position, method, shape) =>
    match ← file.methodCode position with
    | none => return some ⟨position, method.flags, shape, none⟩
    | some code =>
      let body ← MethodBody.decode code file.pool shape
      return some ⟨position, method.flags, shape, some body⟩

end ClassFile

end ClassWeave
