import ClassWeave.Code.Encode
import ClassWeave.Patch.Locate
import ClassWeave.Patch.Strategy

/-!
Patching one method of a class. New code is stored only if it keeps to its envelope and differs from
the code that is there.
-/

namespace ClassWeave

inductive MethodPatch where
  | notFound
  | unchanged
  | applied (position : Nat) (envelope : Envelope)
  deriving DecidableEq, Repr

namespace ClassFile

/-- The new code of a located method with its envelope, if the strategy gives any. -/
def patchedCode (version : Version) (strategy : PatchStrategy) (limit : Nat)
    (located : LocatedMethod) : Patching (Option (Code × Envelope)) := do
  match ← strategy.apply located.body with
  | .unchanged => return none
  | .patched body =>
    let pool ← get
    match body.checkEnvelope pool with
    | .error problem => throw problem
    | .ok _ => return some (← body.encodeWithLimit version limit, body.envelope)

/-- Applies a strategy to the method that a signature names. A class whose patch fails may have
gained constants, and nothing else. -/
def patch (target : MethodSignature) (strategy : PatchStrategy) (limit : Nat) :
    EStateM PatchError ClassFile MethodPatch := do
  let file ← get
  match file.locate target with
  | .error problem => throw (.ofClass problem)
  | .ok none => return .notFound
  | .ok (some located) =>
    match ← (fun file => file.withPool (patchedCode file.version strategy limit located)) with
    | none => return .unchanged
    | some (code, envelope) =>
      match (← get).methodCode located.position with
      | .error problem => throw (.badClass (.format problem))
      | .ok existing =>
        if existing = some code then return .unchanged
        (setMethodCode located.position code).adaptExcept PatchError.ofClass
        return .applied located.position envelope

end ClassFile

end ClassWeave
