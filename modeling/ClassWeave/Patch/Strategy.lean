import ClassWeave.Patch.Canonical
import ClassWeave.Patch.Replay
import ClassWeave.Script.Compile

/-!
Ways to patch a method: a handler around all of its code, guards in front of it, or new code in its
place. A handler or guards that are there already are recognised by their code and not put in again.
-/

namespace ClassWeave

/-- A static method called with the caught exception or with nothing. -/
structure LogCall where
  owner : String
  name : String
  descriptor : String
  deriving DecidableEq, Repr

/-- What a method returns after its exception was caught. -/
inductive Fallback where
  | default
  | int (value : Int32)
  | long (value : Int64)
  | bool (value : Bool)
  | string (text : String)
  deriving DecidableEq, Repr

/-- Suppresses exceptions of a class, or all. -/
structure WrapGuard where
  catchType : Option String
  log : Option LogCall
  fallback : Fallback
  deriving DecidableEq, Repr

/-- Runs its tail instead of the guards behind it if the condition holds. -/
structure Guard where
  condition : Cond
  tail : List Stmt

structure PrologueGuard where
  guards : List Guard

/-- New code for a method with the given descriptor. -/
structure Replacement where
  descriptor : String
  body : List Stmt

inductive PatchStrategy where
  | wrap (guard : WrapGuard)
  | prologue (guard : PrologueGuard)
  | replace (replacement : Replacement)

inductive PatchOutcome where
  | patched (body : MethodBody)
  | unchanged

/-- Runs a step on a builder of its own, and gives the result with the compiler behind it. -/
def Compiling.build {α : Type} (labels : LabelSupply) (shape : MethodShape) (entry : EditFrame)
    (step : Compiling α) : Patching (α × Compiler) := fun pool =>
  match step (.start (.start pool labels shape entry) 0) with
  | .ok value compiler => .ok (value, compiler) compiler.builder.pool
  | .error problem compiler => .error problem compiler.builder.pool

/-- Result of a step on a pool that is then put back. -/
def Patching.rehearse {α : Type} (step : Patching α) : Patching α := fun pool =>
  match step pool with
  | .ok value _ => .ok value pool
  | .error problem _ => .error problem pool

/-- Adds frames, each in place of the one at its label. -/
def FrameTable.setAll (frames added : FrameTable) : FrameTable :=
  added.foldl (fun frames (label, frame) => frames.set label frame) frames

namespace Fallback

/-- Return types of methods that may return a string constant. -/
def stringTypes : List String :=
  ["java/lang/String", "java/lang/Object", "java/lang/CharSequence", "java/lang/Comparable",
    "java/io/Serializable"]

/-- Is the value one of the return type? An int may stand for a smaller type if it is in range. -/
def fits : Fallback → Option FieldType → Bool
  | .default, _ => true
  | .int value, some (.base type) =>
    match type with
    | .int => true
    | .short => -32768 ≤ value ∧ value ≤ 32767
    | .byte => -128 ≤ value ∧ value ≤ 127
    | .char => 0 ≤ value ∧ value ≤ 65535
    | _ => false
  | .bool _, some (.base .boolean) => true
  | .long _, some (.base .long) => true
  | .string _, some (.ref (.object name)) => stringTypes.contains name.text
  | _, _ => false

/-- Descriptor of the value's own type. -/
def descriptor : Fallback → String
  | .default => "V"
  | .int _ => "I"
  | .bool _ => "Z"
  | .long _ => "J"
  | .string _ => "Ljava/lang/String;"

def push (fallback : Fallback) (returnType : Option FieldType) : Building Unit :=
  match fallback, returnType with
  | .default, none => pure ()
  | .default, some type => Builder.zero type
  | .int value, _ => Builder.constInt value
  | .bool value, _ => Builder.constInt (if value then 1 else 0)
  | .long value, _ => Builder.constLong value
  | .string text, _ => Builder.constString text

end Fallback

/-- Calls the method with the exception on top of the stack, which is gone afterwards. -/
def LogCall.push (log : LogCall) : Compiling Unit := do
  match MethodDescriptor.parse log.descriptor with
  | .error _ => throw (.badClass (.badDescriptor log.descriptor))
  | .ok ⟨[], none⟩ => Builder.pop
  | .ok ⟨[.ref _], none⟩ => pure ()
  | .ok _ =>
    throw (.unsupported (.logDescriptor (log.owner ++ "." ++ log.name ++ log.descriptor)))
  Builder.invoke .static log.owner log.name log.descriptor

namespace WrapGuard

/-- Code of the handler, behind its label. It starts without locals, so that any point of the method
may lead to it. -/
def handler (guard : WrapGuard) : Compiling Label := do
  let frame : EditFrame := ⟨[], [Builder.caughtType guard.catchType]⟩
  let label ← Builder.fresh
  Builder.placeWith label frame
  match guard.log with
  | none => Builder.pop
  | some log => log.push
  guard.fallback.push (← Compiler.shape).returnType
  Builder.leave
  return label

/-- The handler as code to be put behind a body, with the labels left after it. -/
def tail (guard : WrapGuard) (labels : LabelSupply) (shape : MethodShape) :
    Patching (Label × Fragment × LabelSupply) := do
  let frame : EditFrame := ⟨[], [Builder.caughtType guard.catchType]⟩
  let (label, compiler) ← guard.handler.build labels shape frame
  return (label, compiler.builder.finish, compiler.builder.labels)

/-- Has the body a handler of this form behind the range that it protects? Code in front of the
range does not matter. -/
def alreadyWraps (guard : WrapGuard) (body : MethodBody) (tail : Fragment) : Bool :=
  let expected := CanonicalNode.ofNodes tail.nodes
  body.handlers.any fun handler =>
    handler.catchType = guard.catchType && handler.stop = handler.handler
      && match body.labelPosition? handler.start, body.labelPosition? handler.handler with
        | some start, some position =>
          start ≤ position && CanonicalNode.matchesAt expected (body.nodes.drop position)
        | _, _ => false

def apply (guard : WrapGuard) (old : Option MethodBody) : Patching PatchOutcome := do
  let some old := old | return .unchanged
  if old.shape.isConstructor then throw (.unsupported .wrapConstructor)
  if old.instructionCount = 0 then throw (.unsupported .emptyBody)
  let returnType := old.shape.returnType
  unless guard.fallback.fits returnType do
    throw (.returnTypeMismatch ((returnType.map FieldType.render).getD "V")
      guard.fallback.descriptor)
  let (_, rehearsed, _) ← Patching.rehearse (guard.tail old.labels old.shape)
  if guard.alreadyWraps old rehearsed then return .unchanged
  let (start, body) := old.labelAt old.firstInstruction
  let (label, tail, labels) ← guard.tail body.labels old.shape
  return .patched { body with
    nodes := body.nodes ++ tail.nodes
    frames := body.frames.setAll tail.frames
    handlers := body.handlers ++ [⟨start, label, label, guard.catchType⟩]
    envelope := old.envelope.dominate tail.envelope
    labels := labels }

end WrapGuard

namespace PrologueGuard

open Compiler

/-- Code of guards in order. The tail of one that does not leave the method goes on to `resume`, and
a guard that always takes over is the last. -/
def chain (entry : EditFrame) (resume : Label) : List Guard → Compiling Unit
  | [] => pure ()
  | [guard] => do
    jumpUnless guard.condition resume
    block guard.tail
    gotoIfReachable resume
  | guard :: rest => do
    let next ← Builder.fresh
    jumpUnless guard.condition next
    block guard.tail
    gotoIfReachable resume
    if ← isJumpedTo next then
      Builder.placeWith next entry
      chain entry resume rest

/-- Frame that the code of a body starts with: that of a label there, if it has one. -/
def resumeFrame (old : MethodBody) : EditFrame :=
  let leading := old.nodes.takeWhile Node.isLabel
  let frame? := leading.findSome? fun
    | .label label => old.frames.find? label
    | _ => none
  frame?.getD old.shape.entryFrame

/-- The guards as code to be put in front of a body, with the labels left after it. -/
def code (guard : PrologueGuard) (old : MethodBody) : Patching (Fragment × LabelSupply) := do
  let entry := old.shape.entryFrame
  let step : Compiling Unit := do
    let resume ← Builder.fresh
    chain entry resume guard.guards
    Builder.placeWith resume (resumeFrame old)
  let (_, compiler) ← step.build old.labels old.shape entry
  return (compiler.builder.finish, compiler.builder.labels)

def apply (guard : PrologueGuard) (old : Option MethodBody) : Patching PatchOutcome := do
  let some old := old | return .unchanged
  if old.shape.isConstructor then throw (.unsupported .guardConstructor)
  if guard.guards.isEmpty then return .unchanged
  let (rehearsed, _) ← Patching.rehearse (guard.code old)
  if CanonicalNode.occursIn (CanonicalNode.ofNodes rehearsed.nodes) old.nodes then
    return .unchanged
  let (code, labels) ← guard.code old
  return .patched { old with
    nodes := code.nodes ++ old.nodes
    frames := old.frames.setAll code.frames
    handlers := code.handlers ++ old.handlers
    envelope := old.envelope.dominate code.envelope
    labels := labels }

end PrologueGuard

namespace Replacement

/-- The new body keeps nothing of the old one but its declaration. -/
def apply (replacement : Replacement) (old : Option MethodBody) : Patching PatchOutcome := do
  let some old := old | throw .missingBody
  let shape := old.shape
  match MethodDescriptor.parse replacement.descriptor with
  | .error _ => throw (.badClass (.badDescriptor replacement.descriptor))
  | .ok expected =>
    if expected ≠ shape.descriptor then
      throw (.descriptorMismatch replacement.descriptor shape.descriptor.render)
  if shape.isConstructor then throw (.unsupported .replaceConstructor)
  let step := Compiler.block replacement.body
  let (_, compiler) ← step.build ⟨0⟩ shape shape.entryFrame
  let fragment := compiler.builder.finish
  if fragment.exit.isSome then throw .fallsOffEnd
  let body := { MethodBody.empty shape with
    nodes := fragment.nodes
    frames := fragment.frames
    handlers := fragment.handlers
    labels := compiler.builder.labels }
  match body.observe (← get) with
  | .error problem => throw problem
  | .ok observed =>
    return .patched { body with envelope := observed.envelope.dominate fragment.envelope }

end Replacement

namespace PatchStrategy

def kind : PatchStrategy → String
  | .wrap _ => "wrap-with-guard"
  | .prologue _ => "prologue-guard"
  | .replace _ => "full-replace"

/-- The patched body; a method without one is `none`. -/
def apply : PatchStrategy → Option MethodBody → Patching PatchOutcome
  | .wrap guard => guard.apply
  | .prologue guard => guard.apply
  | .replace replacement => replacement.apply

end PatchStrategy

end ClassWeave
