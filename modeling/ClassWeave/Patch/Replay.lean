import ClassWeave.Code.Body
import ClassWeave.Code.Effect
import ClassWeave.Patch.Error

/-!
Replaying a body over its control flow, with nothing but the height of the stack and the slots of
the locals. This is far less than verification, and just enough to tell whether an envelope covers
the code.
-/

namespace ClassWeave

/-- The least envelope around the reachable code, and the first position where the stack is highest.
-/
structure Observation where
  envelope : Envelope
  peakAt : Nat
  deriving DecidableEq, Repr

/-- Height before each node that has been reached, and the positions still to be visited. -/
structure Walk where
  heights : Array (Option Nat)
  waiting : List Nat

namespace Walk

def start (count : Nat) : Walk := ⟨Array.replicate count none, []⟩

/-- Arrives at a position, which may lie past the end. Every arrival has the same height. -/
def reach (walk : Walk) (position height : Nat) : Except PatchError Walk :=
  match walk.heights[position]? with
  | none => .ok walk
  | some none => .ok ⟨walk.heights.setIfInBounds position (some height), position :: walk.waiting⟩
  | some (some first) =>
    if first = height then .ok walk
    else .error (.envelope (.inconsistentHeight position first height))

end Walk

/-- Position of each label; of several the last counts. -/
def labelPositions (nodes : List Node) : NatMap Nat :=
  (nodes.foldl (fun (found, position) node =>
    match node with
    | .label label => (NatMap.set found label.number position, position + 1)
    | _ => (found, position + 1)) (NatMap.empty, 0)).1

/-- Locals that an access needs. -/
def localsNeeded (slot : UInt16) (width position : Nat) : Except PatchError UInt16 :=
  if slot.toNat + width ≤ 65535 then .ok (UInt16.ofNat (slot.toNat + width))
  else .error (.envelope (.localsOverflow position slot))

def popSlots (height pops position : Nat) : Except PatchError Nat :=
  if pops ≤ height then .ok (height - pops)
  else .error (.envelope (.stackUnderflow position height))

/-- What the positions visited so far have shown. -/
structure Replay where
  walk : Walk
  maxStack : Nat
  peakAt : Nat
  maxLocals : UInt16

namespace Replay

def position (positions : NatMap Nat) (label : Label) : Except PatchError Nat :=
  match positions.get? label.number with
  | some position => .ok position
  | none => .error (.badClass (.unboundLabel label))

/-- Height behind a node, the locals it needs, and the walk with all that follows it reached. -/
def visit (pool : ConstantPool) (positions : NatMap Nat) (walk : Walk) (node : Node)
    (position height : Nat) : Except PatchError (Nat × UInt16 × Walk) := do
  match node with
  | .label _ => return (height, 0, ← walk.reach (position + 1) height)
  | .insn insn =>
    let effect ← insn.stackEffect pool
    let after := (← popSlots height effect.pops position) + effect.pushes
    let needed ← match insn.localAccess? with
      | some (slot, width) => localsNeeded slot width position
      | none => pure 0
    return (after, needed, ← walk.reach (position + 1) after)
  | .branch branch =>
    let after ← popSlots height branch.pops position
    let walk ← branch.jumpTargets.foldlM (fun walk target => do
      walk.reach (← Replay.position positions target) after) walk
    let walk ← if branch.fallsThrough then walk.reach (position + 1) after else pure walk
    return (after, 0, walk)

/-- Visits the waiting positions, the latest first. Each position waits once, so `fuel` need not
exceed the number of nodes. -/
def run (pool : ConstantPool) (positions : NatMap Nat) (nodes : Array Node) :
    (fuel : Nat) → Replay → Except PatchError Replay
  | 0, replay => .ok replay
  | fuel + 1, ⟨⟨heights, waiting⟩, maxStack, peakAt, maxLocals⟩ =>
    match waiting with
    | [] => .ok ⟨⟨heights, []⟩, maxStack, peakAt, maxLocals⟩
    | position :: waiting =>
      match nodes[position]? with
      | none => run pool positions nodes fuel ⟨⟨heights, waiting⟩, maxStack, peakAt, maxLocals⟩
      | some node =>
        let height := (heights[position]?.join).getD 0
        match visit pool positions ⟨heights, waiting⟩ node position height with
        | .error problem => .error problem
        | .ok (after, needed, walk) =>
          let maxLocals := if maxLocals ≤ needed then needed else maxLocals
          let peak := max height after
          if maxStack < peak ∨ (peak = maxStack ∧ position < peakAt) then
            run pool positions nodes fuel ⟨walk, peak, position, maxLocals⟩
          else run pool positions nodes fuel ⟨walk, maxStack, peakAt, maxLocals⟩

end Replay

namespace MethodBody

/-- The least envelope around the code that control reaches from the start, where the stack is
empty, or from a handler, where it holds the exception. -/
def observe (body : MethodBody) (pool : ConstantPool) : Except PatchError Observation := do
  let positions := labelPositions body.nodes
  let count := body.nodes.length
  let walk ← (Walk.start count).reach 0 0
  let walk ← body.handlers.foldlM (fun walk handler => do
    walk.reach (← Replay.position positions handler.handler) 1) walk
  let replay ← Replay.run pool positions body.nodes.toArray count
    ⟨walk, 0, 0, body.shape.parameterSlots⟩
  if replay.maxStack ≤ 65535 then
    return ⟨⟨UInt16.ofNat replay.maxStack, replay.maxLocals⟩, replay.peakAt⟩
  else throw (.envelope (.stackExceeded replay.peakAt replay.maxStack 65535))

/-- The slots of every access, reachable or not, lie within a bound. -/
def checkLocals (maxLocals : UInt16) : (position : Nat) → List Node → Except PatchError Unit
  | _, [] => .ok ()
  | position, node :: rest =>
    match node with
    | .insn insn =>
      match insn.localAccess? with
      | none => checkLocals maxLocals (position + 1) rest
      | some (slot, width) =>
        match localsNeeded slot width position with
        | .error problem => .error problem
        | .ok needed =>
          if maxLocals < needed then
            .error (.envelope (.localOutOfRange position slot maxLocals))
          else checkLocals maxLocals (position + 1) rest
    | _ => checkLocals maxLocals (position + 1) rest

/-- Checks that the declared envelope covers the code, and gives the one observed. -/
def checkEnvelope (body : MethodBody) (pool : ConstantPool) : Except PatchError Envelope := do
  let declared := body.envelope
  let parameters := body.shape.parameterSlots
  if declared.maxLocals < parameters then
    throw (.envelope (.parametersExceedLocals parameters declared.maxLocals))
  let observed ← body.observe pool
  if declared.maxStack < observed.envelope.maxStack then
    throw (.envelope (.stackExceeded observed.peakAt observed.envelope.maxStack.toNat
      declared.maxStack))
  checkLocals declared.maxLocals 0 body.nodes
  return observed.envelope

end MethodBody

end ClassWeave
