import ClassWeave.Code.Body
import ClassWeave.Code.Read

/-!
Layout: byte offsets for the nodes of a body. Every goto starts out short; those whose jump is too
far are widened and the offsets computed anew, until none is left. A goto is never made short again.
-/

namespace ClassWeave

/-- Can a short jump cover the distance? -/
def isShortDistance (distance : Int) : Bool := -32768 ≤ distance ∧ distance ≤ 32767

namespace Branch

/-- Bytes a branch takes at an offset. -/
def width {T : Type} (offset : Nat) (wide : Bool) : Branch T → Nat
  | .ifZero _ _ | .ifInts _ _ | .ifRefs _ _ | .ifNull _ _ => 3
  | .goto _ => if wide then 5 else 3
  | .tableSwitch _ _ targets => 1 + switchPadding offset + 12 + 4 * targets.length
  | .lookupSwitch _ targets => 1 + switchPadding offset + 8 + 8 * targets.length
  | .return _ | .raise => 1

end Branch

/-- A node with its offset; `wide` is for a goto in its long form. -/
structure Placed where
  node : Node
  wide : Bool
  offset : Nat
  deriving DecidableEq, Repr

namespace Placed

def width (placed : Placed) : Nat :=
  match placed.node with
  | .label _ => 0
  | .insn insn => insn.width
  | .branch branch => branch.width placed.offset placed.wide

end Placed

namespace LabelTable

def offset (labels : LabelTable) (label : Label) : Except ClassError Nat :=
  match labels.offset? label with
  | some offset => .ok offset
  | none => .error (.unboundLabel label)

/-- Gives an offset to a label that has none yet. The table holds the new offset in any case. -/
def bindNew (label : Label) (offset : Nat) : EStateM ClassError LabelTable Unit := fun labels =>
  if labels.isBound label then .error (.duplicateLabel label) (labels.bind label offset)
  else .ok () (labels.bind label offset)

end LabelTable

/-- Nodes in order, and the offset behind the last. -/
structure Layout where
  nodes : List Placed
  labels : LabelTable
  length : Nat

namespace Layout

/-- Places nodes behind those in `done`, which is in reverse. -/
def placeOnto : List (Node × Bool) → (done : List Placed) → LabelTable → (offset : Nat) →
    Except ClassError Layout
  | [], done, labels, offset => .ok ⟨done.reverse, labels, offset⟩
  | (node, wide) :: rest, done, labels, offset =>
    let placed : Placed := ⟨node, wide, offset⟩
    match node with
    | .label label =>
      match labels.bindNew label offset with
      | .error problem _ => .error problem
      | .ok _ labels => placeOnto rest (placed :: done) labels offset
    | _ => placeOnto rest (placed :: done) labels (offset + placed.width)

def place (nodes : List (Node × Bool)) : Except ClassError Layout := placeOnto nodes [] .empty 0

/-- Does the node have to be wide for its jump? -/
def needsWide (labels : LabelTable) (placed : Placed) : Except ClassError Bool := do
  match placed.node with
  | .branch (.goto target) =>
    let distance : Int := (← labels.offset target) - placed.offset
    return placed.wide || !isShortDistance distance
  | _ => return placed.wide

/-- The nodes, with each goto wide that needs to be. -/
def widen (layout : Layout) : Except ClassError (List (Node × Bool)) :=
  layout.nodes.mapM fun placed => do return (placed.node, ← needsWide layout.labels placed)

/-- Widens for `rounds` rounds at most. -/
def settle : (rounds : Nat) → List (Node × Bool) → Except ClassError Layout
  | 0, nodes => place nodes
  | rounds + 1, nodes => do
    let layout ← place nodes
    let widened ← layout.widen
    if widened.map Prod.snd == nodes.map Prod.snd then return layout else settle rounds widened

/-- A round without a change is the last, and each of the others widens a goto. -/
def compute (nodes : List Node) : Except ClassError Layout :=
  let gotos := nodes.countP fun
    | .branch (.goto _) => true
    | _ => false
  settle gotos (nodes.map (·, false))

end Layout

end ClassWeave
