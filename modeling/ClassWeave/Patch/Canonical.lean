import ClassWeave.Code.Body

/-!
Code up to the names of labels. A target inside a run of nodes is told by how many instructions
stand before it; targets outside are all alike.
-/

namespace ClassWeave

inductive CanonicalNode where
  | insn (insn : Insn)
  | branch (branch : Branch (Option Nat))
  deriving DecidableEq, Repr

namespace CanonicalNode

/-- For each label, the number of instructions before it. -/
def positionsOf (nodes : List Node) : NatMap Nat :=
  (nodes.foldl (fun (found, count) node =>
    match node with
    | .label label => (NatMap.set found label.number count, count)
    | _ => (found, count + 1)) (NatMap.empty, 0)).1

def ofNodes (nodes : List Node) : List CanonicalNode :=
  let positions := positionsOf nodes
  nodes.filterMap fun
    | .label _ => none
    | .insn i => some (.insn i)
    | .branch b => some (.branch (b.map fun label => positions.get? label.number))

/-- The nodes up to the instruction with the given number and the labels behind it, in reverse on
top of those in `taken`. -/
def takeOnto : (count : Nat) → List Node → (taken : List Node) → Option (List Node)
  | count, .label label :: rest, taken => takeOnto count rest (.label label :: taken)
  | 0, _, taken => some taken
  | _ + 1, [], _ => none
  | count + 1, node :: rest, taken => takeOnto count rest (node :: taken)

/-- Do the nodes begin with a run of the given form? Labels right behind the run belong to it. -/
def matchesAt (expected : List CanonicalNode) (nodes : List Node) : Bool :=
  match takeOnto expected.length nodes [] with
  | none => false
  | some taken => ofNodes taken.reverse = expected

/-- Does a run of the given form begin anywhere among the nodes? -/
def occursIn (expected : List CanonicalNode) : List Node → Bool
  | [] => false
  | node :: rest => matchesAt expected (node :: rest) || occursIn expected rest

end CanonicalNode

end ClassWeave
