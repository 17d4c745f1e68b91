import ClassWeave.Patch.Replay
import ClassWeave.Proofs.Code.Resolving
import Mathlib.Data.List.Induction

/-!
Heights of the stack along the paths of a body. A body is covered by an envelope if no path takes more
from the stack than there is or exceeds the envelope, and all paths to a node agree on the height. A
body whose replay succeeds is covered by what was observed.
-/

namespace ClassWeave

/-- Slots that a node takes from the stack and puts there. -/
def Node.effect (pool : ConstantPool) : Node → Except ClassError StackEffect
  | .label _ => .ok ⟨0, 0⟩
  | .insn i => i.stackEffect pool
  | .branch b => .ok ⟨b.pops, 0⟩

/-- Slots up to the last that an instruction accesses. -/
def Insn.slots (insn : Insn) : Nat := (insn.localAccess?.map fun (slot, width) => slot.toNat + width).getD 0

theorem Insn.slots_of_access {insn : Insn} {access : UInt16 × Nat} (h : insn.localAccess? = some access) :
    insn.slots = access.1.toNat + access.2 := by
  unfold slots
  rw [h]
  rfl

theorem Insn.slots_of_none {insn : Insn} (h : insn.localAccess? = none) : insn.slots = 0 := by
  unfold slots
  rw [h]
  rfl

/-- Slots up to the last that a node accesses. -/
def Node.slots : Node → Nat
  | .insn i => i.slots
  | .label _ | .branch _ => 0

theorem Insn.refines_stackEffect {p q : ConstantPool} (h : p ≤ q) (insn : Insn) :
    Refines (insn.stackEffect p) (insn.stackEffect q) := by
  have hfield (index : PoolIndex) : Refines (fieldWidth p index) (fieldWidth q index) :=
    .bind (.mapError _ fun _ => ConstantPool.fieldRef_of_le h) fun _ => .refl _
  cases insn with
  | field access index =>
    cases access <;> exact .bind (hfield index) fun _ => .refl _
  | invoke kind index =>
    exact .bind (.mapError _ fun _ => ConstantPool.methodRef_of_le h) fun _ => .refl _
  | invokeDynamic index =>
    exact .bind (.mapError _ fun _ => ConstantPool.callSite_of_le h) fun _ => .refl _
  | _ => exact .refl _

theorem Node.refines_effect {p q : ConstantPool} (h : p ≤ q) (node : Node) :
    Refines (node.effect p) (node.effect q) := by
  cases node with
  | insn i => exact i.refines_stackEffect h
  | label | branch => exact .refl _

namespace MethodBody

variable {body : MethodBody} {pool : ConstantPool}

/-- Control may go on from a node to the one behind it, or to a label it jumps to. -/
inductive Edge (body : MethodBody) (node : Node) (position : Nat) : Nat → Prop where
  | next (h : node.fallsThrough = true) : Edge body node position (position + 1)
  | jump {label : Label} {target : Nat} (h : label ∈ node.jumpTargets)
      (placed : body.nodes[target]? = some (.label label)) : Edge body node position target

/-- Some path gets to the position with the given height of the stack. The height is an integer, so
that a path may also take more than there is. -/
inductive Arrives (body : MethodBody) (pool : ConstantPool) : (position : Nat) → (height : Int) → Prop
  where
  | start : Arrives body pool 0 0
  | handler {handler : Handler} {position : Nat} (h : handler ∈ body.handlers)
      (placed : body.nodes[position]? = some (.label handler.handler)) : Arrives body pool position 1
  | step {position next : Nat} {height : Int} {node : Node} {effect : StackEffect}
      (before : Arrives body pool position height) (found : body.nodes[position]? = some node)
      (resolved : node.effect pool = .ok effect) (edge : Edge body node position next) :
      Arrives body pool next (height - effect.pops + effect.pushes)

/-- The effect of a node is known, its targets are placed, and before and after it the height of the
stack lies within the bounds. -/
structure StaysWithin (body : MethodBody) (pool : ConstantPool) (node : Node) (height : Int)
    (bound : Nat) (effect : StackEffect) : Prop where
  resolved : node.effect pool = .ok effect
  enough : effect.pops ≤ height
  before : height ≤ bound
  after : height - effect.pops + effect.pushes ≤ bound
  targets : ∀ label ∈ node.jumpTargets, .label label ∈ body.nodes

/-- An envelope covers a body if every path keeps to its bound on the stack, all paths to a node have
one height there, and every access to a local, reached or not, keeps to the bound on the locals. -/
structure CoveredBy (body : MethodBody) (pool : ConstantPool) (envelope : Envelope) : Prop where
  entered : ∀ handler ∈ body.handlers, .label handler.handler ∈ body.nodes
  within : ∀ position height node, body.Arrives pool position height →
    body.nodes[position]? = some node →
      ∃ effect, body.StaysWithin pool node height envelope.maxStack.toNat effect
  agree : ∀ position first second node, body.Arrives pool position first →
    body.Arrives pool position second → body.nodes[position]? = some node → first = second
  locals : ∀ insn slot width, .insn insn ∈ body.nodes → insn.localAccess? = some (slot, width) →
    slot.toNat + width ≤ envelope.maxLocals.toNat

theorem Arrives.of_refines {p q : ConstantPool} (h : p ≤ q) {position : Nat} {height : Int}
    (within : ∀ position height node, body.Arrives p position height →
      body.nodes[position]? = some node → ∃ effect, node.effect p = .ok effect)
    (arrives : body.Arrives q position height) : body.Arrives p position height := by
  induction arrives with
  | start => exact .start
  | handler hm placed => exact .handler hm placed
  | step _ found resolved edge ih =>
    obtain ⟨effect, he⟩ := within _ _ _ ih found
    cases Except.ok.inj (resolved.symm.trans (Node.refines_effect h _ _ he))
    exact .step ih found he edge

/-- A larger pool changes nothing about a body that is covered. -/
theorem CoveredBy.of_le {p q : ConstantPool} (h : p ≤ q) {envelope : Envelope}
    (covered : body.CoveredBy p envelope) : body.CoveredBy q envelope := by
  have back : ∀ {position : Nat} {height : Int}, body.Arrives q position height →
      body.Arrives p position height := Arrives.of_refines h fun position height node ha hn => by
    obtain ⟨effect, hw⟩ := covered.within position height node ha hn
    exact ⟨effect, hw.resolved⟩
  refine ⟨covered.entered, fun position height node ha hn => ?_, fun position first second node ha hb =>
    covered.agree position first second node (back ha) (back hb), covered.locals⟩
  obtain ⟨effect, hw⟩ := covered.within position height node (back ha) hn
  exact ⟨effect, node.refines_effect h _ hw.resolved, hw.enough, hw.before, hw.after, hw.targets⟩

end MethodBody

section Positions

/-- Behind more nodes, the position of the last counts. -/
theorem labelPositions_append (nodes : List Node) (node : Node) :
    labelPositions (nodes ++ [node]) = match node with
      | .label label => (labelPositions nodes).set label.number nodes.length
      | _ => labelPositions nodes := by
  have count : ∀ (nodes : List Node) (found : NatMap Nat) (start : Nat),
      (nodes.foldl (fun (counted : NatMap Nat × Nat) node =>
        match node with
        | .label label => (counted.1.set label.number counted.2, counted.2 + 1)
        | _ => (counted.1, counted.2 + 1)) (found, start)).2 = start + nodes.length := by
    intro nodes
    induction nodes with
    | nil => exact fun _ _ => rfl
    | cons first rest ih =>
      intro found start
      rw [List.foldl_cons, List.length_cons]
      cases first <;> (dsimp only; rw [ih]; omega)
  unfold labelPositions
  rw [List.foldl_append]
  cases node with
  | label label =>
    exact congrArg (NatMap.set _ label.number) ((count nodes .empty 0).trans (Nat.zero_add _))
  | insn | branch => rfl

/-- A label has a position exactly if it is placed, and the label stands at its position. -/
theorem get?_labelPositions (nodes : List Node) (label : Label) :
    (∀ position, (labelPositions nodes).get? label.number = some position →
      nodes[position]? = some (.label label)) ∧
      (.label label ∈ nodes → ((labelPositions nodes).get? label.number).isSome) := by
  induction nodes using List.reverseRecOn with
  | nil => exact ⟨nofun, nofun⟩
  | append_singleton nodes node ih =>
    obtain ⟨found, placed⟩ := ih
    have before : ∀ position, (labelPositions nodes).get? label.number = some position →
        (nodes ++ [node])[position]? = some (.label label) := fun position h => by
      obtain ⟨hlt, -⟩ := List.getElem?_eq_some_iff.1 (found position h)
      rw [List.getElem?_append_left hlt]
      exact found position h
    rw [labelPositions_append]
    cases node with
    | label other =>
      dsimp only
      rw [NatMap.get?_set]
      by_cases hsame : label.number = other.number
      · obtain rfl : label = other := by
          cases label
          cases other
          exact congrArg Label.mk hsame
        rw [if_pos rfl]
        refine ⟨fun position h => ?_, fun _ => rfl⟩
        cases h
        rw [List.getElem?_append_right (Nat.le_refl _), Nat.sub_self]
        rfl
      · rw [if_neg hsame]
        refine ⟨before, fun h => placed ?_⟩
        rcases List.mem_append.1 h with h | h
        · exact h
        · cases List.mem_singleton.1 h
          exact absurd rfl hsame
    | insn | branch =>
      refine ⟨before, fun h => placed ?_⟩
      rcases List.mem_append.1 h with h | h
      · exact h
      · cases List.mem_singleton.1 h

/-- A label that is placed once has one position. -/
theorem position_unique {nodes : List Node} (h : (nodes.filterMap Node.label?).Nodup) {label : Label}
    {p q : Nat} (hp : nodes[p]? = some (.label label)) (hq : nodes[q]? = some (.label label)) :
    p = q := by
  induction nodes generalizing p q with
  | nil => cases hp
  | cons first rest ih =>
    have inner : (rest.filterMap Node.label?).Nodup :=
      h.sublist ((List.sublist_cons_self first rest).filterMap _)
    have once : first = .label label → ∀ i : Nat, rest[i]? ≠ some (.label label) := fun he i hi => by
      subst he
      rw [List.filterMap_cons] at h
      exact (List.nodup_cons.1 h).1 (List.mem_filterMap.2 ⟨_, List.mem_of_getElem? hi, rfl⟩)
    cases p with
    | zero =>
      cases q with
      | zero => rfl
      | succ q => exact absurd hq (once (Option.some.inj hp) q)
    | succ p =>
      cases q with
      | zero => exact absurd hp (once (Option.some.inj hq) p)
      | succ q => exact congrArg Nat.succ (ih inner hp hq)

end Positions

end ClassWeave
