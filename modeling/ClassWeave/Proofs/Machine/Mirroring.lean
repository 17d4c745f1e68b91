import ClassWeave.Proofs.Code.Aligning
import ClassWeave.Proofs.Machine.Shifting

/-!
Code in the midst of other code. A run of nodes that is like some code does what that code does, whatever
comes before it and wherever labels stand in it: it ends in the same way, or gets to its own end with what the
code has there. Handlers are left out.
-/

namespace ClassWeave

variable {M : Machine}

/-- The same move but for the target of a jump. -/
inductive Move.Related (R : Label → Label → Prop) : Move M → Move M → Prop where
  | next (locals : Locals M) (stack : List M.Slot) (world : World M) :
    Related R (.next locals stack world) (.next locals stack world)
  | jump {target other : Label} (stack : List M.Slot) :
    R target other → Related R (.jump target stack) (.jump other stack)
  | returned (values : List M.Slot) : Related R (.returned values) (.returned values)
  | thrown (exception : M.Slot) (world : World M) : Related R (.thrown exception world) (.thrown exception world)
  | stuck : Related R .stuck .stuck

theorem Move.JumpsTo.related {move : Move M} (h : move.JumpsTo []) (R : Label → Label → Prop) :
    move.Related R move := by
  cases move with
  | next locals stack world => exact .next locals stack world
  | jump target stack => cases h
  | returned values => exact .returned values
  | thrown exception world => exact .thrown exception world
  | stuck => exact .stuck

namespace Branch

variable {R : Label → Label → Prop} {target other : Label} {locals : Locals M} {stack : List M.Slot}
  {world : World M}

theorem related_decide (h : R target other) (test : M.Slot → Bool) :
    (decide test target locals stack world).Related R (decide test other locals stack world) := by
  cases stack with
  | nil => exact .stuck
  | cons value rest =>
    unfold decide
    dsimp only
    split
    · exact .jump rest h
    · exact .next locals rest world

theorem related_decide₂ (h : R target other) (test : M.Slot → M.Slot → Bool) :
    (decide₂ test target locals stack world).Related R (decide₂ test other locals stack world) := by
  match stack with
  | [] => exact .stuck
  | [_] => exact .stuck
  | b :: a :: rest =>
    unfold decide₂
    dsimp only
    split
    · exact .jump rest h
    · exact .next locals rest world

theorem related_entry {targets others : List Label} (hd : R target other) (ht : List.Forall₂ R targets others)
    (low key : Int32) : R (entry target low targets key) (entry other low others key) := by
  have all : ∀ i : Nat, R (targets[i]?.getD target) (others[i]?.getD other) := by
    induction ht with
    | nil => exact fun _ => hd
    | cons first _ ih =>
      intro i
      cases i with
      | zero => exact first
      | succ i => exact ih i
  unfold entry
  split
  · exact all _
  · exact hd

theorem related_lookup {targets others : List (Int32 × Label)} (hd : R target other)
    (ht : List.Forall₂ (fun t u => t.1 = u.1 ∧ R t.2 u.2) targets others) (key : Int32) :
    R ((targets.lookup key).getD target) ((others.lookup key).getD other) := by
  induction ht with
  | nil => exact hd
  | @cons a b _ _ first _ ih =>
    obtain ⟨k, t⟩ := a
    obtain ⟨k', u⟩ := b
    obtain ⟨rfl, h⟩ := first
    rw [List.lookup_cons, List.lookup_cons]
    cases key == k with
    | true => exact h
    | false => exact ih

/-- Related branches decide in the same way. -/
theorem Related.run {branch found : Branch Label} (h : branch.Related R found) (locals : Locals M)
    (stack : List M.Slot) (world : World M) :
    (branch.run locals stack world).Related R (found.run locals stack world) := by
  cases h with
  | ifZero h => exact related_decide h _
  | ifInts h => exact related_decide₂ h _
  | ifRefs h => exact related_decide₂ h _
  | ifNull h => exact related_decide h _
  | goto h => exact .jump stack h
  | tableSwitch hd ht =>
    cases stack with
    | nil => exact .stuck
    | cons key rest => exact .jump rest (related_entry hd ht _ _)
  | lookupSwitch hd ht =>
    cases stack with
    | nil => exact .stuck
    | cons key rest => exact .jump rest (related_lookup hd ht _)
  | «return» kind =>
    cases kind with
    | none => exact .returned []
    | some kind =>
      unfold Branch.run
      dsimp only
      split
      · exact .returned _
      · exact .stuck
  | raise =>
    cases stack with
    | nil => exact .stuck
    | cons value rest => exact .thrown _ _

end Branch

namespace Node

variable {nodes : List Node} {node : Node} {label : Label} {i j : Nat}

theorem length_instructions_take_succ (h : nodes[j]? = some node) :
    (instructions (nodes.take (j + 1))).length =
      (instructions (nodes.take j)).length + if node.isLabel then 0 else 1 := by
  rw [List.take_add_one, h, instructions_append, List.length_append]
  cases node <;> rfl

/-- An instruction has its number among the instructions. -/
theorem getElem?_instructions (h : nodes[j]? = some node) (plain : node.isLabel = false) :
    (instructions nodes)[(instructions (nodes.take j)).length]? = some node := by
  induction nodes generalizing j with
  | nil => cases h
  | cons first rest ih =>
    cases j with
    | zero =>
      obtain rfl := Option.some.inj h
      cases first with
      | label label => cases plain
      | insn insn => rfl
      | branch branch => rfl
    | succ j =>
      have hrest := ih (j := j) h
      cases first with
      | label label => exact hrest
      | insn insn => exact hrest
      | branch branch => exact hrest

theorem findIdx?_split {before after : List Node} (hnew : .label label ∉ before) :
    (before ++ .label label :: after).findIdx? (· = .label label) = some before.length := by
  have hnone : before.findIdx? (· = .label label) = none := by
    apply List.findIdx?_eq_none_iff.2
    exact fun node hm => decide_eq_false fun he => hnew (he ▸ hm)
  rw [List.findIdx?_append, hnone, List.findIdx?_cons, decide_eq_true rfl]
  simp

/-- Where a label first stands. -/
theorem findIdx?_of_indexOf? (h : indexOf? nodes label = some i) :
    ∃ p ≤ nodes.length, nodes.findIdx? (· = .label label) = some p ∧ (instructions (nodes.take p)).length = i := by
  obtain ⟨before, after, rfl, hnew, rfl⟩ := indexOf?_eq_some.1 h
  exact ⟨before.length, by simp, findIdx?_split hnew, by rw [List.take_left]⟩

end Node

namespace Program

/-- A program has a run of nodes that is like some code, and no handlers. -/
structure Mirrors (program : Program) (code before run after : List Node) : Prop where
  nodes : program.nodes = before ++ run ++ after
  handlers : program.handlers = []
  alike : Node.Alike code run
  apart : ∀ label, .label label ∈ run → .label label ∉ before

/-- The same number of instructions is in front of a position of the code and one of the run. -/
structure Level (code run : List Node) (i j : Nat) : Prop where
  left : i ≤ code.length
  right : j ≤ run.length
  count : (Node.instructions (run.take j)).length = (Node.instructions (code.take i)).length

/-- What comes of a state in the run if the code comes to an outcome. -/
def Comes (program : Program) (code before run : List Node) (s : State M) : Outcome M → Prop
  | .running t => ∃ k, Level code run t.position k ∧
    program.Reaches s ⟨before.length + k, t.locals, t.stack, t.world⟩
  | .returned values world => ∃ n, program.after n s = .returned values world
  | .escaped exception world => ∃ n, program.after n s = .escaped exception world
  | .stuck => True

theorem Comes.of_reaches {program : Program} {code before run : List Node} {s t : State M} {outcome : Outcome M}
    (h : program.Comes code before run t outcome) (reaches : program.Reaches s t) :
    program.Comes code before run s outcome := by
  obtain ⟨m, hm⟩ := reaches
  cases outcome with
  | running next =>
    obtain ⟨k, level, hreaches⟩ := h
    exact ⟨k, level, .trans ⟨m, hm⟩ hreaches⟩
  | returned values world =>
    obtain ⟨n, hn⟩ := h
    exact ⟨m + n, (after_add hm n).trans hn⟩
  | escaped exception world =>
    obtain ⟨n, hn⟩ := h
    exact ⟨m + n, (after_add hm n).trans hn⟩
  | stuck => trivial

namespace Mirrors

variable {program : Program} {code before run after : List Node} {i j : Nat} {node : Node}
  (h : program.Mirrors code before run after)
include h

theorem getElem?_nodes (hj : j < run.length) : program.nodes[before.length + j]? = run[j]? := by
  rw [h.nodes, List.append_assoc, List.getElem?_append_right (Nat.le_add_right _ _), Nat.add_sub_cancel_left,
    List.getElem?_append_left hj]

/-- Control passes the labels in front of the next instruction of the run. -/
theorem reaches_past_labels (hj : j ≤ run.length) :
    ∃ k ≤ run.length, (Node.instructions (run.take k)).length = (Node.instructions (run.take j)).length ∧
      (∀ node, run[k]? = some node → node.isLabel = false) ∧
        ∀ {M : Machine} (locals : Locals M) (stack : List M.Slot) (world : World M), program.Reaches
          ⟨before.length + j, locals, stack, world⟩ ⟨before.length + k, locals, stack, world⟩ := by
  induction hn : run.length - j generalizing j with
  | zero =>
    refine ⟨j, hj, rfl, fun node hnode => ?_, fun _ _ _ => .refl _⟩
    have hlt := (List.getElem?_eq_some_iff.1 hnode).1
    omega
  | succ n ih =>
    by_cases hlabel : ∃ label, run[j]? = some (.label label)
    · obtain ⟨label, hlabel⟩ := hlabel
      have hlt := (List.getElem?_eq_some_iff.1 hlabel).1
      obtain ⟨k, hk, hcount, hplain, hreaches⟩ := ih (j := j + 1) (by omega) (by omega)
      refine ⟨k, hk, ?_, hplain, fun locals stack world => .trans (.next ?_) (hreaches locals stack world)⟩
      · rw [hcount, Node.length_instructions_take_succ hlabel]
        rfl
      · rw [move, h.getElem?_nodes hlt, hlabel]
    · refine ⟨j, hj, rfl, fun node hnode => ?_, fun _ _ _ => .refl _⟩
      cases node with
      | label label => exact (hlabel ⟨label, hnode⟩).elim
      | insn insn => rfl
      | branch branch => rfl

/-- Where the code has an instruction the run has a related one, some labels further on. -/
theorem exists_related (level : Level code run i j) (hnode : code[i]? = some node) (plain : node.isLabel = false) :
    ∃ k < run.length, ∃ other, run[k]? = some other ∧ node.Related (Node.Aligned code run) other ∧
      Level code run (i + 1) (k + 1) ∧
        ∀ {M : Machine} (locals : Locals M) (stack : List M.Slot) (world : World M), program.Reaches
          ⟨before.length + j, locals, stack, world⟩ ⟨before.length + k, locals, stack, world⟩ := by
  obtain ⟨k, hk, hcount, hnext, hreaches⟩ := h.reaches_past_labels level.right
  rw [level.count] at hcount
  have hindex := Node.getElem?_instructions hnode plain
  have hbound := (List.getElem?_eq_some_iff.1 hindex).1
  rw [h.alike.length_eq] at hbound
  have hlt : k < run.length := by
    by_contra hge
    rw [List.take_of_length_le (by omega)] at hcount
    omega
  have hother := List.getElem?_eq_getElem hlt
  have hplain := hnext _ hother
  have hindex' := Node.getElem?_instructions hother hplain
  rw [hcount] at hindex'
  have hrelated : node.Related (Node.Aligned code run) run[k] := by
    obtain ⟨hin, he⟩ := List.getElem?_eq_some_iff.1 hindex
    obtain ⟨hin', he'⟩ := List.getElem?_eq_some_iff.1 hindex'
    rw [← he, ← he']
    exact h.alike.get hin hin'
  refine ⟨k, hlt, run[k], hother, hrelated, ⟨?_, hlt, ?_⟩, hreaches⟩
  · exact (List.getElem?_eq_some_iff.1 hnode).1
  · rw [Node.length_instructions_take_succ hnode, Node.length_instructions_take_succ hother, plain, hplain, hcount]

/-- A target of the run is where the target of the code is. -/
theorem exists_target {target other : Label} (aligned : Node.Aligned code run target other) :
    ∃ p q, code.findIdx? (· = .label target) = some p ∧ program.position? other = some (before.length + q) ∧
      Level code run p q := by
  obtain ⟨number, hi, hj⟩ := aligned
  obtain ⟨p, hp, hfound, hcount⟩ := Node.findIdx?_of_indexOf? hi
  obtain ⟨q, hq, hfound', hcount'⟩ := Node.findIdx?_of_indexOf? hj
  refine ⟨p, q, hfound, ?_, hp, hq, hcount'.trans hcount.symm⟩
  have hm : .label other ∈ run := by
    obtain ⟨front, back, rfl, -, -⟩ := Node.indexOf?_eq_some.1 hj
    exact List.mem_append_right _ List.mem_cons_self
  have hnone : before.findIdx? (· = .label other) = none := by
    apply List.findIdx?_eq_none_iff.2
    exact fun node hn => decide_eq_false fun he => h.apart other hm (he ▸ hn)
  rw [position?, h.nodes, List.append_assoc, List.findIdx?_append, hnone, List.findIdx?_append, hfound']
  simp [Nat.add_comm]

/-- Related instructions come to the same. -/
theorem comes_of_related {other : Node} {k : Nat} (hnode : code[i]? = some node) (hother : run[k]? = some other)
    (plain : node.isLabel = false) (related : node.Related (Node.Aligned code run) other)
    (level : Level code run (i + 1) (k + 1)) (locals : Locals M) (stack : List M.Slot) (world : World M) :
    program.Comes code before run ⟨before.length + k, locals, stack, world⟩
      ((Program.mk code [] program.pool).step ⟨i, locals, stack, world⟩) := by
  have hfound : program.nodes[before.length + k]? = some other := by
    rw [h.getElem?_nodes (List.getElem?_eq_some_iff.1 hother).1, hother]
  have moves : ((Program.mk code [] program.pool).move ⟨i, locals, stack, world⟩).Related
      (Node.Aligned code run) (program.move ⟨before.length + k, locals, stack, world⟩) := by
    unfold move
    dsimp only
    rw [hnode, hfound]
    cases related with
    | insn insn => exact (insn.jumpsTo_run _ _ _ _).related _
    | branch hbranch => exact hbranch.run locals stack world
  generalize hmove : (Program.mk code [] program.pool).move ⟨i, locals, stack, world⟩ = move at moves
  generalize hdone : program.move ⟨before.length + k, locals, stack, world⟩ = done at moves
  rw [step, hmove]
  cases moves with
  | next locals' stack' world' => exact ⟨k + 1, level, .next hdone⟩
  | jump stack' aligned =>
    obtain ⟨p, q, hp, hq, target⟩ := h.exists_target aligned
    have hplaced : (Program.mk code [] program.pool).position? _ = some p := hp
    dsimp only
    rw [hplaced]
    exact ⟨q, target, .jump hdone hq⟩
  | returned values => exact ⟨1, after_one.trans (by rw [step, hdone])⟩
  | thrown exception world' =>
    refine ⟨1, after_one.trans ?_⟩
    rw [step, hdone]
    dsimp only
    rw [handlerFor?, h.handlers]
    rfl
  | stuck => trivial

/-- A step of the code is done in the run, too. -/
theorem comes_of_step (level : Level code run i j) (locals : Locals M) (stack : List M.Slot) (world : World M) :
    program.Comes code before run ⟨before.length + j, locals, stack, world⟩
      ((Program.mk code [] program.pool).step ⟨i, locals, stack, world⟩) := by
  have instruction : ∀ node, code[i]? = some node → node.isLabel = false →
      program.Comes code before run ⟨before.length + j, locals, stack, world⟩
        ((Program.mk code [] program.pool).step ⟨i, locals, stack, world⟩) := by
    intro node hnode plain
    obtain ⟨k, -, other, hother, hrelated, next, hreaches⟩ := h.exists_related level hnode plain
    exact (h.comes_of_related hnode hother plain hrelated next locals stack world).of_reaches
      (hreaches locals stack world)
  cases hnode : code[i]? with
  | none =>
    rw [step, move, hnode]
    trivial
  | some node =>
    cases node with
    | label label =>
      rw [step, move, hnode]
      refine ⟨j, ⟨(List.getElem?_eq_some_iff.1 hnode).1, level.right, ?_⟩, .refl _⟩
      rw [Node.length_instructions_take_succ hnode, level.count]
      rfl
    | insn insn => exact instruction _ hnode rfl
    | branch branch => exact instruction _ hnode rfl

theorem comes_of_after (level : Level code run i j) (locals : Locals M) (stack : List M.Slot) (world : World M)
    (n : Nat) : program.Comes code before run ⟨before.length + j, locals, stack, world⟩
      ((Program.mk code [] program.pool).after n ⟨i, locals, stack, world⟩) := by
  induction n generalizing i j locals stack world with
  | zero => exact ⟨j, level, .refl _⟩
  | succ n ih =>
    have first := h.comes_of_step level locals stack world
    rw [Program.after]
    cases hstep : (Program.mk code [] program.pool).step ⟨i, locals, stack, world⟩ with
    | running next =>
      rw [hstep] at first
      obtain ⟨k, level', hreaches⟩ := first
      exact (ih level' next.locals next.stack next.world).of_reaches hreaches
    | returned values world' =>
      rw [hstep] at first
      exact first
    | escaped exception world' =>
      rw [hstep] at first
      exact first
    | stuck => trivial

end Mirrors

/-- From one node to another a program does what some code does alone. -/
structure Imitates (program : Program) (code : List Node) (first last : Nat) : Prop where
  returns : ∀ {M : Machine} (locals : Locals M) (stack : List M.Slot) (world : World M) (n : Nat)
    (values : List M.Slot) (world' : World M),
    (Program.mk code [] program.pool).after n ⟨0, locals, stack, world⟩ = .returned values world' →
      ∃ m, program.after m ⟨first, locals, stack, world⟩ = .returned values world'
  throws : ∀ {M : Machine} (locals : Locals M) (stack : List M.Slot) (world : World M) (n : Nat)
    (exception : M.Slot) (world' : World M),
    (Program.mk code [] program.pool).after n ⟨0, locals, stack, world⟩ = .escaped exception world' →
      ∃ m, program.after m ⟨first, locals, stack, world⟩ = .escaped exception world'
  passes : ∀ {M : Machine} (locals : Locals M) (stack : List M.Slot) (world : World M)
    (locals' : Locals M) (stack' : List M.Slot) (world' : World M),
    (Program.mk code [] program.pool).Reaches ⟨0, locals, stack, world⟩ ⟨code.length, locals', stack', world'⟩ →
      program.Reaches ⟨first, locals, stack, world⟩ ⟨last, locals', stack', world'⟩

theorem Mirrors.imitates {program : Program} {code before run after : List Node}
    (h : program.Mirrors code before run after) :
    program.Imitates code before.length (before.length + run.length) := by
  have start : Level code run 0 0 := ⟨Nat.zero_le _, Nat.zero_le _, rfl⟩
  constructor
  case returns =>
    intro M locals stack world n values world' hn
    have comes := h.comes_of_after start locals stack world n
    rw [hn] at comes
    exact comes
  case throws =>
    intro M locals stack world n exception world' hn
    have comes := h.comes_of_after start locals stack world n
    rw [hn] at comes
    exact comes
  case passes =>
    intro M locals stack world locals' stack' world' hreaches
    obtain ⟨n, hn⟩ := hreaches
    have comes := h.comes_of_after start locals stack world n
    rw [hn] at comes
    obtain ⟨k, level, hreaches⟩ := comes
    -- All instructions are behind, so only labels are left of the run.
    obtain ⟨l, hl, hcount, hnext, hpast⟩ := h.reaches_past_labels level.right
    have hall : (Node.instructions (run.take l)).length = (Node.instructions run).length := by
      rw [hcount, level.count, List.take_length, h.alike.length_eq]
    have hend : l = run.length := by
      by_contra hne
      have hlt : l < run.length := by omega
      have hnode := List.getElem?_eq_getElem hlt
      have hbound := (List.getElem?_eq_some_iff.1 (Node.getElem?_instructions hnode (hnext _ hnode))).1
      omega
    exact hreaches.trans (hend ▸ hpast locals' stack' world')

end Program

end ClassWeave
