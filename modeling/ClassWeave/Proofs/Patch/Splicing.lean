import ClassWeave.Proofs.Patch.Observing
import ClassWeave.Proofs.Script.Climbing

/-!
Old code with new code in front of it and behind it. Control goes from the front to the old code with an empty
stack, jumps stay where they are, and what runs into the back has the height that the back starts with. So the heights
of the stack are those of the old code and those along the new code.
-/

namespace ClassWeave

/-- New code with the heights of the stack along it. All its jumps stay inside. -/
structure Stretch (pool : ConstantPool) (level : Label → Option Nat) (entry : Nat) (peak : UInt16)
    (nodes : List Node) (exit : Option Nat) : Prop where
  climbs : Climbs pool level entry peak nodes.reverse exit
  closed : ∀ node ∈ nodes, ∀ target ∈ node.jumpTargets, .label target ∈ nodes

namespace Stretch

variable {pool : ConstantPool} {level : Label → Option Nat} {entry : Nat} {peak : UInt16} {nodes : List Node}
  {exit : Option Nat} {position height : Nat} {node : Node}

/-- The height of the stack where control gets to a node: that of a label, or that behind the nodes before it. -/
inductive Rises (pool : ConstantPool) (level : Label → Option Nat) (entry : Nat) (peak : UInt16)
    (nodes : List Node) : (position height : Nat) → Prop where
  | label {position height : Nat} {label : Label} (found : nodes[position]? = some (.label label))
      (levelled : level label = some height) : Rises pool level entry peak nodes position height
  | behind {position height : Nat} {node : Node} (found : nodes[position]? = some node)
      (plain : node.isLabel = false)
      (climbs : Climbs pool level entry peak (nodes.take position).reverse (some height)) :
      Rises pool level entry peak nodes position height

theorem Rises.lt (h : Rises pool level entry peak nodes position height) : position < nodes.length := by
  cases h with
  | label found | behind found => exact (List.getElem?_eq_some_iff.1 found).1

theorem Rises.ne_nil (h : Rises pool level entry peak nodes position height) : nodes ≠ [] :=
  List.ne_nil_of_length_pos (Nat.zero_lt_of_lt h.lt)

theorem Rises.unique {other : Nat} (h : Rises pool level entry peak nodes position height)
    (h' : Rises pool level entry peak nodes position other) : height = other := by
  cases h with
  | label found levelled =>
    cases h' with
    | label found' levelled' =>
      cases found.symm.trans found'
      exact Option.some.inj (levelled.symm.trans levelled')
    | behind found' plain =>
      cases found.symm.trans found'
      cases plain
  | behind found plain climbs =>
    cases h' with
    | label found' levelled' =>
      cases found.symm.trans found'
      cases plain
    | behind _ _ climbs' => exact Option.some.inj (climbs.unique climbs')

theorem reverse_take_succ (found : nodes[position]? = some node) :
    (nodes.take (position + 1)).reverse = node :: (nodes.take position).reverse := by
  rw [List.take_add_one, found]
  simp

variable (S : Stretch pool level entry peak nodes exit)
include S

theorem climbs_take (position : Nat) : ∃ before, Climbs pool level entry peak (nodes.take position).reverse before := by
  have h := S.climbs
  rw [← List.take_append_drop position nodes, List.reverse_append] at h
  exact h.earlier

/-- What is behind the nodes before a node is what control gets there with. -/
theorem reach (hlt : position < nodes.length)
    (h : Climbs pool level entry peak (nodes.take position).reverse (some height)) :
    Rises pool level entry peak nodes position height := by
  have found := List.getElem?_eq_getElem hlt
  obtain ⟨after, climbs⟩ := S.climbs_take (position + 1)
  rw [reverse_take_succ found] at climbs
  cases hnode : nodes[position] with
  | label label =>
    rw [hnode] at found climbs
    cases climbs with
    | arrive before levelled falls => exact .label found (falls height (before.unique h) ▸ levelled)
    | idle before => cases h.unique before
  | insn | branch => exact .behind (hnode ▸ found) rfl h

theorem rises_start (present : nodes ≠ []) : Rises pool level entry peak nodes 0 entry := by
  obtain ⟨before, climbs⟩ := S.climbs_take 0
  have hstart : before = some entry := by
    cases climbs
    rfl
  exact S.reach (List.length_pos_of_ne_nil present) (hstart ▸ climbs)

/-- What a node does with the height that control gets to it with. -/
theorem visit (rises : Rises pool level entry peak nodes position height) (found : nodes[position]? = some node) :
    UInt16.ofNat height ≤ peak ∧ ∃ effect, node.effect pool = .ok effect ∧ effect.pops ≤ height ∧
      (effect.pushes = 0 ∨ UInt16.ofNat (height - effect.pops + effect.pushes) ≤ peak) ∧
      (∀ target ∈ node.jumpTargets, level target = some (height - effect.pops + effect.pushes)) ∧
      (node.fallsThrough = true → Climbs pool level entry peak (nodes.take (position + 1)).reverse
        (some (height - effect.pops + effect.pushes))) := by
  obtain ⟨after, climbs⟩ := S.climbs_take (position + 1)
  rw [reverse_take_succ found] at climbs ⊢
  cases rises with
  | label found' levelled =>
    cases found.symm.trans found'
    cases climbs with
    | idle _ unlevelled => cases unlevelled.symm.trans levelled
    | arrive before levelled' falls bounded =>
      cases levelled.symm.trans levelled'
      exact ⟨bounded, ⟨0, 0⟩, rfl, Nat.zero_le _, .inl rfl, nofun, fun _ => .arrive before levelled falls bounded⟩
  | behind found' plain before =>
    cases found.symm.trans found'
    refine ⟨before.bounded, ?_⟩
    cases climbs with
    | arrive | idle => cases plain
    | insn before' resolved enough bounded =>
      cases before.unique before'
      exact ⟨_, resolved, enough, .inr bounded, nofun, fun _ => .insn before resolved enough bounded⟩
    | branch before' enough targets goes bounded =>
      cases before.unique before'
      refine ⟨⟨_, 0⟩, rfl, enough, .inl rfl, targets, fun falls => ?_⟩
      have hgoes : after = some (height - _) := goes.trans (if_pos falls)
      exact hgoes ▸ .branch before enough targets goes bounded

/-- Heights that fit the field of a bound are not above the bound. -/
theorem le_peak (rises : Rises pool level entry peak nodes position height) (fits : height ≤ 65535) :
    height ≤ peak.toNat := by
  obtain ⟨bounded, -⟩ := S.visit rises (List.getElem?_eq_getElem rises.lt)
  have hle := UInt16.le_iff_toNat_le.1 bounded
  rwa [ConstantPool.toNat_ofNat_of_lt fits] at hle

theorem after_le_peak (rises : Rises pool level entry peak nodes position height)
    (found : nodes[position]? = some node) {effect : StackEffect} (resolved : node.effect pool = .ok effect)
    (fits : height ≤ 65535) (fits' : height - effect.pops + effect.pushes ≤ 65535) :
    height - effect.pops + effect.pushes ≤ peak.toNat := by
  obtain ⟨-, _, resolved', -, bounded, -⟩ := S.visit rises found
  cases Except.ok.inj (resolved.symm.trans resolved')
  rcases bounded with hnone | bounded
  · have := S.le_peak rises fits
    omega
  · have hle := UInt16.le_iff_toNat_le.1 bounded
    rwa [ConstantPool.toNat_ofNat_of_lt fits'] at hle

/-- In a body where the nodes are from a position on, control goes on inside, or to what is behind them. -/
theorem step {body : MethodBody} {first next : Nat} {effect : StackEffect}
    (unique : (body.nodes.filterMap Node.label?).Nodup)
    (located : ∀ i < nodes.length, body.nodes[first + i]? = nodes[i]?)
    (rises : Rises pool level entry peak nodes position height) (found : nodes[position]? = some node)
    (resolved : node.effect pool = .ok effect) (edge : body.Edge node (first + position) next) :
    ∃ after, (height : Int) - effect.pops + effect.pushes = (after : Nat) ∧
      ((∃ i, next = first + i ∧ Rises pool level entry peak nodes i after) ∨
        next = first + nodes.length ∧ exit = some after) := by
  obtain ⟨-, _, resolved', enough, -, targets, falls⟩ := S.visit rises found
  cases Except.ok.inj (resolved.symm.trans resolved')
  refine ⟨height - effect.pops + effect.pushes, by omega, ?_⟩
  cases edge with
  | next hfalls =>
    have climbs := falls hfalls
    rcases Nat.lt_or_ge (position + 1) nodes.length with hlt | hge
    · exact .inl ⟨position + 1, Nat.add_assoc _ _ _, S.reach hlt climbs⟩
    · have hlast : position + 1 = nodes.length := Nat.le_antisymm rises.lt hge
      rw [hlast, List.take_length] at climbs
      exact .inr ⟨by rw [← hlast, Nat.add_assoc], S.climbs.unique climbs⟩
  | @jump label target ht placed =>
    obtain ⟨i, hi⟩ := List.getElem?_of_mem (S.closed node (List.mem_of_getElem? found) label ht)
    obtain ⟨hlt, -⟩ := List.getElem?_eq_some_iff.1 hi
    have hsame := position_unique unique placed ((located i hlt).trans hi)
    exact .inl ⟨i, hsame, .label hi (targets label ht)⟩

/-- Control stays within the bound at a node, if all heights that the stack has there fit the field of the bound. -/
theorem staysWithin {body : MethodBody} {place : Nat}
    (rises : Rises pool level entry peak nodes position height) (inside : nodes[position]? = some node)
    (subset : nodes ⊆ body.nodes) (arrives : body.Arrives pool place height) (found : body.nodes[place]? = some node)
    (fits : ∀ height, body.Stands pool place height → height ≤ 65535) :
    height ≤ peak.toNat ∧ ∃ effect, body.StaysWithin pool node height 65535 effect ∧
      height - effect.pops + effect.pushes ≤ peak.toNat := by
  obtain ⟨-, effect, resolved, enough, -⟩ := S.visit rises inside
  have hbefore := fits height (.before arrives found)
  have hafter := fits (height - effect.pops + effect.pushes) (.after arrives found resolved (by omega))
  exact ⟨S.le_peak rises hbefore, effect, ⟨resolved, by omega, by omega, by omega, fun label ht =>
    subset (S.closed node (List.mem_of_getElem? inside) label ht)⟩,
    S.after_le_peak rises inside resolved hbefore hafter⟩

end Stretch

namespace MethodBody

variable {old body : MethodBody} {pool : ConstantPool} {position height : Nat}

/-- Heights of the stack in front of so many nodes of a body, or behind them. -/
def StandsOutside (body : MethodBody) (pool : ConstantPool) (first count height : Nat) : Prop :=
  ∃ position, body.Stands pool position height ∧ (position < first ∨ first + count ≤ position)

/-- A body made of an old one, with a stretch of code in front of its nodes and one behind them. -/
structure Spliced (old body : MethodBody) (pool : ConstantPool) (front back : List Node)
    (level level' : Label → Option Nat) (peak : UInt16) (exit : Option Nat) : Prop where
  nodes : body.nodes = front ++ (old.nodes ++ back)
  shape : body.shape = old.shape
  unique : (body.nodes.filterMap Node.label?).Nodup
  closed : ∀ node ∈ old.nodes, ∀ target ∈ node.jumpTargets, .label target ∈ old.nodes
  before : Stretch pool level 0 peak front exit
  behind : back ≠ [] → Stretch pool level' 1 peak back none
  /-- The front ends with an empty stack. -/
  enters : ∀ height, exit = some height → height = 0
  /-- What runs into the back has what a handler starts with. -/
  runs : back ≠ [] → ∀ height, old.Arrives pool old.nodes.length height → height = 1
  handlers : ∀ handler ∈ body.handlers, (handler ∈ old.handlers ∧ .label handler.handler ∈ old.nodes) ∨
    (.label handler.handler ∈ front ∧ level handler.handler = some 1) ∨
    (.label handler.handler ∈ back ∧ level' handler.handler = some 1)

namespace Spliced

open Stretch

variable {front back : List Node} {level level' : Label → Option Nat} {peak : UInt16} {exit : Option Nat}

/-- Where a path through the body is, with the height it has in that part. -/
inductive Meets (old : MethodBody) (pool : ConstantPool) (front back : List Node) (level level' : Label → Option Nat)
    (peak : UInt16) : (position : Nat) → (height : Int) → Prop where
  | front {i n : Nat} (rises : Rises pool level 0 peak front i n) : Meets old pool front back level level' peak i n
  | old {i : Nat} {height : Int} (inside : i < old.nodes.length) (arrives : old.Arrives pool i height) :
      Meets old pool front back level level' peak (front.length + i) height
  | back {i n : Nat} (rises : Rises pool level' 1 peak back i n) :
      Meets old pool front back level level' peak (front.length + old.nodes.length + i) n
  | past {position : Nat} {height : Int} (outside : front.length + old.nodes.length + back.length ≤ position) :
      Meets old pool front back level level' peak position height

namespace Meets

variable {i : Nat} {n : Int} (h : Meets old pool front back level level' peak position n)
include h

theorem rises_front (hlt : position < front.length) : ∃ m : Nat, n = m ∧ Rises pool level 0 peak front position m := by
  cases h with
  | front rises => exact ⟨_, rfl, rises⟩
  | old | back | past => omega

theorem arrives (hi : i < old.nodes.length) (hp : position = front.length + i) : old.Arrives pool i n := by
  cases h with
  | front rises =>
    have := rises.lt
    omega
  | old inside arrives =>
    obtain rfl := Nat.add_left_cancel hp
    exact arrives
  | back | past => omega

theorem rises_back (hi : i < back.length) (hp : position = front.length + old.nodes.length + i) :
    ∃ m : Nat, n = m ∧ Rises pool level' 1 peak back i m := by
  cases h with
  | front rises =>
    have := rises.lt
    omega
  | back rises =>
    obtain rfl := Nat.add_left_cancel hp
    exact ⟨_, rfl, rises⟩
  | old | past => omega

end Meets

variable (h : old.Spliced body pool front back level level' peak exit)
include h

theorem length : body.nodes.length = front.length + old.nodes.length + back.length := by
  rw [h.nodes, List.length_append, List.length_append, Nat.add_assoc]

theorem getElem?_front {i : Nat} (hi : i < front.length) : body.nodes[i]? = front[i]? := by
  rw [h.nodes, List.getElem?_append_left hi]

theorem getElem?_old {i : Nat} (hi : i < old.nodes.length) : body.nodes[front.length + i]? = old.nodes[i]? := by
  rw [h.nodes, List.getElem?_append_right (Nat.le_add_right _ _), Nat.add_sub_cancel_left, List.getElem?_append_left hi]

theorem getElem?_back (i : Nat) : body.nodes[front.length + old.nodes.length + i]? = back[i]? := by
  rw [h.nodes, Nat.add_assoc, List.getElem?_append_right (Nat.le_add_right _ _), Nat.add_sub_cancel_left,
    List.getElem?_append_right (Nat.le_add_right _ _), Nat.add_sub_cancel_left]

/-- A label of the old nodes is where it was, behind the front. -/
theorem position_old {label : Label} {found : Nat} (hm : .label label ∈ old.nodes)
    (placed : body.nodes[found]? = some (.label label)) :
    ∃ i < old.nodes.length, found = front.length + i ∧ old.nodes[i]? = some (.label label) := by
  obtain ⟨i, hi⟩ := List.getElem?_of_mem hm
  obtain ⟨hlt, -⟩ := List.getElem?_eq_some_iff.1 hi
  exact ⟨i, hlt, position_unique h.unique placed ((h.getElem?_old hlt).trans hi), hi⟩

/-- Old code that is reached is entered at its start, or goes on as it did. -/
theorem meets_old {i : Nat} {n : Int} (arrives : old.Arrives pool i n) (hle : i ≤ old.nodes.length) :
    Meets old pool front back level level' peak (front.length + i) n := by
  rcases Nat.lt_or_eq_of_le hle with hlt | rfl
  · exact .old hlt arrives
  · by_cases hback : back = []
    · exact .past (by rw [hback]; exact Nat.le_refl _)
    · obtain rfl := h.runs hback n arrives
      exact .back ((h.behind hback).rises_start hback)

theorem meets_start : Meets old pool front back level level' peak 0 0 := by
  by_cases hfront : front = []
  · have old := h.meets_old .start (Nat.zero_le _)
    rwa [hfront] at old ⊢
  · exact .front (h.before.rises_start hfront)

theorem meets_step {next : Nat} {n : Int} {node : Node} {effect : StackEffect}
    (meets : Meets old pool front back level level' peak position n) (found : body.nodes[position]? = some node)
    (resolved : node.effect pool = .ok effect) (edge : body.Edge node position next) :
    Meets old pool front back level level' peak next (n - effect.pops + effect.pushes) := by
  cases meets with
  | @front i n rises =>
    rw [h.getElem?_front rises.lt] at found
    have located : ∀ j < front.length, body.nodes[0 + j]? = front[j]? := fun j hj => by
      rw [Nat.zero_add]
      exact h.getElem?_front hj
    obtain ⟨after, hafter, ⟨j, rfl, rises'⟩ | ⟨rfl, hexit⟩⟩ := h.before.step h.unique located rises found resolved
      (by rwa [Nat.zero_add])
    · rw [hafter, Nat.zero_add]
      exact .front rises'
    · obtain rfl := h.enters after hexit
      rw [hafter, Nat.zero_add]
      exact h.meets_old .start (Nat.zero_le _)
  | @old i _ inside arrives =>
    rw [h.getElem?_old inside] at found
    cases edge with
    | next falls =>
      have onward := Arrives.step arrives found resolved (.next falls)
      rw [Nat.add_assoc]
      exact h.meets_old onward inside
    | jump ht placed =>
      have hm := h.closed node (List.mem_of_getElem? found) _ ht
      obtain ⟨j, hj, rfl, hplaced⟩ := h.position_old hm placed
      exact .old hj (Arrives.step arrives found resolved (.jump ht hplaced))
  | @back i n rises =>
    rw [h.getElem?_back] at found
    obtain ⟨after, hafter, ⟨j, rfl, rises'⟩ | ⟨-, hexit⟩⟩ := (h.behind rises.ne_nil).step h.unique
      (fun j _ => h.getElem?_back j) rises found resolved edge
    · rw [hafter]
      exact .back rises'
    · cases hexit
  | past outside =>
    obtain ⟨hlt, -⟩ := List.getElem?_eq_some_iff.1 found
    have hlength := h.length
    omega

/-- Every path through the body is a path of the old code, or has a height of the new code. -/
theorem meets {n : Int} (arrives : body.Arrives pool position n) :
    Meets old pool front back level level' peak position n := by
  induction arrives with
  | start => exact h.meets_start
  | @handler handler found hm placed =>
    rcases h.handlers handler hm with ⟨hold, hplaced⟩ | ⟨hplaced, hlevel⟩ | ⟨hplaced, hlevel⟩
    · obtain ⟨i, hi, rfl, hfound⟩ := h.position_old hplaced placed
      exact .old hi (.handler hold hfound)
    · obtain ⟨i, hi⟩ := List.getElem?_of_mem hplaced
      obtain ⟨hlt, -⟩ := List.getElem?_eq_some_iff.1 hi
      obtain rfl := position_unique h.unique placed ((h.getElem?_front hlt).trans hi)
      exact .front (.label hi hlevel)
    · obtain ⟨i, hi⟩ := List.getElem?_of_mem hplaced
      obtain rfl := position_unique h.unique placed ((h.getElem?_back i).trans hi)
      exact .back (.label hi hlevel)
  | step _ found resolved edge ih => exact h.meets_step ih found resolved edge

/-- Where a node of the body comes from. -/
theorem range {node : Node} (found : body.nodes[position]? = some node) :
    (position < front.length ∧ front[position]? = some node) ∨
      (∃ i < old.nodes.length, position = front.length + i ∧ old.nodes[i]? = some node) ∨
      ∃ i < back.length, position = front.length + old.nodes.length + i ∧ back[i]? = some node := by
  obtain ⟨hlt, -⟩ := List.getElem?_eq_some_iff.1 found
  have hlength := h.length
  rcases Nat.lt_or_ge position front.length with hfront | hfront
  · exact .inl ⟨hfront, (h.getElem?_front hfront).symm.trans found⟩
  obtain ⟨i, rfl⟩ := Nat.exists_eq_add_of_le hfront
  rcases Nat.lt_or_ge i old.nodes.length with hold | hold
  · exact .inr (.inl ⟨i, hold, rfl, (h.getElem?_old hold).symm.trans found⟩)
  obtain ⟨j, rfl⟩ := Nat.exists_eq_add_of_le hold
  rw [← Nat.add_assoc] at found
  exact .inr (.inr ⟨j, by omega, (Nat.add_assoc _ _ _).symm, (h.getElem?_back j).symm.trans found⟩)

/-- Heights are those of the old code, or are in what is in front of it or behind it. -/
theorem stands (stands : body.Stands pool position height) :
    (∃ i, old.Stands pool i height) ∨ body.StandsOutside pool front.length old.nodes.length height := by
  cases stands with
  | start => exact .inl ⟨0, .start⟩
  | before arrives found =>
    rcases h.range found with ⟨hlt, -⟩ | ⟨i, hi, rfl, hold⟩ | ⟨i, hi, rfl, -⟩
    · exact .inr ⟨position, .before arrives found, .inl hlt⟩
    · exact .inl ⟨i, .before ((h.meets arrives).arrives hi rfl) hold⟩
    · exact .inr ⟨_, .before arrives found, .inr (Nat.le_add_right _ _)⟩
  | after arrives found resolved balance =>
    rcases h.range found with ⟨hlt, -⟩ | ⟨i, hi, rfl, hold⟩ | ⟨i, hi, rfl, -⟩
    · exact .inr ⟨position, .after arrives found resolved balance, .inl hlt⟩
    · exact .inl ⟨i, .after ((h.meets arrives).arrives hi rfl) hold resolved balance⟩
    · exact .inr ⟨_, .after arrives found resolved balance, .inr (Nat.le_add_right _ _)⟩

theorem agree (observable : old.Observable pool) {first second : Int} {node : Node}
    (ha : body.Arrives pool position first) (hb : body.Arrives pool position second)
    (found : body.nodes[position]? = some node) : first = second := by
  rcases h.range found with ⟨hlt, -⟩ | ⟨i, hi, hp, hold⟩ | ⟨i, hi, hp, -⟩
  · obtain ⟨n, rfl, rises⟩ := (h.meets ha).rises_front hlt
    obtain ⟨m, rfl, rises'⟩ := (h.meets hb).rises_front hlt
    exact congrArg Nat.cast (rises.unique rises')
  · exact observable.agree i first second node ((h.meets ha).arrives hi hp) ((h.meets hb).arrives hi hp) hold
  · obtain ⟨n, rfl, rises⟩ := (h.meets ha).rises_back hi hp
    obtain ⟨m, rfl, rises'⟩ := (h.meets hb).rises_back hi hp
    exact congrArg Nat.cast (rises.unique rises')

section Fits

variable (fits : ∀ height, body.StandsOutside pool front.length old.nodes.length height → height ≤ 65535)
include fits

/-- If the heights in new code fit the field of a bound, they are not above the bound. -/
theorem staysWithin_outside {n : Int} {node : Node} (arrives : body.Arrives pool position n)
    (found : body.nodes[position]? = some node)
    (outside : position < front.length ∨ front.length + old.nodes.length ≤ position) :
    ∃ m : Nat, n = m ∧ m ≤ peak.toNat ∧ ∃ effect, body.StaysWithin pool node m 65535 effect ∧
      m - effect.pops + effect.pushes ≤ peak.toNat := by
  have here : ∀ height, body.Stands pool position height → height ≤ 65535 := fun height stands =>
    fits height ⟨position, stands, outside⟩
  rcases h.range found with ⟨hlt, hfront⟩ | ⟨i, hi, hp, -⟩ | ⟨i, hi, hp, hback⟩
  · obtain ⟨m, rfl, rises⟩ := (h.meets arrives).rises_front hlt
    have subset : front ⊆ body.nodes := h.nodes ▸ List.subset_append_left _ _
    exact ⟨m, rfl, h.before.staysWithin rises hfront subset arrives found here⟩
  · omega
  · obtain ⟨m, rfl, rises⟩ := (h.meets arrives).rises_back hi hp
    have subset : back ⊆ body.nodes := by
      rw [h.nodes, ← List.append_assoc]
      exact List.subset_append_right _ _
    exact ⟨m, rfl, (h.behind rises.ne_nil).staysWithin rises hback subset arrives found here⟩

theorem le_peak (outside : body.StandsOutside pool front.length old.nodes.length height) : height ≤ peak.toNat := by
  obtain ⟨position, stands, outside⟩ := outside
  cases stands with
  | start => exact Nat.zero_le _
  | before arrives found =>
    obtain ⟨m, hm, hle, -⟩ := h.staysWithin_outside fits arrives found outside
    omega
  | after arrives found resolved balance =>
    obtain ⟨m, rfl, -, effect, stay, hle⟩ := h.staysWithin_outside fits arrives found outside
    cases Except.ok.inj (resolved.symm.trans stay.resolved)
    have henough := stay.enough
    omega

/-- Some envelope can be declared for the body, if one can for the old code. -/
theorem observable (observable : old.Observable pool)
    (locals : ∀ insn, .insn insn ∈ body.nodes → insn.slots ≤ 65535) : body.Observable pool where
  entered handler hm := by
    rw [h.nodes, List.mem_append, List.mem_append]
    rcases h.handlers handler hm with ⟨-, hplaced⟩ | ⟨hplaced, -⟩ | ⟨hplaced, -⟩
    · exact .inr (.inl hplaced)
    · exact .inl hplaced
    · exact .inr (.inr hplaced)
  within position n node arrives found := by
    have outside (out : position < front.length ∨ front.length + old.nodes.length ≤ position) :
        ∃ effect, body.StaysWithin pool node n 65535 effect := by
      obtain ⟨m, rfl, -, effect, stay, -⟩ := h.staysWithin_outside fits arrives found out
      exact ⟨effect, stay⟩
    rcases h.range found with ⟨hlt, -⟩ | ⟨i, hi, hp, hold⟩ | ⟨i, -, hp, -⟩
    · exact outside (.inl hlt)
    · obtain ⟨effect, stay⟩ := observable.within i n node ((h.meets arrives).arrives hi hp) hold
      refine ⟨effect, stay.resolved, stay.enough, stay.before, stay.after, fun label ht => ?_⟩
      rw [h.nodes, List.mem_append, List.mem_append]
      exact .inr (.inl (stay.targets label ht))
    · exact outside (.inr (by omega))
  agree position first second node ha hb found := h.agree observable ha hb found
  locals slots needs := by
    cases needs with
    | parameters => exact Nat.le_of_lt_succ body.shape.parameterSlots.toNat_lt
    | access arrives found haccess =>
      have hle := locals _ (List.mem_of_getElem? found)
      rwa [Insn.slots_of_access haccess] at hle

end Fits

end Spliced

end MethodBody

end ClassWeave
