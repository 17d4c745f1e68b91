import ClassWeave.Proofs.Machine.Walking
import ClassWeave.Proofs.Script.Evaluating

/-!
The code of a condition jumps to its target if the condition has the value to jump for, and goes on behind
it if not. Conditions that are decided are skipped, so what runs is what evaluating the condition runs.
-/

namespace ClassWeave

open Evaluating Compiler Builder

variable {M : Machine} {host : Host} {c c₁ c' : Compiler} {label target : Label} {filled : Set Nat}

theorem Comparison.holds_not (comparison : Comparison) (a b : Int32) :
    comparison.not.holds a b = !comparison.holds a b := by
  cases comparison <;> simp only [holds, not, ← decide_not, Int32.not_le, Int32.not_lt, ne_eq, not_not]

/-- Conditions that are evaluated up to the first with a value other than the neutral one. -/
def Cond.joined (shape : MethodShape) (scope : Scope) (neutral : Bool) (conditions : List Cond)
    (store : Store M) : Evaluating M Bool :=
  if neutral then Cond.allHold shape scope store conditions
  else Cond.anyHolds shape scope store conditions

theorem Cond.joined_nil (shape : MethodShape) (scope : Scope) (neutral : Bool) (store : Store M) :
    Cond.joined shape scope neutral [] store = pure neutral := by
  cases neutral <;> rfl

theorem Cond.joined_cons (shape : MethodShape) (scope : Scope) (neutral : Bool) (first : Cond)
    (rest : List Cond) (store : Store M) :
    Cond.joined shape scope neutral (first :: rest) store =
      first.holds shape scope store >>= fun holds =>
        if holds = neutral then Cond.joined shape scope neutral rest store else pure !neutral := by
  cases neutral with
  | true =>
    rfl
  | false =>
    refine congrArg (first.holds shape scope store >>= ·) (funext fun holds => ?_)
    cases holds <;> rfl

namespace Host

/-- The position is that of a label, or behind the code, and control may be there. -/
def Gets (host : Host) (c : Compiler) (label : Option Label) (filled : Set Nat) (position : Nat) : Prop :=
  match label with
  | some label => host.program.position? label = some position ∧ c.builder.Lands label filled
  | none => position = c.position ∧ c.builder.Arrives [] filled

section Labels

variable {B : Builder} {u : Unit}

theorem stays_fresh (h : (liftM fresh : Compiling Label) c = .ok label c') :
    Stays c c' ∧ label.number < c'.builder.labels.allocated ∧ c'.builder.frame = c.builder.frame ∧
      c'.position = c.position := by
  obtain ⟨B, hB, rfl⟩ := lift_eq_ok.1 h
  obtain ⟨rfl, rfl⟩ := Builder.fresh_eq_ok.1 hB
  exact ⟨⟨.step .fresh, .of_eq rfl, rfl, rfl, rfl⟩, Nat.lt_succ_self _, rfl, rfl⟩

theorem nodes_place (h : place label c.builder = .ok u B) :
    B.nodes = .label label :: c.builder.nodes ∧ .label label ∉ c.builder.nodes := by
  obtain ⟨ahead, frame, -, rfl⟩ := place_eq_ok h
  refine ⟨placed_nodes _ _ _, fun hm => ?_⟩
  rw [(isPlaced_iff _ _).2 hm] at ahead
  cases ahead

theorem stays_placed {frame : EditFrame} (known : label.number < c.builder.labels.allocated)
    (ahead : c.builder.isPlaced label = false) (arrives : c.builder.arrival? label = some frame) :
    Stays c { c with builder := c.builder.placed label frame } where
  run := (closes_placed known ahead arrives).run
  balanced := balanced_placed _ _ _
  scope := rfl
  nextLocal := rfl
  handlers := placed_handlers _ _ _

theorem stays_place (known : label.number < c.builder.labels.allocated)
    (h : place label c.builder = .ok u B) : Stays c { c with builder := B } := by
  obtain ⟨ahead, frame, arrives, rfl⟩ := place_eq_ok h
  exact stays_placed known ahead arrives

theorem nodes_pushBranch {branch : Branch Label} (h : pushBranch branch c.builder = .ok u B) :
    B.nodes = .branch branch :: c.builder.nodes := by
  obtain ⟨before, after, D, -, -, jumps, rfl⟩ := pushBranch_eq_ok h
  rw [append_nodes, jumps.nodes_eq]

theorem stays_pushBranch {branch : Branch Label}
    (known : ∀ target ∈ branch.jumpTargets, target.number < c.builder.labels.allocated)
    (plain : branch.isTable = false) (h : pushBranch branch c.builder = .ok u B) :
    Stays c { c with builder := B } where
  run := (extends_pushBranch known plain h).run
  balanced := by
    obtain ⟨before, after, D, -, -, jumps, rfl⟩ := pushBranch_eq_ok h
    exact .trans (.of_eq jumps.regions_eq)
      (.append { D with frame := if branch.fallsThrough then some after else none } _ _)
  scope := rfl
  nextLocal := rfl
  handlers := by
    obtain ⟨before, after, D, -, -, jumps, rfl⟩ := pushBranch_eq_ok h
    exact (append_handlers _ _ _).trans jumps.handlers_eq

theorem known_target {branch : Branch Label} {bound : Nat} (targets : branch.jumpTargets = [label])
    (known : label.number < bound) : ∀ target ∈ branch.jumpTargets, target.number < bound := by
  rw [targets]
  exact List.forall_mem_singleton.2 known

theorem placeIfReachable_eq_ok (h : placeIfReachable label c = .ok u c') :
    (c' = c ∧ c.builder.isReachable = false ∧ c.builder.isJumpedTo label = false) ∨
      ∃ B, place label c.builder = .ok u B ∧ c' = { c with builder := B } := by
  unfold placeIfReachable at h
  rw [isReachable_bind_eq_ok, isJumpedTo_bind_eq_ok] at h
  cases hr : c.builder.isReachable || c.builder.isJumpedTo label with
  | true =>
    rw [hr] at h
    exact .inr (lift_eq_ok.1 h)
  | false =>
    rw [hr] at h
    obtain ⟨-, rfl⟩ := pure_eq_ok.1 h
    rw [Bool.or_eq_false_iff] at hr
    exact .inl ⟨rfl, hr⟩

theorem stays_placeIfReachable (known : label.number < c.builder.labels.allocated)
    (h : placeIfReachable label c = .ok u c') : Stays c c' := by
  rcases placeIfReachable_eq_ok h with ⟨rfl, -⟩ | ⟨B, hB, rfl⟩
  · exact .refl _
  · exact stays_place known hB

theorem gotoIfReachable_cases (h : gotoIfReachable label c = .ok u c') :
    (c' = c ∧ c.builder.isReachable = false) ∨
      ∃ B, pushBranch (.goto label) c.builder = .ok u B ∧ c' = { c with builder := B } := by
  unfold gotoIfReachable at h
  rw [isReachable_bind_eq_ok] at h
  cases hr : c.builder.isReachable with
  | true =>
    rw [hr] at h
    exact .inr (lift_eq_ok.1 h)
  | false =>
    rw [hr] at h
    obtain ⟨-, rfl⟩ := pure_eq_ok.1 h
    exact .inl ⟨rfl, rfl⟩

theorem stays_gotoIfReachable (known : label.number < c.builder.labels.allocated)
    (h : gotoIfReachable label c = .ok u c') : Stays c c' := by
  rcases gotoIfReachable_cases h with ⟨rfl, -⟩ | ⟨B, hB, rfl⟩
  · exact .refl _
  · exact stays_pushBranch (known_target rfl known) rfl hB

variable {locals : Locals M} {stack : List M.Slot} {world : World M} {position : Nat}

theorem walks_label (contains : host.Contains c') (hn : c'.builder.nodes = .label label :: c.builder.nodes) :
    host.program.Walks ⟨c.position, locals, stack, world⟩ [] ⟨c'.position, locals, stack, world⟩ := by
  refine .steered (fun insn hnode => ?_) (contains.step_label hn)
  rw [contains.getElem?_position hn] at hnode
  cases hnode

theorem walks_jumping {branch : Branch Label} {stack' : List M.Slot} (contains : host.Contains c')
    (hn : c'.builder.nodes = .branch branch :: c.builder.nodes)
    (hrun : branch.run locals stack world = .jump label stack')
    (hposition : host.program.position? label = some position) :
    host.program.Walks ⟨c.position, locals, stack, world⟩ [] ⟨position, locals, stack', world⟩ := by
  refine .steered (fun insn hnode => ?_) ?_
  · rw [contains.getElem?_position hn] at hnode
    cases hnode
  · rw [Program.step, contains.move_branch hn, hrun]
    dsimp only
    rw [hposition]

theorem walks_falling {branch : Branch Label} {stack' : List M.Slot} (contains : host.Contains c')
    (hn : c'.builder.nodes = .branch branch :: c.builder.nodes)
    (hrun : branch.run locals stack world = .next locals stack' world) :
    host.program.Walks ⟨c.position, locals, stack, world⟩ [] ⟨c'.position, locals, stack', world⟩ := by
  refine .steered (fun insn hnode => ?_) ?_
  · rw [contains.getElem?_position hn] at hnode
    cases hnode
  · rw [Program.step, contains.move_branch hn, hrun, show c'.position = c.position + 1 by
      rw [Compiler.position, hn]; rfl]

/-- A label in front of which control may be, or to which it may jump, is passed. -/
theorem walks_place (contains : host.Contains { c with builder := B })
    (h : place label c.builder = .ok u B) {from? : Option Label} (hfrom : ∀ l, from? = some l → l = label)
    (hg : host.Gets c from? locals.filled position) :
    host.program.Walks ⟨position, locals, stack, world⟩ []
        ⟨({ c with builder := B } : Compiler).position, locals, stack, world⟩ ∧
      B.Arrives [] locals.filled := by
  obtain ⟨hn, new⟩ := nodes_place h
  cases from? with
  | none =>
    obtain ⟨rfl, ha⟩ := hg
    exact ⟨walks_label contains hn, arrives_of_place h ha⟩
  | some l =>
    obtain ⟨hposition, hl⟩ := hg
    rw [hfrom l rfl] at hposition hl
    rw [contains.position?_label hn new] at hposition
    cases hposition
    exact ⟨walks_label contains hn, arrives_of_lands h hl⟩

theorem reaches_place (contains : host.Contains { c with builder := B })
    (h : place label c.builder = .ok u B) {from? : Option Label} (hfrom : ∀ l, from? = some l → l = label)
    (hg : host.Gets c from? locals.filled position) :
    host.program.Reaches ⟨position, locals, stack, world⟩
        ⟨({ c with builder := B } : Compiler).position, locals, stack, world⟩ ∧
      B.Arrives [] locals.filled :=
  (walks_place contains h hfrom hg).imp_left Program.Walks.reaches

/-- Control that may be in front of the label, or jump to it, gets behind it. -/
theorem walks_placeIfReachable (contains : host.Contains c') (h : placeIfReachable label c = .ok u c')
    {from? : Option Label} (hfrom : ∀ l, from? = some l → l = label)
    (hg : host.Gets c from? locals.filled position) :
    host.program.Walks ⟨position, locals, stack, world⟩ [] ⟨c'.position, locals, stack, world⟩ ∧
      c'.builder.Arrives [] locals.filled := by
  rcases placeIfReachable_eq_ok h with ⟨rfl, unreachable, unjumped⟩ | ⟨B, hB, rfl⟩
  · cases from? with
    | none =>
      rw [hg.2.isReachable] at unreachable
      cases unreachable
    | some l =>
      have hjumped := hg.2.isJumpedTo
      rw [hfrom l rfl, unjumped] at hjumped
      cases hjumped
  · exact walks_place contains hB hfrom hg

theorem reaches_placeIfReachable (contains : host.Contains c') (h : placeIfReachable label c = .ok u c')
    {from? : Option Label} (hfrom : ∀ l, from? = some l → l = label)
    (hg : host.Gets c from? locals.filled position) :
    host.program.Reaches ⟨position, locals, stack, world⟩ ⟨c'.position, locals, stack, world⟩ ∧
      c'.builder.Arrives [] locals.filled :=
  (walks_placeIfReachable contains h hfrom hg).imp_left Program.Walks.reaches

/-- Control that gets to a jump gets to its target. -/
theorem walks_jump (contains : host.Contains { c with builder := B })
    (h : pushBranch (.goto label) c.builder = .ok u B) (ha : c.builder.Arrives [] locals.filled) :
    ∃ position,
      host.program.Walks ⟨c.position, locals, stack, world⟩ [] ⟨position, locals, stack, world⟩ ∧
        host.Gets { c with builder := B } (some label) locals.filled position := by
  have hn := nodes_pushBranch h
  obtain ⟨position, hposition⟩ := contains.targets _ (hn ▸ List.mem_cons_self) label List.mem_cons_self
  obtain ⟨lands, -⟩ := arrives_of_pushBranch h (fun _ => .pure ()) ha
  exact ⟨position, walks_jumping contains hn rfl hposition, hposition, lands label List.mem_cons_self⟩

theorem reaches_jump (contains : host.Contains { c with builder := B })
    (h : pushBranch (.goto label) c.builder = .ok u B) (ha : c.builder.Arrives [] locals.filled) :
    ∃ position,
      host.program.Reaches ⟨c.position, locals, stack, world⟩ ⟨position, locals, stack, world⟩ ∧
        host.Gets { c with builder := B } (some label) locals.filled position := by
  obtain ⟨position, walks, hg⟩ := @walks_jump M host c label B u locals stack world contains h ha
  exact ⟨position, walks.reaches, hg⟩

theorem reaches_goto (contains : host.Contains c') (h : gotoIfReachable label c = .ok u c')
    (ha : c.builder.Arrives [] locals.filled) : ∃ position,
      host.program.Reaches ⟨c.position, locals, stack, world⟩ ⟨position, locals, stack, world⟩ ∧
        host.Gets c' (some label) locals.filled position := by
  rcases gotoIfReachable_cases h with ⟨rfl, unreachable⟩ | ⟨B, hB, rfl⟩
  · rw [ha.isReachable] at unreachable
    cases unreachable
  · exact reaches_jump contains hB ha

end Labels

/-- The code of a condition. Where it has not the value to jump for, control may also be at other
labels. -/
structure Tests (M : Machine) (host : Host) (c c' : Compiler) (jumpIf : Bool) (target : Label)
    (others : List Label) (meaning : Store M → Evaluating M Bool) : Prop where
  stays : Stays c c'
  runs : host.Contains c' → ∀ store locals, host.Matches store locals →
    c.builder.Arrives [] locals.filled → ∀ stack world,
      host.program.Yields locals c.position c'.position ⟨c.position, locals, stack, world⟩
        (meaning store world) fun holds position stack' => stack' = stack ∧
          if holds = jumpIf then host.Gets c' (some target) locals.filled position
          else ∃ label?, (∀ label, label? = some label → label ∈ others) ∧
            host.Gets c' label? locals.filled position

namespace Tests

variable {jumpIf : Bool} {others : List Label} {meaning next : Store M → Evaluating M Bool}

theorem congr (h : Tests M host c c' jumpIf target others meaning)
    (heq : ∀ store, meaning store = next store) : Tests M host c c' jumpIf target others next := by
  rw [show next = meaning from funext fun store => (heq store).symm]
  exact h

theorem last (h : Tests M host c c' jumpIf target [] meaning) :
    Tests M host c c' jumpIf target others meaning where
  stays := h.stays
  runs contains store locals hm ha stack world := by
    refine (h.runs contains store locals hm ha stack world).mono le_rfl le_rfl fun holds _ _ hgoal => ?_
    refine ⟨hgoal.1, ?_⟩
    by_cases heq : holds = jumpIf
    · rw [if_pos heq]
      exact (if_pos heq).mp hgoal.2
    · rw [if_neg heq]
      obtain ⟨label?, hlabel, hg⟩ := (if_neg heq).mp hgoal.2
      exact ⟨label?, fun l hl => absurd (hlabel l hl) List.not_mem_nil, hg⟩

/-- No code goes on behind if there is nothing to jump for. -/
theorem nothing {value : Bool} (hne : value ≠ jumpIf) :
    Tests M host c c jumpIf target others fun (_ : Store M) => pure value where
  stays := .refl c
  runs _ _ _ _ ha _ _ := by
    refine .pure ⟨rfl, ?_⟩
    rw [if_neg hne]
    exact ⟨none, nofun, rfl, ha⟩

theorem not (h : Tests M host c c' (!jumpIf) target others meaning) :
    Tests M host c c' jumpIf target others fun store => do return !(← meaning store) where
  stays := h.stays
  runs contains store locals hm ha stack world := by
    refine (h.runs contains store locals hm ha stack world).bind fun holds position stack' world' _ hgoal => ?_
    refine .pure ⟨hgoal.1, ?_⟩
    have hgoal := hgoal.2
    cases holds <;> cases jumpIf <;> exact hgoal

end Tests

section Branches

variable {B : Builder} {u : Unit} {branch : Branch Label} {popped : List Nat} {jumpIf : Bool}

theorem takes_of_pushBranch (h : pushBranch branch c.builder = .ok u B)
    (shifts : ∀ returnType, Verifying.Shifts (branch.verify returnType) popped []) :
    c.builder.Takes popped := fun frame hframe => by
  obtain ⟨before, after, D, hf, hv, -, -⟩ := pushBranch_eq_ok h
  cases hf.symm.trans hframe
  obtain ⟨⟨rest, hbefore, -⟩, -⟩ := shifts _ _ _ _ hv
  exact ⟨rest, hbefore⟩

variable {locals : Locals M} {stack : List M.Slot} {world : World M}

/-- A test takes its operands and jumps, or goes on behind. -/
theorem walks_branch (operands : List M.Slot) (contains : host.Contains { c with builder := B })
    (h : pushBranch branch c.builder = .ok u B) (targets : branch.jumpTargets = [target])
    (falls : branch.fallsThrough = true)
    (shifts : ∀ returnType, Verifying.Shifts (branch.verify returnType) popped [])
    (ha : c.builder.Arrives popped locals.filled) (decision : Bool)
    (hrun : branch.run locals (operands ++ stack) world =
      if decision then .jump target stack else .next locals stack world) :
    ∃ position, host.program.Walks ⟨c.position, locals, operands ++ stack, world⟩ []
        ⟨position, locals, stack, world⟩ ∧
      host.Gets { c with builder := B } (if decision then some target else none) locals.filled
        position := by
  have hn := nodes_pushBranch h
  have ha' : c.builder.Arrives (popped ++ []) locals.filled := by rwa [List.append_nil]
  obtain ⟨lands, arrives⟩ := arrives_of_pushBranch h shifts ha'
  cases decision with
  | true =>
    obtain ⟨position, hposition⟩ := contains.targets _ (hn ▸ List.mem_cons_self) target
      (targets ▸ List.mem_cons_self)
    exact ⟨position, walks_jumping contains hn hrun hposition, hposition,
      lands target (targets ▸ List.mem_cons_self)⟩
  | false => exact ⟨_, walks_falling contains hn hrun, rfl, arrives falls⟩

theorem reaches_branch (operands : List M.Slot) (contains : host.Contains { c with builder := B })
    (h : pushBranch branch c.builder = .ok u B) (targets : branch.jumpTargets = [target])
    (falls : branch.fallsThrough = true)
    (shifts : ∀ returnType, Verifying.Shifts (branch.verify returnType) popped [])
    (ha : c.builder.Arrives popped locals.filled) (decision : Bool)
    (hrun : branch.run locals (operands ++ stack) world =
      if decision then .jump target stack else .next locals stack world) :
    ∃ position, host.program.Reaches ⟨c.position, locals, operands ++ stack, world⟩
        ⟨position, locals, stack, world⟩ ∧
      host.Gets { c with builder := B } (if decision then some target else none) locals.filled
        position := by
  obtain ⟨position, walks, hg⟩ := walks_branch operands contains h targets falls shifts ha decision hrun
  exact ⟨position, walks.reaches, hg⟩

/-- A test of a value of one slot. -/
theorem tests_value {w : Nat} {meaning : Store M → Evaluating M (List M.Slot)} (holds : M.Slot → Bool)
    (known : target.number < c.builder.labels.allocated)
    (computes : host.Computes c c₁ [] [w] fun store _ => meaning store)
    (h : pushBranch branch c₁.builder = .ok u B) (plain : branch.isTable = false)
    (targets : branch.jumpTargets = [target]) (falls : branch.fallsThrough = true)
    (shifts : ∀ returnType, Verifying.Shifts (branch.verify returnType) [1] [])
    (hrun : ∀ (locals : Locals M) value stack world, branch.run locals (value :: stack) world =
      if holds value == jumpIf then .jump target stack else .next locals stack world) :
    Tests M host c { c₁ with builder := B } jumpIf target [] fun store => do
      return holds (← narrow (← meaning store)) := by
  have stays := stays_pushBranch (known_target targets (known.trans_le computes.stays.run.allocated_le)) plain h
  have computes := computes.retake (takes_of_pushBranch h shifts) rfl
  refine ⟨computes.stays.trans stays, fun contains store locals hm ha stack world => ?_⟩
  have hrun₁ := (computes.runs (contains.of_goes stays.goes) store locals hm ha [] stack world rfl).mono
    le_rfl (position_le stays.run) fun _ _ _ hgoal => hgoal
  refine hrun₁.bind fun operands _ _ world' _ hgoal => ?_
  obtain ⟨rfl, rfl, hlength⟩ := hgoal
  obtain ⟨value, rfl⟩ := List.length_eq_one_iff.1 hlength
  obtain ⟨position, hreaches, hg⟩ := reaches_branch [value] contains h targets falls shifts
    (computes.arrives [] locals.filled ha) (holds value == jumpIf) (hrun locals value stack world')
  refine .after hreaches (.pure ⟨rfl, ?_⟩)
  by_cases heq : holds value = jumpIf
  · rw [if_pos heq]
    rwa [beq_iff_eq.2 heq] at hg
  · rw [if_neg heq]
    rw [beq_false_of_ne heq] at hg
    exact ⟨none, nofun, hg⟩

theorem run_compare (comparison : Comparison) (jumpIf : Bool) (target : Label) (locals : Locals M)
    (a b : M.Slot) (stack : List M.Slot) (world : World M) :
    (Branch.ifInts (if jumpIf then comparison else comparison.not) target).run locals (b :: a :: stack) world =
      if comparison.holds (M.toInt a) (M.toInt b) == jumpIf then .jump target stack
      else .next locals stack world := by
  cases jumpIf with
  | true =>
    rw [beq_true]
    rfl
  | false =>
    rw [beq_false, ← Comparison.holds_not]
    rfl

/-- A comparison of two values of one slot each. -/
theorem tests_compare {w v : Nat} {c₂ : Compiler} {left right : Store M → Evaluating M (List M.Slot)}
    (comparison : Comparison) (known : target.number < c.builder.labels.allocated)
    (ha : host.Computes c c₁ [] [w] fun store _ => left store)
    (hb : host.Computes c₁ c₂ [] [v] fun store _ => right store)
    (h : pushBranch (.ifInts (if jumpIf then comparison else comparison.not) target) c₂.builder = .ok u B) :
    Tests M host c { c₂ with builder := B } jumpIf target [] fun store => do
      let a ← left store
      let b ← right store
      return comparison.holds (M.toInt (← narrow a)) (M.toInt (← narrow b)) := by
  have shifts : ∀ returnType, Verifying.Shifts ((Branch.ifInts
      (if jumpIf then comparison else comparison.not) target).verify returnType) [1, 1] [] :=
    fun _ => Branch.shifts_ifInts _ _
  have takes := takes_of_pushBranch h shifts
  have stays := stays_pushBranch (known_target rfl (known.trans_le (ha.stays.trans hb.stays).run.allocated_le))
    rfl h
  have front := ha.stays.trans hb.stays
  refine ⟨front.trans stays, fun contains store locals hm harrives stack world => ?_⟩
  refine ha.runs_pair hb takes (contains.of_goes stays.goes) hm harrives (position_le stays.run)
    fun a b world => ?_
  have h₂ := ((ha.append hb).retake takes rfl).arrives [] locals.filled harrives
  obtain ⟨position, hreaches, hg⟩ := reaches_branch [b, a] contains h rfl rfl shifts h₂
    (comparison.holds (M.toInt a) (M.toInt b) == jumpIf)
    (run_compare comparison jumpIf target locals a b stack world)
  refine .after hreaches (.pure ⟨rfl, ?_⟩)
  by_cases heq : comparison.holds (M.toInt a) (M.toInt b) = jumpIf
  · rw [if_pos heq]
    rwa [beq_iff_eq.2 heq] at hg
  · rw [if_neg heq]
    rw [beq_false_of_ne heq] at hg
    exact ⟨none, nofun, hg⟩

end Branches

section Junctions

variable {jumpIf : Bool} {others : List Label} {meaning next : Store M → Evaluating M Bool}

/-- Control that is at a label or behind the code is so further on, if no code follows. -/
theorem Gets.later {label : Label} {position : Nat} (h : host.Gets c (some label) filled position)
    (hl : Later c.builder c'.builder) : host.Gets c' (some label) filled position :=
  ⟨h.1, h.2.later hl⟩

/-- Of two conditions the second is tested if the first has not the value to jump for. -/
theorem Tests.orElse (fine : Fine c.builder) (h : Tests M host c c₁ jumpIf target [] meaning)
    (h' : Tests M host c₁ c' jumpIf target [] next) :
    Tests M host c c' jumpIf target [] fun store => do
      if (← meaning store) = jumpIf then return jumpIf else next store where
  stays := h.stays.trans h'.stays
  runs contains store locals hm ha stack world := by
    have later := h'.stays.run.later (h.stays.run.fine fine)
    refine ((h.runs (contains.of_goes h'.stays.goes) store locals hm ha stack world).mono le_rfl
      (position_le h'.stays.run) fun _ _ _ hgoal => hgoal).bind fun holds position stack' world' _ hgoal => ?_
    obtain ⟨rfl, hgoal⟩ := hgoal
    by_cases heq : holds = jumpIf
    · rw [if_pos heq] at hgoal ⊢
      refine .pure ⟨rfl, ?_⟩
      rw [if_pos rfl]
      exact hgoal.later later
    · rw [if_neg heq] at hgoal ⊢
      obtain ⟨label?, hnone, hg⟩ := hgoal
      cases label? with
      | some label => exact absurd (hnone label rfl) List.not_mem_nil
      | none =>
        obtain ⟨rfl, ha₁⟩ := hg
        exact (h'.runs contains store locals hm ha₁ stack' world').mono (position_le h.stays.run) le_rfl
          fun _ _ _ hgoal => hgoal

/-- The first condition decides by skipping the second. -/
theorem Tests.andThen {skip : Label} (fine : Fine c.builder)
    (h : Tests M host c c₁ (!jumpIf) skip [] meaning) (h' : Tests M host c₁ c' jumpIf target [skip] next) :
    Tests M host c c' jumpIf target [skip] fun store => do
      if (← meaning store) = jumpIf then next store else return !jumpIf where
  stays := h.stays.trans h'.stays
  runs contains store locals hm ha stack world := by
    have later := h'.stays.run.later (h.stays.run.fine fine)
    refine ((h.runs (contains.of_goes h'.stays.goes) store locals hm ha stack world).mono le_rfl
      (position_le h'.stays.run) fun _ _ _ hgoal => hgoal).bind fun holds position stack' world' _ hgoal => ?_
    obtain ⟨rfl, hgoal⟩ := hgoal
    by_cases heq : holds = jumpIf
    · have hne : holds ≠ !jumpIf := by rw [heq]; exact (Bool.not_ne_self jumpIf).symm
      rw [if_neg hne] at hgoal
      rw [if_pos heq]
      obtain ⟨label?, hnone, hg⟩ := hgoal
      cases label? with
      | some label => exact absurd (hnone label rfl) List.not_mem_nil
      | none =>
        obtain ⟨rfl, ha₁⟩ := hg
        exact (h'.runs contains store locals hm ha₁ stack' world').mono (position_le h.stays.run) le_rfl
          fun _ _ _ hgoal => hgoal
    · rw [if_pos (Bool.eq_not.2 heq)] at hgoal
      rw [if_neg heq]
      refine .pure ⟨rfl, ?_⟩
      rw [if_neg (Bool.not_ne_self jumpIf)]
      exact ⟨some skip, fun l hl => by cases hl; exact List.mem_singleton_self skip, hgoal.later later⟩

/-- The last condition goes on behind the label that those before it skip to. -/
theorem Tests.close {skip : Label} {u : Unit} (fine : Fine c.builder)
    (h : Tests M host c c₁ jumpIf target [skip] meaning)
    (known : skip.number < c₁.builder.labels.allocated) (hskip : placeIfReachable skip c₁ = .ok u c') :
    Tests M host c c' jumpIf target [] meaning where
  stays := h.stays.trans (stays_placeIfReachable known hskip)
  runs contains store locals hm ha stack world := by
    have stays := stays_placeIfReachable known hskip
    have later := stays.run.later (h.stays.run.fine fine)
    refine ((h.runs (contains.of_goes stays.goes) store locals hm ha stack world).mono le_rfl
      (position_le stays.run) fun _ _ _ hgoal => hgoal).onward fun holds position stack' world' hgoal => ?_
    obtain ⟨rfl, hgoal⟩ := hgoal
    by_cases heq : holds = jumpIf
    · rw [if_pos heq] at hgoal
      exact ⟨position, stack', .refl _, rfl, (if_pos heq).symm ▸ hgoal.later later⟩
    · rw [if_neg heq] at hgoal
      obtain ⟨label?, hlabel, hg⟩ := hgoal
      obtain ⟨hreaches, ha'⟩ := reaches_placeIfReachable contains hskip
        (fun l hl => List.mem_singleton.1 (hlabel l hl)) hg
      exact ⟨c'.position, stack', hreaches, rfl, (if_neg heq).symm ▸ ⟨none, nofun, rfl, ha'⟩⟩

/-- Without conditions it is known what they are worth together. -/
theorem tests_junction {neutral isEmpty : Bool} {each : Compiling Unit} {lastOf : Label → Compiling Unit}
    {u : Unit} (fine : Fine c.builder) (known : target.number < c.builder.labels.allocated)
    (h : junction neutral jumpIf target isEmpty each lastOf c = .ok u c')
    (hempty : isEmpty = true → ∀ store, meaning store = pure neutral)
    (heach : jumpIf ≠ neutral → each c = .ok u c' → Tests M host c c' jumpIf target [] meaning)
    (hlast : isEmpty = false → jumpIf = neutral → ∀ skip c₁ c₂, Stays c c₁ → skip.number < c₁.builder.labels.allocated →
      lastOf skip c₁ = .ok () c₂ → Tests M host c₁ c₂ jumpIf target [skip] meaning) :
    Tests M host c c' jumpIf target [] meaning := by
  unfold junction at h
  cases isEmpty with
  | true =>
    rw [if_pos rfl] at h
    have hmeaning := hempty rfl
    by_cases heq : jumpIf = neutral
    · rw [if_pos heq] at h
      obtain ⟨B, hB, rfl⟩ := lift_eq_ok.1 h
      refine ⟨stays_pushBranch (known_target rfl known) rfl hB,
        fun contains store locals hm ha stack world => ?_⟩
      obtain ⟨position, hreaches, hg⟩ := reaches_jump contains hB ha
      rw [hmeaning]
      refine .after hreaches (.pure ⟨rfl, ?_⟩)
      rw [if_pos heq.symm]
      exact hg
    · rw [if_neg heq] at h
      obtain ⟨-, rfl⟩ := pure_eq_ok.1 h
      exact (Tests.nothing (Ne.symm heq)).congr fun store => (hmeaning store).symm
  | false =>
    rw [if_neg Bool.false_ne_true] at h
    by_cases heq : jumpIf = neutral
    · rw [if_neg (not_not.2 heq)] at h
      obtain ⟨skip, c₁, h₁, h⟩ := bind_eq_ok.1 h
      obtain ⟨_, c₂, h₂, h⟩ := bind_eq_ok.1 h
      obtain ⟨stays, hskip, hframe, hposition⟩ := stays_fresh h₁
      have tests := hlast rfl heq skip c₁ c₂ stays hskip h₂
      have closed := tests.close (stays.run.fine fine) (hskip.trans_le tests.stays.run.allocated_le) h
      refine ⟨stays.trans closed.stays, fun contains store locals hm ha stack world => ?_⟩
      rw [← hposition]
      exact closed.runs contains store locals hm (ha.of_eq hframe) stack world
    · rw [if_pos heq] at h
      exact heach heq h

end Junctions

section Conditions

variable (M : Machine) (host : Host)

mutual

theorem tests_cond : ∀ (condition : Cond) {jumpIf : Bool} {target : Label} {c c' : Compiler} {u : Unit},
    Fine c.builder → target.number < c.builder.labels.allocated → cond jumpIf target condition c = .ok u c' →
      Tests M host c c' jumpIf target [] fun store => condition.holds c.builder.shape c.names store
  | .isNull operand, jumpIf, target, c, c', u, _, known, h => by
    rw [Compiler.cond] at h
    obtain ⟨type, c₁, h₁, h⟩ := value_bind_eq_ok h
    obtain ⟨B, hB, rfl⟩ := lift_eq_ok.1 h
    refine tests_value M.isNull known (evaluates_expr M host operand h₁).value.2 hB rfl rfl rfl
      (fun _ => Branch.shifts_ifNull _ _) fun locals value stack world => ?_
    cases jumpIf <;> rfl
  | .notNull operand, jumpIf, target, c, c', u, _, known, h => by
    rw [Compiler.cond] at h
    obtain ⟨type, c₁, h₁, h⟩ := value_bind_eq_ok h
    obtain ⟨B, hB, rfl⟩ := lift_eq_ok.1 h
    refine tests_value (!M.isNull ·) known (evaluates_expr M host operand h₁).value.2 hB rfl rfl rfl
      (fun _ => Branch.shifts_ifNull _ _) fun locals value stack world => ?_
    cases jumpIf <;> cases hn : M.isNull value <;> simp [Branch.run, Branch.decide, hn]
  | .isTrue operand, jumpIf, target, c, c', u, _, known, h => by
    rw [Compiler.cond] at h
    obtain ⟨type, c₁, h₁, h⟩ := value_bind_eq_ok h
    obtain ⟨B, hB, rfl⟩ := lift_eq_ok.1 h
    refine tests_value (M.toInt · != 0) known (evaluates_expr M host operand h₁).value.2 hB rfl rfl rfl
      (fun _ => Branch.shifts_ifZero _ _) fun locals value stack world => ?_
    cases jumpIf <;> by_cases hz : M.toInt value = 0 <;>
      simp [Branch.run, Branch.decide, Comparison.holds, hz]
  | .isFalse operand, jumpIf, target, c, c', u, _, known, h => by
    rw [Compiler.cond] at h
    obtain ⟨type, c₁, h₁, h⟩ := value_bind_eq_ok h
    obtain ⟨B, hB, rfl⟩ := lift_eq_ok.1 h
    refine tests_value (M.toInt · == 0) known (evaluates_expr M host operand h₁).value.2 hB rfl rfl rfl
      (fun _ => Branch.shifts_ifZero _ _) fun locals value stack world => ?_
    cases jumpIf <;> by_cases hz : M.toInt value = 0 <;>
      simp [Branch.run, Branch.decide, Comparison.holds, hz]
  | .compare comparison a b, jumpIf, target, c, c', u, _, known, h => by
    rw [Compiler.cond] at h
    obtain ⟨_, c₁, h₁, h⟩ := value_bind_eq_ok h
    obtain ⟨_, c₂, h₂, h⟩ := value_bind_eq_ok h
    obtain ⟨B, hB, rfl⟩ := lift_eq_ok.1 h
    obtain ⟨-, first⟩ := (evaluates_expr M host a h₁).value
    obtain ⟨-, second⟩ := (evaluates_expr M host b h₂).moved first.stays
    exact tests_compare comparison known first second hB
  | .not condition, jumpIf, target, c, c', u, fine, known, h => by
    rw [Compiler.cond] at h
    exact (tests_cond condition fine known h).not
  | .all conditions, jumpIf, target, c, c', u, fine, known, h => by
    rw [Compiler.cond] at h
    refine tests_junction fine known h (fun hempty store => ?_) (fun hne heach => ?_)
      fun hempty heq skip c₁ c₂ stays hskip hlast => ?_
    · rw [List.isEmpty_iff.1 hempty]
      rfl
    · have hjump := Bool.eq_false_iff.2 hne
      subst hjump
      exact tests_each conditions fine known heach
    · subst heq
      have tests := tests_lastOf conditions hempty (stays.run.fine fine) (known.trans_le stays.run.allocated_le)
        hskip hlast
      rw [stays.run.shape_eq, stays.names] at tests
      exact tests
  | .any conditions, jumpIf, target, c, c', u, fine, known, h => by
    rw [Compiler.cond] at h
    refine tests_junction fine known h (fun hempty store => ?_) (fun hne heach => ?_)
      fun hempty heq skip c₁ c₂ stays hskip hlast => ?_
    · rw [List.isEmpty_iff.1 hempty]
      rfl
    · have hjump := Bool.eq_true_of_not_eq_false hne
      subst hjump
      exact tests_each conditions fine known heach
    · subst heq
      have tests := tests_lastOf conditions hempty (stays.run.fine fine) (known.trans_le stays.run.allocated_le)
        hskip hlast
      rw [stays.run.shape_eq, stays.names] at tests
      exact tests

theorem tests_each : ∀ (conditions : List Cond) {jumpIf : Bool} {target : Label} {c c' : Compiler} {u : Unit},
    Fine c.builder → target.number < c.builder.labels.allocated → each jumpIf target conditions c = .ok u c' →
      Tests M host c c' jumpIf target [] (Cond.joined c.builder.shape c.names (!jumpIf) conditions)
  | [], jumpIf, target, c, c', u, _, _, h => by
    rw [each] at h
    obtain ⟨-, rfl⟩ := pure_eq_ok.1 h
    exact (Tests.nothing (Bool.not_ne_self jumpIf)).congr fun store =>
      (Cond.joined_nil _ _ _ store).symm
  | first :: rest, jumpIf, target, c, c', u, fine, known, h => by
    rw [each] at h
    obtain ⟨_, c₁, h₁, h⟩ := bind_eq_ok.1 h
    have one := tests_cond first fine known h₁
    have others := tests_each rest (one.stays.run.fine fine) (known.trans_le one.stays.run.allocated_le) h
    rw [one.stays.run.shape_eq, one.stays.names] at others
    refine (one.orElse fine others).congr fun store => ?_
    rw [Cond.joined_cons]
    refine congrArg (first.holds c.builder.shape c.names store >>= ·) (funext fun holds => ?_)
    cases holds <;> cases jumpIf <;> rfl

theorem tests_lastOf : ∀ (conditions : List Cond) {jumpIf : Bool} {target skip : Label} {c c' : Compiler}
    {u : Unit}, conditions.isEmpty = false → Fine c.builder → target.number < c.builder.labels.allocated →
      skip.number < c.builder.labels.allocated → lastOf jumpIf target skip conditions c = .ok u c' →
        Tests M host c c' jumpIf target [skip] (Cond.joined c.builder.shape c.names jumpIf conditions)
  | [], _, _, _, _, _, _, hne, _, _, _, _ => by cases hne
  | [last], jumpIf, target, skip, c, c', u, _, fine, known, _, h => by
    rw [lastOf] at h
    refine (tests_cond last fine known h).last.congr fun store => ?_
    rw [Cond.joined_cons, ← bind_pure (last.holds c.builder.shape c.names store)]
    refine congrArg₂ (· >>= ·) (bind_pure _).symm (funext fun holds => ?_)
    cases holds <;> cases jumpIf <;> rfl
  | first :: second :: rest, jumpIf, target, skip, c, c', u, _, fine, known, hskip, h => by
    rw [lastOf] at h
    · obtain ⟨_, c₁, h₁, h⟩ := bind_eq_ok.1 h
      have one := tests_cond first fine hskip h₁
      have others := tests_lastOf (second :: rest) rfl (one.stays.run.fine fine)
        (known.trans_le one.stays.run.allocated_le) (hskip.trans_le one.stays.run.allocated_le) h
      rw [one.stays.run.shape_eq, one.stays.names] at others
      exact (one.andThen fine others).congr fun store => (Cond.joined_cons _ _ _ _ _ store).symm
    · exact nofun

end

end Conditions

section Values

variable {u : Unit} {zero join : Label}

/-- What is put behind the code of the condition: one value where it holds, and another at a label. -/
theorem condValue_eq_ok {condition : Cond} (h : condValue condition c = .ok u c') :
    ∃ zero join c₁ c₂ c₃ c₄ c₅, (liftM fresh : Compiling Label) c = .ok zero c₁ ∧
      (liftM fresh : Compiling Label) c₁ = .ok join c₂ ∧ Compiler.cond false zero condition c₂ = .ok () c₃ ∧
      ((c₃.builder.isReachable = false ∧ c₄ = c₃) ∨ ∃ B B', Builder.constInt 1 c₃.builder = .ok () B ∧
        pushBranch (.goto join) B = .ok () B' ∧ c₄ = { c₃ with builder := B' }) ∧
      ((c₄.builder.isJumpedTo zero = false ∧ c₅ = c₄) ∨ ∃ B B', place zero c₄.builder = .ok () B ∧
        Builder.constInt 0 B = .ok () B' ∧ c₅ = { c₄ with builder := B' }) ∧
      placeIfReachable join c₅ = .ok u c' := by
  obtain ⟨zero, c₁, h₁, h⟩ := bind_eq_ok.1 h
  obtain ⟨join, c₂, h₂, h⟩ := bind_eq_ok.1 h
  obtain ⟨_, c₃, h₃, h⟩ := bind_eq_ok.1 h
  have closed : ∀ d : Compiler, (do
        if ← isJumpedTo zero then
          place zero
          Builder.constInt 0
        placeIfReachable join : Compiling Unit) d = .ok u c' →
      ∃ c₅, ((d.builder.isJumpedTo zero = false ∧ c₅ = d) ∨ ∃ B B', place zero d.builder = .ok () B ∧
        Builder.constInt 0 B = .ok () B' ∧ c₅ = { d with builder := B' }) ∧
        placeIfReachable join c₅ = .ok u c' := by
    intro d h
    rw [isJumpedTo_bind_eq_ok] at h
    cases hj : d.builder.isJumpedTo zero with
    | true =>
      rw [hj] at h
      obtain ⟨_, B, hB, h⟩ := lift_bind_eq_ok.1 h
      obtain ⟨_, B', hB', h⟩ := lift_bind_eq_ok.1 h
      exact ⟨_, .inr ⟨B, B', hB, hB', rfl⟩, h⟩
    | false =>
      rw [hj] at h
      exact ⟨d, .inl ⟨rfl, rfl⟩, h⟩
  rw [isReachable_bind_eq_ok] at h
  cases hr : c₃.builder.isReachable with
  | true =>
    rw [hr] at h
    obtain ⟨_, B, hB, h⟩ := lift_bind_eq_ok.1 h
    obtain ⟨_, B', hB', h⟩ := lift_bind_eq_ok.1 h
    obtain ⟨c₅, hzero, h⟩ := closed _ h
    exact ⟨zero, join, c₁, c₂, c₃, _, c₅, h₁, h₂, h₃, .inr ⟨B, B', hB, hB', rfl⟩, hzero, h⟩
  | false =>
    rw [hr] at h
    obtain ⟨c₅, hzero, h⟩ := closed c₃ h
    exact ⟨zero, join, c₁, c₂, c₃, c₃, c₅, h₁, h₂, h₃, .inl ⟨hr, rfl⟩, hzero, h⟩

theorem runs_condValue (M : Machine) (host : Host) {condition : Cond} (fine : Fine c.builder)
    (h : condValue condition c = .ok u c') :
    Stays c c' ∧ (host.Contains c' → ∀ (store : Store M) (locals : Locals M), host.Matches store locals →
      c.builder.Arrives [] locals.filled → ∀ stack world,
        host.program.Yields locals c.position c'.position ⟨c.position, locals, stack, world⟩
          (condition.holds c.builder.shape c.names store world) fun holds position stack' =>
            position = c'.position ∧ stack' = M.int (if holds then 1 else 0) :: stack ∧
              c'.builder.Arrives [] locals.filled) := by
  obtain ⟨zero, join, c₁, c₂, c₃, c₄, c₅, h₁, h₂, h₃, hone, hzero, h⟩ := condValue_eq_ok h
  obtain ⟨stays₁, known₁, hframe₁, hposition₁⟩ := stays_fresh h₁
  obtain ⟨stays₂, known₂, hframe₂, hposition₂⟩ := stays_fresh h₂
  have front := stays₁.trans stays₂
  have fine₂ := front.run.fine fine
  have knownZero := known₁.trans_le stays₂.run.allocated_le
  have tests := tests_cond M host condition fine₂ knownZero h₃
  have fine₃ := tests.stays.run.fine fine₂
  have stays₄ : Stays c₃ c₄ := by
    rcases hone with ⟨-, rfl⟩ | ⟨B, B', hB, hB', rfl⟩
    · exact .refl _
    · have pushed := (@computes_constInt M host c₃ B () 1 hB).stays
      exact pushed.trans (stays_pushBranch (known_target rfl ((known₂.trans_le tests.stays.run.allocated_le).trans_le
        pushed.run.allocated_le)) rfl hB')
  have stays₅ : Stays c₄ c₅ := by
    rcases hzero with ⟨-, rfl⟩ | ⟨B, B', hB, hB', rfl⟩
    · exact .refl _
    · exact (stays_place ((knownZero.trans_le tests.stays.run.allocated_le).trans_le stays₄.run.allocated_le)
        hB).trans (@computes_constInt M host { c₄ with builder := B } B' () 0 hB').stays
  have knownJoin : join.number < c₅.builder.labels.allocated :=
    known₂.trans_le ((tests.stays.trans stays₄).trans stays₅).run.allocated_le
  have stays₆ := stays_placeIfReachable knownJoin h
  have all := (((front.trans tests.stays).trans stays₄).trans stays₅).trans stays₆
  refine ⟨all, fun contains store locals hm ha stack world => ?_⟩
  have contains₅ := contains.of_goes stays₆.goes
  have contains₄ := contains₅.of_goes stays₅.goes
  have contains₃ := contains₄.of_goes stays₄.goes
  have hrun := tests.runs contains₃ store locals hm (ha.of_eq (hframe₂.trans hframe₁)) stack world
  rw [front.run.shape_eq, front.names, hposition₂, hposition₁] at hrun
  refine (hrun.mono le_rfl (position_le ((stays₄.trans stays₅).trans stays₆).run) fun _ _ _ hgoal =>
    hgoal).onward fun holds position stack' world' hgoal => ?_
  obtain ⟨rfl, hgoal⟩ := hgoal
  refine ⟨c'.position, M.int (if holds then 1 else 0) :: stack', ?_⟩
  cases holds with
  | false =>
    have hg : host.Gets c₄ (some zero) locals.filled position :=
      Gets.later hgoal (stays₄.run.later fine₃)
    rcases hzero with ⟨unjumped, rfl⟩ | ⟨B, B', hB, hB', rfl⟩
    · rw [hg.2.isJumpedTo] at unjumped
      cases unjumped
    · have pushed := @computes_constInt M host { c₄ with builder := B } B' () 0 hB'
      obtain ⟨hplaced, ha₄⟩ := reaches_place (contains₅.of_goes pushed.stays.goes) hB
        (fun l hl => (Option.some.inj hl).symm) hg
      have hpushed := pushed.reaches contains₅ hm ha₄ [] rfl rfl stack' world'
      have ha₅ := (pushed.arrives [] _ ha₄).bare
      obtain ⟨hlast, ha'⟩ := @reaches_placeIfReachable M host _ c' join u locals (M.int 0 :: stack') world' _
        contains h none (fun l hl => by cases hl) ⟨rfl, ha₅⟩
      exact ⟨(hplaced.trans hpushed).trans hlast, rfl, rfl, ha'⟩
  | true =>
    obtain ⟨label?, hlabel, hg⟩ := hgoal
    cases label? with
    | some l => exact absurd (hlabel l rfl) List.not_mem_nil
    | none =>
      obtain ⟨rfl, ha₃⟩ := hg
      rcases hone with ⟨unreachable, rfl⟩ | ⟨B, B', hB, hB', rfl⟩
      · rw [ha₃.isReachable] at unreachable
        cases unreachable
      · have pushed := @computes_constInt M host c₃ B () 1 hB
        have jumped := stays_pushBranch (known_target rfl ((known₂.trans_le tests.stays.run.allocated_le).trans_le
          pushed.stays.run.allocated_le)) rfl hB'
        have hpushed := pushed.reaches (contains₄.of_goes jumped.goes) hm ha₃ [] rfl rfl stack' world'
        obtain ⟨target, hjump, hg⟩ := @reaches_jump M host { c₃ with builder := B } join B' () locals
          (M.int 1 :: stack') world' contains₄ hB' (pushed.arrives [] _ ha₃).bare
        have fine₄ := stays₄.run.fine fine₃
        obtain ⟨hlast, ha'⟩ := reaches_placeIfReachable contains h
          (fun l hl => (Option.some.inj hl).symm) (hg.later (stays₅.run.later fine₄))
        exact ⟨(hpushed.trans hjump).trans hlast, rfl, rfl, ha'⟩

end Values

end Host

end ClassWeave
