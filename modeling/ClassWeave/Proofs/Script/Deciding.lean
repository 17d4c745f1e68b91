import ClassWeave.Proofs.Script.Spanning

/-!
Which operands the code of a condition evaluates. The instructions of that code are those of its operands;
what is between them only steers. A run takes the instructions of the operands that decide the condition,
from left to right and each once, and then it is at the target or behind the code.
-/

namespace ClassWeave

open Evaluating Compiler Builder

variable {M : Machine} {α : Type}

theorem Evaluating.narrow_eq_ok {values : List M.Slot} {value : M.Slot} {world world' : World M}
    (h : narrow values world = .ok value world') : values = [value] ∧ world' = world := by
  match values, h with
  | [found], h =>
    obtain ⟨rfl, rfl⟩ := pure_eq_ok.1 h
    exact ⟨rfl, rfl⟩

section Weighing

mutual

/-- The operands of a condition, in the order of the text. -/
def Cond.operands : Cond → List Expr
  | .isNull value | .notNull value | .isTrue value | .isFalse value => [value]
  | .compare _ a b => [a, b]
  | .all conditions | .any conditions => Cond.operandsAll conditions
  | .not condition => condition.operands

def Cond.operandsAll : List Cond → List Expr
  | [] => []
  | first :: rest => first.operands ++ Cond.operandsAll rest

end

/-- Goes on with what is next if the first condition has the neutral value. -/
def Cond.goOn (neutral : Bool) (first next : Evaluating M (Bool × List α)) : Evaluating M (Bool × List α) := do
  let (holds, taken) ← first
  if holds = neutral then
    let (holds, more) ← next
    return (holds, taken ++ more)
  else return (holds, taken)

variable (shape : MethodShape) (scope : Scope) (store : Store M)

mutual

/-- The value of a condition, and of the marks of its operands those of the operands that are evaluated
for it, in the order in which they are. There is one mark for each operand. -/
def Cond.weigh (marks : List α) : Cond → Evaluating M (Bool × List α)
  | .isNull value => do return (← (Cond.isNull value).holds shape scope store, marks)
  | .notNull value => do return (← (Cond.notNull value).holds shape scope store, marks)
  | .isTrue value => do return (← (Cond.isTrue value).holds shape scope store, marks)
  | .isFalse value => do return (← (Cond.isFalse value).holds shape scope store, marks)
  | .compare comparison a b => do return (← (Cond.compare comparison a b).holds shape scope store, marks)
  | .all conditions => Cond.weighAll true marks conditions
  | .any conditions => Cond.weighAll false marks conditions
  | .not condition => do
    let (holds, taken) ← condition.weigh marks
    return (!holds, taken)

/-- Conditions are evaluated up to the first that has not the neutral value. -/
def Cond.weighAll (neutral : Bool) (marks : List α) : List Cond → Evaluating M (Bool × List α)
  | [] => pure (neutral, [])
  | first :: rest =>
    Cond.goOn neutral (first.weigh (marks.take first.operands.length))
      (Cond.weighAll neutral (marks.drop first.operands.length) rest)

end

mutual

/-- Marking operands does not change what a condition is worth. -/
theorem Cond.map_weigh : ∀ (condition : Cond) (marks : List α),
    Prod.fst <$> condition.weigh shape scope store marks = condition.holds shape scope store
  | .isNull _, _ | .notNull _, _ | .isTrue _, _ | .isFalse _, _ | .compare _ _ _, _ => by
    rw [Cond.weigh, map_bind]
    exact bind_pure _
  | .not condition, marks => by
    rw [Cond.weigh, Cond.holds, ← Cond.map_weigh condition marks, map_bind, bind_map_left]
    rfl
  | .all conditions, marks => by
    rw [Cond.weigh, Cond.map_weighAll true conditions marks]
    rfl
  | .any conditions, marks => by
    rw [Cond.weigh, Cond.map_weighAll false conditions marks]
    rfl

theorem Cond.map_weighAll (neutral : Bool) : ∀ (conditions : List Cond) (marks : List α),
    Prod.fst <$> Cond.weighAll shape scope store neutral marks conditions =
      Cond.joined shape scope neutral conditions store
  | [], marks => by
    rw [Cond.weighAll, Cond.joined_nil, map_pure]
  | first :: rest, marks => by
    rw [Cond.weighAll, Cond.joined_cons, Cond.goOn,
      ← Cond.map_weigh first (marks.take first.operands.length), map_bind, bind_map_left]
    refine congrArg _ (funext fun ⟨holds, taken⟩ => ?_)
    dsimp only
    by_cases heq : holds = neutral
    · rw [if_pos heq, if_pos heq, ← Cond.map_weighAll neutral rest (marks.drop first.operands.length),
        map_bind, ← bind_pure_comp]
      rfl
    · rw [if_neg heq, if_neg heq, ← Bool.eq_not.2 heq]
      rfl

end

theorem Cond.goOn_neutral (neutral : Bool) (first : Evaluating M (Bool × List α)) :
    Cond.goOn neutral first (pure (neutral, [])) = first := by
  rw [Cond.goOn]
  refine (congrArg (first >>= ·) (funext fun ⟨holds, taken⟩ => ?_)).trans (bind_pure first)
  dsimp only
  by_cases heq : holds = neutral
  · rw [if_pos heq, pure_bind, heq]
    exact congrArg (fun marks => pure (neutral, marks)) (List.append_nil taken)
  · rw [if_neg heq]

/-- The next condition is weighed just where the first has the neutral value. -/
theorem Cond.goOn_eq_ok {neutral holds : Bool} {first next : Evaluating M (Bool × List α)} {taken : List α}
    {world world' : World M} (h : Cond.goOn neutral first next world = .ok (holds, taken) world') :
    (∃ front behind world₁, first world = .ok (neutral, front) world₁ ∧
        next world₁ = .ok (holds, behind) world' ∧ taken = front ++ behind) ∨
      holds = !neutral ∧ first world = .ok (holds, taken) world' := by
  obtain ⟨⟨value, front⟩, world₁, h₁, h⟩ := bind_eq_ok.1 h
  by_cases heq : value = neutral
  · dsimp only at h
    rw [if_pos heq] at h
    obtain ⟨⟨_, behind⟩, world₂, h₂, h⟩ := bind_eq_ok.1 h
    obtain ⟨he, rfl⟩ := pure_eq_ok.1 h
    cases he
    exact .inl ⟨front, behind, world₁, heq ▸ h₁, h₂, rfl⟩
  · dsimp only at h
    rw [if_neg heq] at h
    obtain ⟨he, rfl⟩ := pure_eq_ok.1 h
    cases he
    exact .inr ⟨Bool.eq_not.2 heq, h₁⟩

end Weighing

namespace Host

variable {host : Host} {c c₁ c₂ c' : Compiler} {label target : Label}

/-- The code of a condition. Its instructions are those of the operands, and where the condition can be
weighed the code takes just those of the operands that are marked. Where it has not the value to jump for,
control may also be at other labels. -/
structure Decides (M : Machine) (host : Host) (c c' : Compiler) (jumpIf : Bool) (target : Label)
    (others : List Label) (spans : List Span) (operands : List Expr)
    (meaning : Store M → Evaluating M (Bool × List Span)) : Prop where
  lays : Lays c c' spans operands
  walks : host.Contains c' → ∀ store locals, host.Matches store locals →
    c.builder.Arrives [] locals.filled → ∀ stack world holds taken world',
      meaning store world = .ok (holds, taken) world' → ∃ position,
        host.program.Walks ⟨c.position, locals, stack, world⟩ (taken.flatMap Span.positions)
          ⟨position, locals, stack, world'⟩ ∧
        if holds = jumpIf then host.Gets c' (some target) locals.filled position
        else ∃ label?, (∀ label, label? = some label → label ∈ others) ∧
          host.Gets c' label? locals.filled position

namespace Decides

variable {jumpIf : Bool} {others : List Label} {spans spans' : List Span} {operands operands' : List Expr}
  {meaning next : Store M → Evaluating M (Bool × List Span)}

theorem congr (h : Decides M host c c' jumpIf target others spans operands meaning)
    (heq : ∀ store, meaning store = next store) :
    Decides M host c c' jumpIf target others spans operands next := by
  rw [show next = meaning from funext fun store => (heq store).symm]
  exact h

theorem last (h : Decides M host c c' jumpIf target [] spans operands meaning) :
    Decides M host c c' jumpIf target others spans operands meaning where
  lays := h.lays
  walks contains store locals hm ha stack world holds taken world' heval := by
    obtain ⟨position, walks, hgoal⟩ := h.walks contains store locals hm ha stack world holds taken world' heval
    refine ⟨position, walks, ?_⟩
    by_cases heq : holds = jumpIf
    · rw [if_pos heq] at hgoal ⊢
      exact hgoal
    · rw [if_neg heq] at hgoal ⊢
      obtain ⟨label?, hlabel, hg⟩ := hgoal
      exact ⟨label?, fun l hl => absurd (hlabel l hl) List.not_mem_nil, hg⟩

/-- No code goes on behind if there is nothing to jump for. -/
theorem nothing {value : Bool} (hne : value ≠ jumpIf) :
    Decides M host c c jumpIf target others [] [] fun (_ : Store M) => pure (value, []) where
  lays := .steer (.refl c) rfl
  walks _ _ _ _ ha _ _ holds taken world' heval := by
    obtain ⟨he, rfl⟩ := pure_eq_ok.1 heval
    cases he
    refine ⟨c.position, .refl _, ?_⟩
    rw [if_neg hne]
    exact ⟨none, nofun, rfl, ha⟩

theorem not (h : Decides M host c c' (!jumpIf) target others spans operands meaning) :
    Decides M host c c' jumpIf target others spans operands fun store => do
      let (holds, taken) ← meaning store
      return (!holds, taken) where
  lays := h.lays
  walks contains store locals hm ha stack world holds taken world' heval := by
    obtain ⟨⟨value, marks⟩, world₁, h₁, hlast⟩ := bind_eq_ok.1 heval
    obtain ⟨he, rfl⟩ := pure_eq_ok.1 hlast
    cases he
    obtain ⟨position, walks, hgoal⟩ := h.walks contains store locals hm ha stack world value taken _ h₁
    refine ⟨position, walks, ?_⟩
    simp only [Bool.not_eq_eq_eq_not]
    exact hgoal

section Tests

variable {B : Builder} {u : Unit} {branch : Branch Label}

/-- A test of the value of an operand. -/
theorem value {e : Expr} {type : FieldType} (test : M.Slot → Bool) (fine : Fine c.builder)
    (known : target.number < c.builder.labels.allocated) (he : expr e c = .ok (some type) c₁)
    (h : pushBranch branch c₁.builder = .ok u B) (plain : branch.isTable = false)
    (targets : branch.jumpTargets = [target]) (falls : branch.fallsThrough = true)
    (shifts : ∀ returnType, Verifying.Shifts (branch.verify returnType) [1] [])
    (hrun : ∀ (locals : Locals M) value stack world, branch.run locals (value :: stack) world =
      if test value == jumpIf then .jump target stack else .next locals stack world) :
    Decides M host c { c₁ with builder := B } jumpIf target [] [⟨c.position, c₁.position⟩] [e] fun store => do
      let holds ← (do return test (← narrow (← e.eval c.builder.shape c.names store)) : Evaluating M Bool)
      return (holds, [⟨c.position, c₁.position⟩]) := by
  have computes := (evaluates_expr M host e he).value.2
  have retaken := computes.retake (takes_of_pushBranch h shifts) rfl
  have known₁ := known_target targets (known.trans_le computes.stays.run.allocated_le)
  refine ⟨(Lays.operand computes.stays he).before (.branch known₁ plain h),
    fun contains store locals hm ha stack world holds taken world' heval => ?_⟩
  obtain ⟨value, world₂, htest, hlast⟩ := bind_eq_ok.1 heval
  obtain ⟨he', rfl⟩ := pure_eq_ok.1 hlast
  cases he'
  obtain ⟨values, world₁, hvalues, hlast⟩ := bind_eq_ok.1 htest
  obtain ⟨slot, world₂, hslot, hlast⟩ := bind_eq_ok.1 hlast
  obtain ⟨rfl, rfl⟩ := pure_eq_ok.1 hlast
  obtain ⟨rfl, rfl⟩ := narrow_eq_ok hslot
  have contains₁ := contains.of_goes (stays_pushBranch known₁ plain h).goes
  have evaluated := walks_expr fine contains₁ he hm ha stack hvalues
  obtain ⟨position, steered, hg⟩ := walks_branch [slot] contains h targets falls shifts
    (retaken.arrives [] locals.filled ha) (test slot == jumpIf) (hrun locals slot stack _)
  refine ⟨position, ?_, ?_⟩
  · have walked := evaluated.trans steered
    rwa [List.append_nil, ← List.flatMap_singleton Span.positions] at walked
  · by_cases heq : test slot = jumpIf
    · rw [if_pos heq]
      rwa [beq_iff_eq.2 heq] at hg
    · rw [if_neg heq]
      rw [beq_false_of_ne heq] at hg
      exact ⟨none, nofun, hg⟩

/-- A comparison of the values of two operands. -/
theorem compare {a b : Expr} {typeA typeB : FieldType} (comparison : Comparison) (fine : Fine c.builder)
    (known : target.number < c.builder.labels.allocated) (ha : expr a c = .ok (some typeA) c₁)
    (hb : expr b c₁ = .ok (some typeB) c₂)
    (h : pushBranch (.ifInts (if jumpIf then comparison else comparison.not) target) c₂.builder = .ok u B) :
    Decides M host c { c₂ with builder := B } jumpIf target []
      [⟨c.position, c₁.position⟩, ⟨c₁.position, c₂.position⟩] [a, b] fun store => do
        let holds ← (do
          let a ← a.eval c.builder.shape c.names store
          let b ← b.eval c.builder.shape c.names store
          return comparison.holds (M.toInt (← narrow a)) (M.toInt (← narrow b)) : Evaluating M Bool)
        return (holds, [⟨c.position, c₁.position⟩, ⟨c₁.position, c₂.position⟩]) := by
  have shifts : ∀ returnType, Verifying.Shifts ((Branch.ifInts
      (if jumpIf then comparison else comparison.not) target).verify returnType) [1, 1] [] :=
    fun _ => Branch.shifts_ifInts _ _
  have first := (evaluates_expr M host a ha).value.2
  have second := ((evaluates_expr M host b hb).moved first.stays).2
  have front := first.stays.trans second.stays
  have retaken := (first.append second).retake (takes_of_pushBranch h shifts) rfl
  have known₂ := @known_target target (.ifInts (if jumpIf then comparison else comparison.not) target) _ rfl
    (known.trans_le front.run.allocated_le)
  refine ⟨((Lays.operand first.stays ha).append (.operand second.stays hb)).before (.branch known₂ rfl h),
    fun contains store locals hm harrives stack world holds taken world' heval => ?_⟩
  obtain ⟨value, world₃, htest, hlast⟩ := bind_eq_ok.1 heval
  obtain ⟨he', rfl⟩ := pure_eq_ok.1 hlast
  cases he'
  obtain ⟨left, world₁, hleft, hlast⟩ := bind_eq_ok.1 htest
  obtain ⟨right, world₂, hright, hlast⟩ := bind_eq_ok.1 hlast
  obtain ⟨x, world₄, hx, hlast⟩ := bind_eq_ok.1 hlast
  obtain ⟨y, world₅, hy, hlast⟩ := bind_eq_ok.1 hlast
  obtain ⟨rfl, rfl⟩ := pure_eq_ok.1 hlast
  obtain ⟨rfl, rfl⟩ := narrow_eq_ok hx
  obtain ⟨rfl, rfl⟩ := narrow_eq_ok hy
  have contains₂ := contains.of_goes (stays_pushBranch known₂ rfl h).goes
  have evaluated := walks_expr fine (contains₂.of_goes second.stays.goes) ha hm harrives stack hleft
  have harrives₁ := (first.arrives [] locals.filled harrives).bare
  rw [← first.stays.run.shape_eq, ← first.stays.names] at hright
  have evaluated' := walks_expr (first.stays.run.fine fine) contains₂ hb hm harrives₁ ([x] ++ stack) hright
  obtain ⟨position, steered, hg⟩ := walks_branch [y, x] contains h rfl rfl shifts
    (retaken.arrives [] locals.filled harrives) (comparison.holds (M.toInt x) (M.toInt y) == jumpIf)
    (run_compare comparison jumpIf target locals x y stack _)
  refine ⟨position, ?_, ?_⟩
  · have walked := (evaluated.trans evaluated').trans steered
    rw [List.append_nil] at walked
    rw [List.flatMap_cons, List.flatMap_singleton]
    exact walked
  · by_cases heq : comparison.holds (M.toInt x) (M.toInt y) = jumpIf
    · rw [if_pos heq]
      rwa [beq_iff_eq.2 heq] at hg
    · rw [if_neg heq]
      rw [beq_false_of_ne heq] at hg
      exact ⟨none, nofun, hg⟩

end Tests

/-- Of two conditions the second is weighed if the first has not the value to jump for. -/
theorem orElse (fine : Fine c.builder) (h : Decides M host c c₁ jumpIf target [] spans operands meaning)
    (h' : Decides M host c₁ c' jumpIf target [] spans' operands' next) :
    Decides M host c c' jumpIf target [] (spans ++ spans') (operands ++ operands')
      fun store => Cond.goOn (!jumpIf) (meaning store) (next store) where
  lays := h.lays.append h'.lays
  walks contains store locals hm ha stack world holds taken world' heval := by
    have contains₁ := contains.of_goes h'.lays.stays.goes
    rcases Cond.goOn_eq_ok heval with ⟨front, behind, world₁, h₁, h₂, rfl⟩ | ⟨heq, h₁⟩
    · obtain ⟨position, walks, hgoal⟩ := h.walks contains₁ store locals hm ha stack world _ _ _ h₁
      rw [if_neg (Bool.not_ne_self jumpIf)] at hgoal
      obtain ⟨label?, hnone, hg⟩ := hgoal
      cases label? with
      | some label => exact absurd (hnone label rfl) List.not_mem_nil
      | none =>
        obtain ⟨rfl, ha₁⟩ := hg
        obtain ⟨position, walks', hgoal⟩ :=
          h'.walks contains store locals hm ha₁ stack world₁ holds behind world' h₂
        exact ⟨position, List.flatMap_append ▸ walks.trans walks', hgoal⟩
    · rw [Bool.not_not] at heq
      obtain ⟨position, walks, hgoal⟩ := h.walks contains₁ store locals hm ha stack world _ _ _ h₁
      rw [if_pos heq] at hgoal
      refine ⟨position, walks, ?_⟩
      rw [if_pos heq]
      exact hgoal.later (h'.lays.stays.run.later (h.lays.stays.run.fine fine))

/-- The first condition decides by skipping the second. -/
theorem andThen {skip : Label} (fine : Fine c.builder)
    (h : Decides M host c c₁ (!jumpIf) skip [] spans operands meaning)
    (h' : Decides M host c₁ c' jumpIf target [skip] spans' operands' next) :
    Decides M host c c' jumpIf target [skip] (spans ++ spans') (operands ++ operands')
      fun store => Cond.goOn jumpIf (meaning store) (next store) where
  lays := h.lays.append h'.lays
  walks contains store locals hm ha stack world holds taken world' heval := by
    have contains₁ := contains.of_goes h'.lays.stays.goes
    rcases Cond.goOn_eq_ok heval with ⟨front, behind, world₁, h₁, h₂, rfl⟩ | ⟨heq, h₁⟩
    · obtain ⟨position, walks, hgoal⟩ := h.walks contains₁ store locals hm ha stack world _ _ _ h₁
      rw [if_neg (Bool.not_ne_self jumpIf).symm] at hgoal
      obtain ⟨label?, hnone, hg⟩ := hgoal
      cases label? with
      | some label => exact absurd (hnone label rfl) List.not_mem_nil
      | none =>
        obtain ⟨rfl, ha₁⟩ := hg
        obtain ⟨position, walks', hgoal⟩ :=
          h'.walks contains store locals hm ha₁ stack world₁ holds behind world' h₂
        exact ⟨position, List.flatMap_append ▸ walks.trans walks', hgoal⟩
    · obtain ⟨position, walks, hgoal⟩ := h.walks contains₁ store locals hm ha stack world _ _ _ h₁
      rw [if_pos heq] at hgoal
      refine ⟨position, walks, ?_⟩
      rw [if_neg (heq ▸ Bool.not_ne_self jumpIf)]
      exact ⟨some skip, fun l hl => by cases hl; exact List.mem_singleton_self skip,
        hgoal.later (h'.lays.stays.run.later (h.lays.stays.run.fine fine))⟩

/-- The last condition goes on behind the label that those before it skip to. -/
theorem close {skip : Label} {u : Unit} (fine : Fine c.builder)
    (h : Decides M host c c₁ jumpIf target [skip] spans operands meaning)
    (known : skip.number < c₁.builder.labels.allocated) (hskip : placeIfReachable skip c₁ = .ok u c') :
    Decides M host c c' jumpIf target [] spans operands meaning where
  lays := h.lays.before (.placeIfReachable known hskip)
  walks contains store locals hm ha stack world holds taken world' heval := by
    have stays := stays_placeIfReachable known hskip
    obtain ⟨position, walks, hgoal⟩ :=
      h.walks (contains.of_goes stays.goes) store locals hm ha stack world holds taken world' heval
    by_cases heq : holds = jumpIf
    · rw [if_pos heq] at hgoal
      refine ⟨position, walks, ?_⟩
      rw [if_pos heq]
      exact hgoal.later (stays.run.later (h.lays.stays.run.fine fine))
    · rw [if_neg heq] at hgoal
      obtain ⟨label?, hlabel, hg⟩ := hgoal
      obtain ⟨steered, ha'⟩ := walks_placeIfReachable contains hskip
        (fun l hl => List.mem_singleton.1 (hlabel l hl)) hg
      refine ⟨c'.position, List.append_nil (taken.flatMap _) ▸ walks.trans steered, ?_⟩
      rw [if_neg heq]
      exact ⟨none, nofun, rfl, ha'⟩

/-- Labels that are handed out in front of code are no code. -/
theorem behind (h : Decides M host c₁ c' jumpIf target others spans operands meaning) (stays : Stays c c₁)
    (hn : c₁.builder.nodes = c.builder.nodes) (hf : c₁.builder.frame = c.builder.frame) :
    Decides M host c c' jumpIf target others spans operands meaning where
  lays := (Lays.steer stays (by rw [hn])).append h.lays
  walks contains store locals hm ha := by
    rw [show c.position = c₁.position by rw [position, position, hn]]
    exact h.walks contains store locals hm (ha.of_eq hf)

/-- Without conditions there is nothing to evaluate in front of a jump. -/
theorem always {B : Builder} {u : Unit} (known : target.number < c.builder.labels.allocated)
    (h : pushBranch (.goto target) c.builder = .ok u B) :
    Decides M host c { c with builder := B } jumpIf target [] [] [] fun (_ : Store M) => pure (jumpIf, []) where
  lays := .branch (known_target rfl known) rfl h
  walks contains store locals hm ha stack world holds taken world' heval := by
    obtain ⟨he, rfl⟩ := pure_eq_ok.1 heval
    cases he
    obtain ⟨position, walks, hg⟩ := walks_jump contains h ha
    exact ⟨position, walks, (if_pos rfl).symm ▸ hg⟩

/-- Conditions that are joined, which decide by the value that is not neutral. -/
theorem junction {neutral isEmpty : Bool} {each : Compiling Unit} {lastOf : Label → Compiling Unit} {u : Unit}
    (meaning : List Span → Store M → Evaluating M (Bool × List Span)) (fine : Fine c.builder)
    (known : target.number < c.builder.labels.allocated)
    (h : Compiler.junction neutral jumpIf target isEmpty each lastOf c = .ok u c')
    (hempty : isEmpty = true → operands = [] ∧ ∀ store, meaning [] store = pure (neutral, []))
    (heach : jumpIf ≠ neutral → each c = .ok u c' →
      ∃ spans, Decides M host c c' jumpIf target [] spans operands (meaning spans))
    (hlast : isEmpty = false → jumpIf = neutral → ∀ skip c₁ c₂, Stays c c₁ →
      skip.number < c₁.builder.labels.allocated → lastOf skip c₁ = .ok () c₂ →
        ∃ spans, Decides M host c₁ c₂ jumpIf target [skip] spans operands (meaning spans)) :
    ∃ spans, Decides M host c c' jumpIf target [] spans operands (meaning spans) := by
  unfold Compiler.junction at h
  cases isEmpty with
  | true =>
    rw [if_pos rfl] at h
    obtain ⟨rfl, hmeaning⟩ := hempty rfl
    by_cases heq : jumpIf = neutral
    · rw [if_pos heq] at h
      obtain ⟨B, hB, rfl⟩ := lift_eq_ok.1 h
      subst heq
      exact ⟨[], (Decides.always known hB).congr fun store => (hmeaning store).symm⟩
    · rw [if_neg heq] at h
      obtain ⟨-, rfl⟩ := pure_eq_ok.1 h
      exact ⟨[], (Decides.nothing (Ne.symm heq)).congr fun store => (hmeaning store).symm⟩
  | false =>
    rw [if_neg Bool.false_ne_true] at h
    by_cases heq : jumpIf = neutral
    · rw [if_neg (not_not.2 heq)] at h
      obtain ⟨skip, c₁, h₁, h⟩ := bind_eq_ok.1 h
      obtain ⟨_, c₂, h₂, h⟩ := bind_eq_ok.1 h
      obtain ⟨stays, hskip, hframe, -⟩ := stays_fresh h₁
      obtain ⟨spans, decides⟩ := hlast rfl heq skip c₁ c₂ stays hskip h₂
      have closed := decides.close (stays.run.fine fine) (hskip.trans_le decides.lays.stays.run.allocated_le) h
      obtain ⟨B, hB, rfl⟩ := lift_eq_ok.1 h₁
      obtain ⟨rfl, rfl⟩ := Builder.fresh_eq_ok.1 hB
      exact ⟨spans, closed.behind stays rfl hframe⟩
    · rw [if_pos heq] at h
      exact heach heq h

end Decides

section Conditions

variable (M : Machine) (host : Host)

mutual

theorem decides_cond : ∀ (condition : Cond) {jumpIf : Bool} {target : Label} {c c' : Compiler} {u : Unit},
    Fine c.builder → target.number < c.builder.labels.allocated → cond jumpIf target condition c = .ok u c' →
      ∃ spans, Decides M host c c' jumpIf target [] spans condition.operands
        fun store => condition.weigh c.builder.shape c.names store spans
  | .isNull operand, jumpIf, target, c, c', u, fine, known, h => by
    rw [Compiler.cond] at h
    obtain ⟨type, c₁, h₁, h⟩ := value_bind_eq_ok h
    obtain ⟨B, hB, rfl⟩ := lift_eq_ok.1 h
    refine ⟨_, .value M.isNull fine known h₁ hB rfl rfl rfl (fun _ => Branch.shifts_ifNull _ _)
      fun locals value stack world => ?_⟩
    cases jumpIf <;> rfl
  | .notNull operand, jumpIf, target, c, c', u, fine, known, h => by
    rw [Compiler.cond] at h
    obtain ⟨type, c₁, h₁, h⟩ := value_bind_eq_ok h
    obtain ⟨B, hB, rfl⟩ := lift_eq_ok.1 h
    refine ⟨_, .value (!M.isNull ·) fine known h₁ hB rfl rfl rfl (fun _ => Branch.shifts_ifNull _ _)
      fun locals value stack world => ?_⟩
    cases jumpIf <;> cases hn : M.isNull value <;> simp [Branch.run, Branch.decide, hn]
  | .isTrue operand, jumpIf, target, c, c', u, fine, known, h => by
    rw [Compiler.cond] at h
    obtain ⟨type, c₁, h₁, h⟩ := value_bind_eq_ok h
    obtain ⟨B, hB, rfl⟩ := lift_eq_ok.1 h
    refine ⟨_, .value (M.toInt · != 0) fine known h₁ hB rfl rfl rfl (fun _ => Branch.shifts_ifZero _ _)
      fun locals value stack world => ?_⟩
    cases jumpIf <;> by_cases hz : M.toInt value = 0 <;>
      simp [Branch.run, Branch.decide, Comparison.holds, hz]
  | .isFalse operand, jumpIf, target, c, c', u, fine, known, h => by
    rw [Compiler.cond] at h
    obtain ⟨type, c₁, h₁, h⟩ := value_bind_eq_ok h
    obtain ⟨B, hB, rfl⟩ := lift_eq_ok.1 h
    refine ⟨_, .value (M.toInt · == 0) fine known h₁ hB rfl rfl rfl (fun _ => Branch.shifts_ifZero _ _)
      fun locals value stack world => ?_⟩
    cases jumpIf <;> by_cases hz : M.toInt value = 0 <;>
      simp [Branch.run, Branch.decide, Comparison.holds, hz]
  | .compare comparison a b, jumpIf, target, c, c', u, fine, known, h => by
    rw [Compiler.cond] at h
    obtain ⟨_, c₁, h₁, h⟩ := value_bind_eq_ok h
    obtain ⟨_, c₂, h₂, h⟩ := value_bind_eq_ok h
    obtain ⟨B, hB, rfl⟩ := lift_eq_ok.1 h
    exact ⟨_, .compare comparison fine known h₁ h₂ hB⟩
  | .not condition, jumpIf, target, c, c', u, fine, known, h => by
    rw [Compiler.cond] at h
    obtain ⟨spans, decides⟩ := decides_cond condition fine known h
    exact ⟨spans, decides.not⟩
  | .all conditions, jumpIf, target, c, c', u, fine, known, h => by
    rw [Compiler.cond] at h
    refine Decides.junction (fun spans store => Cond.weighAll c.builder.shape c.names store true spans conditions)
      fine known h (fun hempty => ?_) (fun hne heach => ?_) fun hempty heq skip c₁ c₂ stays hskip hlast => ?_
    · rw [List.isEmpty_iff.1 hempty]
      exact ⟨rfl, fun _ => rfl⟩
    · have hjump := Bool.eq_false_iff.2 hne
      subst hjump
      exact decides_each conditions fine known heach
    · subst heq
      have decides := decides_lastOf conditions hempty (stays.run.fine fine)
        (known.trans_le stays.run.allocated_le) hskip hlast
      rw [stays.run.shape_eq, stays.names] at decides
      exact decides
  | .any conditions, jumpIf, target, c, c', u, fine, known, h => by
    rw [Compiler.cond] at h
    refine Decides.junction (fun spans store => Cond.weighAll c.builder.shape c.names store false spans conditions)
      fine known h (fun hempty => ?_) (fun hne heach => ?_) fun hempty heq skip c₁ c₂ stays hskip hlast => ?_
    · rw [List.isEmpty_iff.1 hempty]
      exact ⟨rfl, fun _ => rfl⟩
    · have hjump := Bool.eq_true_of_not_eq_false hne
      subst hjump
      exact decides_each conditions fine known heach
    · subst heq
      have decides := decides_lastOf conditions hempty (stays.run.fine fine)
        (known.trans_le stays.run.allocated_le) hskip hlast
      rw [stays.run.shape_eq, stays.names] at decides
      exact decides

theorem decides_each : ∀ (conditions : List Cond) {jumpIf : Bool} {target : Label} {c c' : Compiler} {u : Unit},
    Fine c.builder → target.number < c.builder.labels.allocated → each jumpIf target conditions c = .ok u c' →
      ∃ spans, Decides M host c c' jumpIf target [] spans (Cond.operandsAll conditions)
        fun store => Cond.weighAll c.builder.shape c.names store (!jumpIf) spans conditions
  | [], jumpIf, target, c, c', u, _, _, h => by
    rw [each] at h
    obtain ⟨-, rfl⟩ := pure_eq_ok.1 h
    exact ⟨[], (Decides.nothing (Bool.not_ne_self jumpIf)).congr fun store => rfl⟩
  | first :: rest, jumpIf, target, c, c', u, fine, known, h => by
    rw [each] at h
    obtain ⟨_, c₁, h₁, h⟩ := bind_eq_ok.1 h
    obtain ⟨spans, one⟩ := decides_cond first fine known h₁
    obtain ⟨spans', others⟩ := decides_each rest (one.lays.stays.run.fine fine)
      (known.trans_le one.lays.stays.run.allocated_le) h
    rw [one.lays.stays.run.shape_eq, one.lays.stays.names] at others
    have hlength := one.lays.codes.length_eq
    refine ⟨spans ++ spans', (one.orElse fine others).congr fun store => ?_⟩
    rw [Cond.weighAll, List.take_left' hlength, List.drop_left' hlength]

theorem decides_lastOf : ∀ (conditions : List Cond) {jumpIf : Bool} {target skip : Label} {c c' : Compiler}
    {u : Unit}, conditions.isEmpty = false → Fine c.builder → target.number < c.builder.labels.allocated →
      skip.number < c.builder.labels.allocated → lastOf jumpIf target skip conditions c = .ok u c' →
        ∃ spans, Decides M host c c' jumpIf target [skip] spans (Cond.operandsAll conditions)
          fun store => Cond.weighAll c.builder.shape c.names store jumpIf spans conditions
  | [], _, _, _, _, _, _, hne, _, _, _, _ => by cases hne
  | [last], jumpIf, target, skip, c, c', u, _, fine, known, _, h => by
    rw [lastOf] at h
    obtain ⟨spans, one⟩ := decides_cond last fine known h
    rw [Cond.operandsAll, Cond.operandsAll, List.append_nil]
    refine ⟨spans, one.last.congr fun store => ?_⟩
    rw [Cond.weighAll, Cond.weighAll, Cond.goOn_neutral, List.take_of_length_le one.lays.codes.length_eq.le]
  | first :: second :: rest, jumpIf, target, skip, c, c', u, _, fine, known, hskip, h => by
    rw [lastOf] at h
    · obtain ⟨_, c₁, h₁, h⟩ := bind_eq_ok.1 h
      obtain ⟨spans, one⟩ := decides_cond first fine hskip h₁
      obtain ⟨spans', others⟩ := decides_lastOf (second :: rest) rfl (one.lays.stays.run.fine fine)
        (known.trans_le one.lays.stays.run.allocated_le) (hskip.trans_le one.lays.stays.run.allocated_le) h
      rw [one.lays.stays.run.shape_eq, one.lays.stays.names] at others
      have hlength := one.lays.codes.length_eq
      refine ⟨spans ++ spans', (one.andThen fine others).congr fun store => ?_⟩
      conv_rhs => rw [Cond.weighAll, List.take_left' hlength, List.drop_left' hlength]
    · exact nofun

end

end Conditions

end Host

section Conditions

variable {host : Host} {c c' : Compiler} {pool : ConstantPool} {labels : LabelSupply} {shape : MethodShape}
  {entry : EditFrame} {condition : Cond} {jumpIf : Bool} {target : Label} {u : Unit}

end Conditions

section Screened

end Screened

end ClassWeave
