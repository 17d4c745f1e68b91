import ClassWeave.Patch.Method

/-!
Rules and tables of rules. A table is in the order in which its rules are applied, and the outcome
of each is reported.
-/

namespace ClassWeave

/-- A patch for one method; rules of higher priority come first. -/
structure PatchRule where
  description : String
  target : MethodSignature
  strategy : PatchStrategy
  priority : Int32

namespace PatchRule

/-- Puts a rule in front of all that do not have a higher priority. -/
def insert (rule : PatchRule) : List PatchRule → List PatchRule
  | [] => [rule]
  | first :: rest =>
    if first.priority ≤ rule.priority then rule :: first :: rest else first :: insert rule rest

theorem mem_insert {rule other : PatchRule} {rules : List PatchRule} :
    other ∈ insert rule rules ↔ other = rule ∨ other ∈ rules := by
  induction rules with
  | nil => simp [insert]
  | cons first rest ih =>
    unfold insert
    split
    · simp
    · simp only [List.mem_cons, ih]
      constructor <;> rintro (h | h | h) <;> simp [h]

theorem pairwise_insert (rule : PatchRule) {rules : List PatchRule}
    (h : rules.Pairwise fun a b => b.priority ≤ a.priority) :
    (insert rule rules).Pairwise fun a b => b.priority ≤ a.priority := by
  induction rules with
  | nil => simp [insert]
  | cons first rest ih =>
    have ⟨below, ordered⟩ := List.pairwise_cons.1 h
    unfold insert
    split
    next le =>
      refine List.pairwise_cons.2 ⟨fun other mem => ?_, h⟩
      rcases List.mem_cons.1 mem with rfl | mem
      · exact le
      · exact Int32.le_trans (below other mem) le
    next lt =>
      refine List.pairwise_cons.2 ⟨fun other mem => ?_, ih ordered⟩
      rcases mem_insert.1 mem with rfl | mem
      · exact Int32.le_of_lt (Int32.not_le.1 lt)
      · exact below other mem

end PatchRule

/-- Rules in descending order of priority. -/
structure RuleTable where
  rules : List PatchRule
  descending : rules.Pairwise fun a b => b.priority ≤ a.priority

namespace RuleTable

/-- Rules of one priority keep their order. -/
def ofList (rules : List PatchRule) : RuleTable where
  rules := rules.foldr PatchRule.insert []
  descending := by
    induction rules with
    | nil => exact .nil
    | cons rule rest ih => exact PatchRule.pairwise_insert rule ih

def forClass (table : RuleTable) (name : String) : List PatchRule :=
  table.rules.filter fun rule => rule.target.owner.text = name

end RuleTable

/-- Why a rule or a whole class is left alone. -/
inductive TransformError where
  | malformedInput (cause : ClassError)
  | patch (cause : PatchError)
  deriving DecidableEq, Repr

inductive RuleOutcome where
  | noMatch
  | unchanged
  | applied
  | failed (cause : TransformError)
  deriving DecidableEq, Repr

structure RuleReport where
  description : String
  target : String
  outcome : RuleOutcome
  deriving DecidableEq, Repr

end ClassWeave
