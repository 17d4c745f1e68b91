import ClassWeave.Rule.Basic
import Mathlib.Data.List.Sort

/-!
The order in which rules are applied. A table sorts the rules as they were registered: those of higher
priority come first, and those of one priority keep their order.
-/

namespace ClassWeave

namespace PatchRule

/-- A rule of a priority that is not lower may be applied first. -/
abbrev NotBelow (a b : PatchRule) : Prop := b.priority ≤ a.priority

/-- Of two rules with their places in the registration the first is applied first. -/
def Before (a b : PatchRule × Nat) : Prop :=
  b.1.priority < a.1.priority ∨ a.1.priority = b.1.priority ∧ a.2 < b.2

instance : Std.Asymm Before where
  asymm a b h h' := by
    rcases h with h | ⟨h, hlt⟩ <;> rcases h' with h' | ⟨h', hlt'⟩
    · exact Int32.lt_asymm h h'
    · rw [h'] at h
      exact Int32.lt_irrefl h
    · rw [h] at h'
      exact Int32.lt_irrefl h'
    · omega

/-- Rules with their places, sorted by their priorities alone. -/
def sorted (entries : List (PatchRule × Nat)) : List (PatchRule × Nat) :=
  entries.insertionSort fun a b => NotBelow a.1 b.1

theorem perm_sorted (entries : List (PatchRule × Nat)) : (sorted entries).Perm entries :=
  List.perm_insertionSort _ _

/-- A rule that was registered earlier goes in front of all that do not have a higher priority. -/
theorem pairwise_orderedInsert {first : PatchRule × Nat} {found : List (PatchRule × Nat)}
    (h : found.Pairwise Before) (later : ∀ entry ∈ found, first.2 < entry.2) :
    (found.orderedInsert (fun a b => NotBelow a.1 b.1) first).Pairwise Before := by
  have ahead : ∀ entry ∈ found, NotBelow first.1 entry.1 → Before first entry := by
    intro entry hm hle
    rcases Int32.lt_or_eq_of_le hle with hlt | heq
    · exact .inl hlt
    · exact .inr ⟨heq.symm, later entry hm⟩
  induction found with
  | nil => simp
  | cons entry rest ih =>
    obtain ⟨hentry, hrest⟩ := List.pairwise_cons.1 h
    rw [List.orderedInsert_cons]
    split
    · next hle =>
      refine List.pairwise_cons.2 ⟨fun other hm => ahead other hm ?_, h⟩
      rcases List.mem_cons.1 hm with rfl | hm
      · exact hle
      · rcases hentry other hm with hlt | ⟨heq, -⟩
        · exact Int32.le_trans (Int32.le_of_lt hlt) hle
        · rwa [NotBelow, ← heq]
    · next hlt =>
      have hlt : first.1.priority < entry.1.priority := Int32.not_le.1 hlt
      have inserted := ih hrest (fun other hm => later other (List.mem_cons_of_mem _ hm))
        fun other hm => ahead other (List.mem_cons_of_mem _ hm)
      refine List.pairwise_cons.2 ⟨fun other hm => ?_, inserted⟩
      rcases (List.mem_orderedInsert _).1 hm with rfl | hm
      · exact .inl hlt
      · exact hentry other hm

/-- Sorting keeps rules of one priority in the order of their places. -/
theorem pairwise_sorted {entries : List (PatchRule × Nat)} (h : entries.Pairwise fun a b => a.2 < b.2) :
    (sorted entries).Pairwise Before := by
  induction entries with
  | nil => exact .nil
  | cons first rest ih =>
    obtain ⟨below, ordered⟩ := List.pairwise_cons.1 h
    have later : ∀ entry ∈ sorted rest, first.2 < entry.2 := fun entry hm =>
      below entry ((perm_sorted rest).mem_iff.1 hm)
    exact pairwise_orderedInsert (ih ordered) later

theorem insert_eq_orderedInsert (rule : PatchRule) (rules : List PatchRule) :
    insert rule rules = rules.orderedInsert NotBelow rule := by
  induction rules with
  | nil => rfl
  | cons first rest ih => rw [insert, List.orderedInsert_cons, ih]

end PatchRule

open PatchRule

namespace RuleTable

theorem rules_ofList (rules : List PatchRule) : (ofList rules).rules = rules.insertionSort NotBelow := by
  have same : PatchRule.insert = List.orderedInsert NotBelow :=
    funext fun rule => funext fun rules => insert_eq_orderedInsert rule rules
  exact congrArg (fun step => rules.foldr step []) same

/-- Places do not matter for the order of the rules. -/
theorem rules_ofList_map (entries : List (PatchRule × Nat)) :
    (ofList (entries.map Prod.fst)).rules = (sorted entries).map Prod.fst := by
  rw [rules_ofList]
  exact (List.map_insertionSort _ _ Prod.fst entries fun _ _ _ _ => Iff.rfl).symm

/-- The registered rules for a class with their places in the registration, in the order in which they are
applied. -/
def schedule (rules : List PatchRule) (name : String) : List (PatchRule × Nat) :=
  (sorted rules.zipIdx).filter fun entry => entry.1.target.owner.text = name

theorem forClass_map (entries : List (PatchRule × Nat)) (name : String) :
    (ofList (entries.map Prod.fst)).forClass name =
      ((sorted entries).filter fun entry => entry.1.target.owner.text = name).map Prod.fst := by
  rw [forClass, rules_ofList_map, List.filter_map]
  rfl

theorem map_fst_schedule (rules : List PatchRule) (name : String) :
    (schedule rules name).map Prod.fst = (ofList rules).forClass name := by
  rw [schedule, ← forClass_map, List.zipIdx_map_fst]

theorem pairwise_zipIdx (rules : List PatchRule) (start : Nat) :
    (rules.zipIdx start).Pairwise fun a b => a.2 < b.2 := by
  induction rules generalizing start with
  | nil => exact .nil
  | cons first rest ih =>
    rw [List.zipIdx_cons]
    refine List.pairwise_cons.2 ⟨fun entry hm => ?_, ih (start + 1)⟩
    have := List.le_snd_of_mem_zipIdx hm
    omega

theorem pairwise_schedule (rules : List PatchRule) (name : String) :
    (schedule rules name).Pairwise Before :=
  (pairwise_sorted (pairwise_zipIdx rules 0)).filter _

theorem perm_schedule (rules : List PatchRule) (name : String) :
    (schedule rules name).Perm (rules.zipIdx.filter fun entry => entry.1.target.owner.text = name) :=
  (perm_sorted _).filter _

/-- No two rules have one place. -/
theorem distinct_schedule (rules : List PatchRule) (name : String) :
    (schedule rules name).Pairwise fun a b => a.2 ≠ b.2 := by
  have apart := ((pairwise_zipIdx rules 0).filter fun entry => entry.1.target.owner.text = name).imp
    fun h => Nat.ne_of_lt h
  exact (perm_schedule rules name).symm.pairwise apart fun h => h.symm

/-- The rules that were registered at some of the places. -/
def keep (rules : List PatchRule) (places : List Nat) : List PatchRule :=
  (rules.zipIdx.filter fun entry => entry.2 ∈ places).map Prod.fst

/-- A table of some of the rules has them in the order of the table of all. -/
theorem forClass_keep (rules : List PatchRule) (places : List Nat) (name : String) :
    (ofList (keep rules places)).forClass name =
      ((schedule rules name).filter fun entry => entry.2 ∈ places).map Prod.fst := by
  have same : sorted (rules.zipIdx.filter fun entry => entry.2 ∈ places) =
      (sorted rules.zipIdx).filter fun entry => entry.2 ∈ places := by
    have hperm := (perm_sorted (rules.zipIdx.filter fun entry => entry.2 ∈ places)).trans
      ((perm_sorted rules.zipIdx).filter fun entry => entry.2 ∈ places).symm
    refine hperm.eq_of_pairwise (fun a b _ _ h h' => ?_) (pairwise_sorted ((pairwise_zipIdx rules 0).filter _))
      ((pairwise_sorted (pairwise_zipIdx rules 0)).filter _)
    exact absurd h' (Std.Asymm.asymm a b h)
  rw [keep, forClass_map, same, schedule, List.filter_filter, List.filter_filter]
  simp only [Bool.and_comm]

end RuleTable

end ClassWeave
