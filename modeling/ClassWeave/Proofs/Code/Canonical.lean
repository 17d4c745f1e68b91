import ClassWeave.Patch.Canonical
import ClassWeave.Proofs.Code.Aligning
import Mathlib.Data.List.Induction

/-!
The canonical form of code. Nodes of the same form are alike, if every label has one place and the targets
are inside. A form is found among nodes just where a run of it begins.
-/

namespace ClassWeave

namespace Branch

variable {T U V : Type}

theorem map_tableSwitch (f : T → U) (default : T) (low : Int32) (targets : List T) :
    (tableSwitch default low targets).map f = .tableSwitch (f default) low (targets.map f) := by
  simp [map, mapM]

theorem map_lookupSwitch (f : T → U) (default : T) (targets : List (Int32 × T)) :
    (lookupSwitch default targets).map f =
      .lookupSwitch (f default) (targets.map fun (key, target) => (key, f target)) := by
  simp [map, mapM]

theorem related_of_map {f : T → V} {g : U → V} {branch : Branch T} {other : Branch U}
    (h : branch.map f = other.map g) : Related (fun t u => f t = g u) branch other := by
  cases branch with
  | tableSwitch default low targets =>
    cases other with
    | tableSwitch default' low' targets' =>
      rw [map_tableSwitch, map_tableSwitch] at h
      injection h with hd hlow ht
      subst hlow
      rw [← List.forall₂_eq_eq_eq, List.forall₂_map_left_iff, List.forall₂_map_right_iff] at ht
      exact .tableSwitch hd ht
    | _ => cases h
  | lookupSwitch default targets =>
    cases other with
    | lookupSwitch default' targets' =>
      rw [map_lookupSwitch, map_lookupSwitch] at h
      injection h with hd ht
      rw [← List.forall₂_eq_eq_eq, List.forall₂_map_left_iff, List.forall₂_map_right_iff] at ht
      exact .lookupSwitch hd (ht.imp fun t u he => ⟨congrArg Prod.fst he, congrArg Prod.snd he⟩)
    | _ => cases h
  | «return» kind =>
    cases other <;> cases h
    exact .return kind
  | raise =>
    cases other <;> cases h
    exact .raise
  | _ =>
    cases other <;> injection h
    subst_vars
    constructor
    assumption

theorem Related.map_eq {f : T → V} {g : U → V} {branch : Branch T} {other : Branch U}
    (h : Related (fun t u => f t = g u) branch other) : branch.map f = other.map g := by
  cases h with
  | tableSwitch hd ht =>
    have htargets := List.forall₂_eq_eq_eq ▸ List.forall₂_map_left_iff.2 (List.forall₂_map_right_iff.2 ht)
    rw [map_tableSwitch, map_tableSwitch, hd, htargets]
  | lookupSwitch hd ht =>
    have hpairs := ht.imp (S := fun (pair : Int32 × T) (found : Int32 × U) =>
      (pair.1, f pair.2) = (found.1, g found.2)) fun pair found hp => Prod.ext hp.1 hp.2
    have htargets := List.forall₂_eq_eq_eq ▸ List.forall₂_map_left_iff.2 (List.forall₂_map_right_iff.2 hpairs)
    rw [map_lookupSwitch, map_lookupSwitch, hd, htargets]
  | «return» kind => rfl
  | raise => rfl
  | ifZero ht => exact congrArg (Branch.ifZero _) ht
  | ifInts ht => exact congrArg (Branch.ifInts _) ht
  | ifRefs ht => exact congrArg (Branch.ifRefs _) ht
  | ifNull ht => exact congrArg (Branch.ifNull _) ht
  | goto ht => exact congrArg Branch.goto ht

/-- What is known of each target can be used for it. -/
theorem Related.imp_of_mem {R S : T → U → Prop} {branch : Branch T} {other : Branch U}
    (h : branch.Related R other) (hs : ∀ t ∈ branch.jumpTargets, ∀ u, R t u → S t u) :
    branch.Related S other := by
  have all : ∀ {α β : Type} {Q P : α → β → Prop} {items : List α} {values : List β},
      List.Forall₂ Q items values → (∀ a ∈ items, ∀ b, Q a b → P a b) → List.Forall₂ P items values := by
    intro α β Q P items values hall
    induction hall with
    | nil => exact fun _ => .nil
    | cons first _ ih =>
      intro hp
      obtain ⟨hfirst, hrest⟩ := List.forall_mem_cons.1 hp
      exact .cons (hfirst _ first) (ih hrest)
  cases h with
  | tableSwitch hd ht =>
    obtain ⟨hdefault, hrest⟩ := List.forall_mem_cons.1 hs
    exact .tableSwitch (hdefault _ hd) (all ht hrest)
  | lookupSwitch hd ht =>
    obtain ⟨hdefault, hrest⟩ := List.forall_mem_cons.1 hs
    refine .lookupSwitch (hdefault _ hd) (all ht fun t hm u hp => ⟨hp.1, hrest _ ?_ _ hp.2⟩)
    exact List.mem_map_of_mem hm
  | «return» kind => exact .return kind
  | raise => exact .raise
  | _ ht =>
    constructor
    exact hs _ (List.mem_singleton_self _) _ ht

end Branch

namespace Node

/-- A label behind nodes without it. -/
theorem indexOf?_concat (nodes : List Node) (node : Node) (label : Label) :
    indexOf? (nodes ++ [node]) label =
      if .label label ∈ nodes then indexOf? nodes label
      else if node = .label label then some (instructions nodes).length else none := by
  by_cases hm : .label label ∈ nodes
  · rw [if_pos hm]
    obtain ⟨before, after, rfl, hnew⟩ := List.eq_append_cons_of_mem hm
    have hwhole := indexOf?_eq_some.2 ⟨before, after, rfl, hnew, rfl⟩
    rw [hwhole]
    exact indexOf?_eq_some.2 ⟨before, after ++ [node], by simp, hnew, rfl⟩
  · rw [if_neg hm]
    by_cases he : node = .label label
    · rw [if_pos he]
      exact indexOf?_eq_some.2 ⟨nodes, [], by rw [he], hm, rfl⟩
    · rw [if_neg he]
      unfold indexOf?
      rw [if_neg]
      intro hmem
      rcases List.mem_append.1 hmem with hmem | hmem
      · exact hm hmem
      · exact he (List.mem_singleton.1 hmem).symm

end Node

namespace CanonicalNode

variable {nodes others : List Node}

/-- The form of a node, if it is no label. -/
def formOf (positions : NatMap Nat) : Node → Option CanonicalNode
  | .label _ => none
  | .insn i => some (.insn i)
  | .branch b => some (.branch (b.map fun label => positions.get? label.number))

theorem ofNodes_eq (nodes : List Node) : ofNodes nodes = nodes.filterMap (formOf (positionsOf nodes)) := rfl

/-- One instruction of the form for each one of the code. -/
theorem length_ofNodes (nodes : List Node) : (ofNodes nodes).length = (Node.instructions nodes).length := by
  rw [ofNodes_eq, List.length_filterMap_eq_countP, Node.instructions, ← List.countP_eq_length_filter]
  refine List.countP_congr fun node _ => ?_
  cases node <;> simp [formOf, Node.isLabel]

/-- What the search for labels makes of one more node: the places so far, and the number of instructions. -/
def numberOnto (found : NatMap Nat × Nat) (node : Node) : NatMap Nat × Nat :=
  match node with
  | .label label => (found.1.set label.number found.2, found.2)
  | _ => (found.1, found.2 + 1)

theorem positionsOf_eq (nodes : List Node) : positionsOf nodes = (nodes.foldl numberOnto (NatMap.empty, 0)).1 := rfl

theorem count_numberOnto (nodes : List Node) :
    (nodes.foldl numberOnto (NatMap.empty, 0)).2 = (Node.instructions nodes).length := by
  induction nodes using List.reverseRecOn with
  | nil => rfl
  | append_singleton nodes node ih =>
    rw [List.foldl_append, Node.instructions_append, List.length_append, ← ih]
    cases node <;> rfl

theorem positionsOf_label (nodes : List Node) (label : Label) : positionsOf (nodes ++ [.label label]) =
    (positionsOf nodes).set label.number (Node.instructions nodes).length := by
  rw [positionsOf_eq, positionsOf_eq, List.foldl_append, ← count_numberOnto nodes]
  rfl

theorem positionsOf_plain (nodes : List Node) {node : Node} (plain : node.isLabel = false) :
    positionsOf (nodes ++ [node]) = positionsOf nodes := by
  rw [positionsOf_eq, positionsOf_eq, List.foldl_append]
  cases node with
  | label label => cases plain
  | insn insn => rfl
  | branch branch => rfl

/-- A label that has one place has the number of instructions in front of it. -/
theorem get?_positionsOf (unique : (nodes.filterMap Node.label?).Nodup) (label : Label) :
    (positionsOf nodes).get? label.number = Node.indexOf? nodes label := by
  induction nodes using List.reverseRecOn with
  | nil => rfl
  | append_singleton nodes node ih =>
    rw [List.filterMap_append, List.nodup_append] at unique
    have before := ih unique.1
    rw [Node.indexOf?_concat]
    have absent : .label label ∉ nodes → Node.indexOf? nodes label = none := fun hn => if_neg hn
    cases plain : node.isLabel with
    | false =>
      have hne : node ≠ .label label := by
        intro he
        rw [he] at plain
        cases plain
      rw [positionsOf_plain nodes plain, before]
      split
      · rfl
      · next hm => exact absent hm
    | true =>
      obtain ⟨other, rfl⟩ : ∃ other, node = .label other := by
        cases node with
        | label other => exact ⟨other, rfl⟩
        | insn insn => cases plain
        | branch branch => cases plain
      rw [positionsOf_label, NatMap.get?_set, before]
      by_cases he : label = other
      · subst he
        have hnew : .label label ∉ nodes := by
          intro hm
          exact unique.2.2 label (List.mem_filterMap.2 ⟨_, hm, rfl⟩) label (List.mem_singleton_self _) rfl
        rw [if_pos rfl, if_neg hnew, if_pos rfl]
      · have hnumber : label.number ≠ other.number := fun hn => he (congrArg Label.mk hn)
        rw [if_neg hnumber]
        split
        · rfl
        · next hm => rw [absent hm, if_neg (by simpa using fun h => he h.symm)]

theorem related_of_formOf {p q : NatMap Nat} {node other : Node} (plain : node.isLabel = false)
    (h : formOf p node = formOf q other) :
    node.Related (fun l m => p.get? l.number = q.get? m.number) other := by
  cases node with
  | label l => cases plain
  | insn i =>
    cases other with
    | insn j =>
      cases h
      exact .insn i
    | _ => cases h
  | branch b =>
    cases other with
    | branch c =>
      injection h with h
      injection h with h
      exact .branch (Branch.related_of_map h)
    | _ => cases h

theorem map_formOf_instructions (positions : NatMap Nat) (nodes : List Node) :
    (Node.instructions nodes).map (formOf positions) = (nodes.filterMap (formOf positions)).map some := by
  induction nodes with
  | nil => rfl
  | cons node rest ih =>
    unfold Node.instructions at ih ⊢
    cases node with
    | label label => exact ih
    | insn insn => exact congrArg (List.cons _) ih
    | branch branch => exact congrArg (List.cons _) ih

/-- Instruction by instruction. -/
theorem forall₂_of_filterMap {p q : NatMap Nat} {nodes others : List Node}
    (h : nodes.filterMap (formOf p) = others.filterMap (formOf q)) :
    List.Forall₂ (Node.Related fun l m => p.get? l.number = q.get? m.number)
      (Node.instructions nodes) (Node.instructions others) := by
  have hforms := map_formOf_instructions p nodes
  rw [h, ← map_formOf_instructions q others, ← List.forall₂_eq_eq_eq, List.forall₂_map_left_iff,
    List.forall₂_map_right_iff] at hforms
  have hplain : ∀ node ∈ Node.instructions nodes, node.isLabel = false := by
    intro node hm
    simpa using (List.mem_filter.1 hm).2
  have hboth := (List.forall₂_and_left _ _).2 ⟨hplain, hforms⟩
  exact hboth.imp fun node other hn => related_of_formOf hn.1 hn.2

theorem formOf_of_related {p q : NatMap Nat} {node other : Node}
    (h : node.Related (fun l m => p.get? l.number = q.get? m.number) other) : formOf p node = formOf q other := by
  cases h with
  | insn insn => rfl
  | branch hbranch => exact congrArg (fun found => some (CanonicalNode.branch found)) hbranch.map_eq

theorem filterMap_of_forall₂ {p q : NatMap Nat} {nodes others : List Node}
    (h : List.Forall₂ (Node.Related fun l m => p.get? l.number = q.get? m.number)
      (Node.instructions nodes) (Node.instructions others)) :
    nodes.filterMap (formOf p) = others.filterMap (formOf q) := by
  have hforms : (Node.instructions nodes).map (formOf p) = (Node.instructions others).map (formOf q) := by
    rw [← List.forall₂_eq_eq_eq, List.forall₂_map_left_iff, List.forall₂_map_right_iff]
    exact h.imp fun _ _ => formOf_of_related
  rw [map_formOf_instructions, map_formOf_instructions] at hforms
  exact List.map_injective_iff.2 (Option.some_injective _) hforms

/-- Code of the same form has the same instructions with the same targets. -/
theorem alike_of_ofNodes {nodes others : List Node} (unique : (nodes.filterMap Node.label?).Nodup)
    (unique' : (others.filterMap Node.label?).Nodup)
    (inside : ∀ node ∈ nodes, ∀ target ∈ node.jumpTargets, .label target ∈ nodes)
    (h : ofNodes nodes = ofNodes others) : Node.Alike nodes others := by
  have hrelated := forall₂_of_filterMap h
  have hinside : ∀ node ∈ Node.instructions nodes, ∀ target ∈ node.jumpTargets, .label target ∈ nodes := by
    intro node hm
    exact inside node (List.mem_of_mem_filter hm)
  have hboth := (List.forall₂_and_left _ _).2 ⟨hinside, hrelated⟩
  refine hboth.imp fun node other hn => ?_
  obtain ⟨htargets, hrelated⟩ := hn
  cases hrelated with
  | insn insn => exact .insn insn
  | branch hbranch =>
    refine .branch (hbranch.imp_of_mem fun target hm found he => ?_)
    -- The target is there, so its number of instructions is known on both sides.
    rw [get?_positionsOf unique, get?_positionsOf unique'] at he
    have hindex : Node.indexOf? nodes target = some _ := if_pos (htargets target hm)
    exact ⟨_, hindex, he.symm.trans hindex⟩

section Matching

variable {expected : List CanonicalNode} {count : Nat} {nodes taken out : List Node}

/-- As many instructions as are asked for are taken, and all labels behind the last. -/
theorem takeOnto_eq_some : takeOnto count nodes taken = some out ↔
    ∃ run rest, nodes = run ++ rest ∧ (Node.instructions run).length = count ∧
      (∀ label, rest.head? ≠ some (.label label)) ∧ out = run.reverse ++ taken := by
  constructor
  · intro h
    fun_induction takeOnto count nodes taken with
    | case1 count label rest taken ih =>
      obtain ⟨run, others, rfl, hcount, hrest, rfl⟩ := ih h
      exact ⟨.label label :: run, others, rfl, hcount, hrest, by simp⟩
    | case2 nodes taken plain =>
      cases h
      refine ⟨[], nodes, rfl, rfl, fun label hhead => ?_, rfl⟩
      obtain ⟨rest, hnodes⟩ := List.head?_eq_some_iff.1 hhead
      exact plain label rest hnodes
    | case3 => cases h
    | case4 count node rest taken plain ih =>
      obtain ⟨run, others, rfl, hcount, hrest, rfl⟩ := ih h
      refine ⟨node :: run, others, rfl, ?_, hrest, by simp⟩
      cases node with
      | label label => exact (plain label rfl).elim
      | insn insn => exact congrArg (· + 1) hcount
      | branch branch => exact congrArg (· + 1) hcount
  · rintro ⟨run, rest, rfl, rfl, hrest, rfl⟩
    induction run generalizing taken with
    | nil =>
      cases rest with
      | nil => rfl
      | cons node rest =>
        cases node with
        | label label => exact (hrest label rfl).elim
        | insn insn => rfl
        | branch branch => rfl
    | cons node run ih =>
      rw [List.reverse_cons, List.append_assoc]
      cases node with
      | label label =>
        rw [List.cons_append, takeOnto]
        exact ih
      | insn insn => exact ih
      | branch branch => exact ih

/-- The instructions that are compared are a run that no label follows. -/
theorem matchesAt_iff : matchesAt expected nodes = true ↔ ∃ run rest, nodes = run ++ rest ∧
    (∀ label, rest.head? ≠ some (.label label)) ∧ ofNodes run = expected := by
  unfold matchesAt
  constructor
  · intro h
    split at h
    · cases h
    · next taken htaken =>
      obtain ⟨run, rest, hnodes, -, hrest, rfl⟩ := takeOnto_eq_some.1 htaken
      refine ⟨run, rest, hnodes, hrest, ?_⟩
      simpa using h
  · rintro ⟨run, rest, hnodes, hrest, rfl⟩
    have htaken : takeOnto (Node.instructions run).length nodes [] = some (run.reverse ++ []) :=
      takeOnto_eq_some.2 ⟨run, rest, hnodes, rfl, hrest, rfl⟩
    rw [length_ofNodes, htaken]
    simp

theorem occursIn_iff : occursIn expected nodes = true ↔
    ∃ before rest, nodes = before ++ rest ∧ rest ≠ [] ∧ matchesAt expected rest = true := by
  induction nodes with
  | nil =>
    constructor
    · nofun
    · rintro ⟨before, rest, hnodes, hne, -⟩
      exact (hne (List.append_eq_nil_iff.1 hnodes.symm).2).elim
  | cons node nodes ih =>
    rw [occursIn, Bool.or_eq_true, ih]
    constructor
    · rintro (hhere | ⟨before, rest, rfl, hne, hmatches⟩)
      · exact ⟨[], node :: nodes, rfl, List.cons_ne_nil _ _, hhere⟩
      · exact ⟨node :: before, rest, rfl, hne, hmatches⟩
    · rintro ⟨before, rest, hnodes, hne, hmatches⟩
      cases before with
      | nil =>
        rw [List.nil_append] at hnodes
        exact .inl (hnodes ▸ hmatches)
      | cons first before =>
        injection hnodes with _ hnodes
        exact .inr ⟨before, rest, hnodes, hne, hmatches⟩

end Matching

end CanonicalNode

end ClassWeave
