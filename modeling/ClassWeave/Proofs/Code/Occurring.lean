import ClassWeave.Proofs.Code.Advancing
import ClassWeave.Proofs.Code.Canonical
import ClassWeave.Proofs.Code.Marking

/-!
Code that occurs in other code. Its instructions stand there in a row, and every target is as far behind the start
of the row as it is behind the start of the code. Nothing that is put in front of the other code or behind it changes
that, nor do the names of labels, and where the other code has no label twice the search for the form finds it.
-/

namespace ClassWeave

/-- What is related to two parts has two parts. -/
theorem forall₂_append_left {α β : Type} {R : α → β → Prop} {xs ys : List α} {zs : List β}
    (h : List.Forall₂ R (xs ++ ys) zs) :
    ∃ us vs, zs = us ++ vs ∧ List.Forall₂ R xs us ∧ List.Forall₂ R ys vs := by
  refine ⟨zs.take xs.length, zs.drop xs.length, (List.take_append_drop _ _).symm, ?_, ?_⟩
  · have htake := List.forall₂_take xs.length h
    rwa [List.take_left] at htake
  · have hdrop := List.forall₂_drop xs.length h
    rwa [List.drop_left] at hdrop

/-- A branch is related to itself if its targets are. -/
theorem Branch.related_self {T : Type} {R : T → T → Prop} {branch : Branch T}
    (h : ∀ target ∈ branch.jumpTargets, R target target) : branch.Related R branch := by
  cases branch with
  | tableSwitch default low targets =>
    obtain ⟨hdefault, htargets⟩ := List.forall_mem_cons.1 h
    exact .tableSwitch hdefault (List.forall₂_same.2 htargets)
  | lookupSwitch default targets =>
    obtain ⟨hdefault, htargets⟩ := List.forall_mem_cons.1 h
    exact .lookupSwitch hdefault (List.forall₂_same.2 fun pair hm => ⟨rfl, htargets _ (List.mem_map_of_mem hm)⟩)
  | «return» kind => exact .return kind
  | raise => exact .raise
  | _ =>
    constructor
    exact h _ (List.mem_singleton_self _)

namespace Node

variable {code nodes others front back : List Node} {label : Label} {i start : Nat}

/-- From one of its instructions on, the nodes have the instructions of the code, with the targets that it has. -/
def OccursAt (code nodes : List Node) (start : Nat) : Prop :=
  ∃ before run after, instructions nodes = before ++ run ++ after ∧ before.length = start ∧
    List.Forall₂ (Related fun label other => ∃ i, indexOf? code label = some i ∧
      indexOf? nodes other = some (start + i)) (instructions code) run

theorem indexOf?_le (h : indexOf? nodes label = some i) : i ≤ (instructions nodes).length := by
  obtain ⟨before, after, rfl, -, rfl⟩ := indexOf?_eq_some.1 h
  rw [instructions_append, List.length_append]
  exact Nat.le_add_right _ _

theorem indexOf?_of_mem (h : .label label ∈ nodes) : ∃ i, indexOf? nodes label = some i := by
  unfold indexOf?
  rw [if_pos h]
  exact ⟨_, rfl⟩

theorem indexOf?_append_left (h : indexOf? nodes label = some i) (back : List Node) :
    indexOf? (nodes ++ back) label = some i := by
  obtain ⟨before, after, rfl, hnew, rfl⟩ := indexOf?_eq_some.1 h
  exact indexOf?_eq_some.2 ⟨before, after ++ back, by simp, hnew, rfl⟩

theorem indexOf?_append_right (h : indexOf? nodes label = some i) (hnew : .label label ∉ front) :
    indexOf? (front ++ nodes) label = some ((instructions front).length + i) := by
  obtain ⟨before, after, rfl, hbefore, rfl⟩ := indexOf?_eq_some.1 h
  refine indexOf?_eq_some.2 ⟨front ++ before, after, by simp, ?_, ?_⟩
  · rw [List.mem_append]
    exact not_or.2 ⟨hnew, hbefore⟩
  · rw [instructions_append, List.length_append]

/-- A label that is found in the second of two parts is not in the first. -/
theorem notMem_of_unique (unique : ((front ++ nodes).filterMap label?).Nodup) (h : .label label ∈ nodes) :
    .label label ∉ front := by
  intro hm
  rw [List.filterMap_append, List.nodup_append] at unique
  exact unique.2.2 label (List.mem_filterMap.2 ⟨_, hm, rfl⟩) label (List.mem_filterMap.2 ⟨_, h, rfl⟩) rfl

/-- The nodes are a part of the others: behind so many other instructions, with each label in its place. -/
def Within (nodes whole : List Node) (offset : Nat) : Prop :=
  ∃ before after, instructions whole = before ++ instructions nodes ++ after ∧ before.length = offset ∧
    ∀ label i, indexOf? nodes label = some i → indexOf? whole label = some (offset + i)

theorem within_append_right (unique : ((front ++ nodes).filterMap label?).Nodup) :
    Within nodes (front ++ nodes) (instructions front).length := by
  refine ⟨instructions front, [], ?_, rfl, fun label i hi => ?_⟩
  · rw [instructions_append, List.append_nil]
  · exact indexOf?_append_right hi (notMem_of_unique unique (mem_of_indexOf? hi))

theorem within_append_left (nodes back : List Node) : Within nodes (nodes ++ back) 0 := by
  refine ⟨[], instructions back, instructions_append nodes back, rfl, fun label i hi => ?_⟩
  rw [Nat.zero_add]
  exact indexOf?_append_left hi back

theorem Within.refl (nodes : List Node) : Within nodes nodes 0 :=
  ⟨[], [], (List.append_nil _).symm, rfl, fun _ _ hi => by rwa [Nat.zero_add]⟩

theorem Within.trans {whole : List Node} {first second : Nat} (h : Within nodes others first)
    (h' : Within others whole second) : Within nodes whole (second + first) := by
  obtain ⟨before, after, hothers, rfl, hindex⟩ := h
  obtain ⟨before', after', hwhole, rfl, hindex'⟩ := h'
  refine ⟨before' ++ before, after ++ after', ?_, List.length_append, fun label i hi => ?_⟩
  · rw [hwhole, hothers]
    simp only [List.append_assoc]
  · rw [Nat.add_assoc]
    exact hindex' label _ (hindex label i hi)

/-- Code that occurs in a part occurs in the whole. -/
theorem OccursAt.within (h : OccursAt code nodes start) {whole : List Node} {offset : Nat}
    (part : Within nodes whole offset) : OccursAt code whole (offset + start) := by
  obtain ⟨first, run, last, hnodes, rfl, hrun⟩ := h
  obtain ⟨before, after, hwhole, rfl, hindex⟩ := part
  refine ⟨before ++ first, run, last ++ after, by rw [hwhole, hnodes]; simp, List.length_append,
    hrun.imp fun node other hr => ?_⟩
  have moved : ∀ label found,
      (∃ i, indexOf? code label = some i ∧ indexOf? nodes found = some (first.length + i)) →
      ∃ i, indexOf? code label = some i ∧ indexOf? whole found = some (before.length + first.length + i) := by
    rintro label found ⟨i, hi, hfound⟩
    refine ⟨i, hi, ?_⟩
    rw [Nat.add_assoc]
    exact hindex found _ hfound
  cases hr with
  | insn insn => exact .insn insn
  | branch hbranch => exact .branch (hbranch.imp moved)

/-- The names of labels do not matter. -/
theorem OccursAt.of_alike (h : OccursAt code nodes start) (alike : Alike nodes others) :
    OccursAt code others start := by
  obtain ⟨before, run, after, hnodes, rfl, hrun⟩ := h
  unfold Alike at alike
  rw [hnodes] at alike
  obtain ⟨front', last, hothers, hfront, -⟩ := forall₂_append_left alike
  obtain ⟨first, row, rfl, hfirst, hrow⟩ := forall₂_append_left hfront
  refine ⟨first, row, last, hothers, hfirst.length_eq.symm,
    forall₂_comp hrun hrow fun node found other hr hs => ?_⟩
  cases hr with
  | insn insn =>
    cases hs
    exact .insn insn
  | branch hbranch =>
    cases hs with
    | branch hsame =>
      refine .branch (hbranch.comp hsame fun label found other hlabel aligned => ?_)
      obtain ⟨i, hi, hfound⟩ := hlabel
      obtain ⟨j, hj, hother⟩ := aligned
      cases hfound.symm.trans hj
      exact ⟨i, hi, hother⟩

/-- Code that jumps nowhere else occurs in itself. -/
theorem occursAt_self (inside : ∀ node ∈ code, ∀ target ∈ node.jumpTargets, .label target ∈ code) :
    OccursAt code code 0 := by
  refine ⟨[], instructions code, [], (List.append_nil _).symm, rfl, List.forall₂_same.2 fun node hm => ?_⟩
  obtain ⟨hm, hplain⟩ := List.mem_filter.1 hm
  cases node with
  | label label => cases hplain
  | insn insn => exact .insn insn
  | branch branch =>
    refine .branch (Branch.related_self fun target ht => ?_)
    obtain ⟨i, hi⟩ := indexOf?_of_mem (inside _ hm target ht)
    exact ⟨i, hi, by rwa [Nat.zero_add]⟩

/-- Nodes are split in front of any of their instructions and of the labels there. -/
theorem exists_split {count : Nat} (h : count ≤ (instructions nodes).length) :
    ∃ before rest, nodes = before ++ rest ∧ (instructions before).length = count ∧
      ∀ label, before.getLast? ≠ some (.label label) := by
  induction nodes generalizing count with
  | nil => exact ⟨[], [], rfl, (Nat.le_zero.1 h).symm, nofun⟩
  | cons node nodes ih =>
    cases count with
    | zero => exact ⟨[], node :: nodes, rfl, rfl, nofun⟩
    | succ count =>
      cases hplain : node.isLabel with
      | true =>
        have hskip : instructions (node :: nodes) = instructions nodes := by simp [instructions, hplain]
        rw [hskip] at h
        obtain ⟨before, rest, rfl, hcount, hlast⟩ := ih h
        refine ⟨node :: before, rest, rfl, by simpa [instructions, hplain] using hcount, fun label => ?_⟩
        cases before with
        | nil => cases hcount
        | cons first before =>
          rw [List.getLast?_cons_cons]
          exact hlast label
      | false =>
        have hskip : instructions (node :: nodes) = node :: instructions nodes := by simp [instructions, hplain]
        rw [hskip, List.length_cons, Nat.add_le_add_iff_right] at h
        obtain ⟨before, rest, rfl, hcount, hlast⟩ := ih h
        refine ⟨node :: before, rest, rfl, ?_, fun label => ?_⟩
        · simpa [instructions, hplain] using hcount
        · cases before with
          | nil =>
            intro he
            cases he
            cases hplain
          | cons first before =>
            rw [List.getLast?_cons_cons]
            exact hlast label

/-- Nodes are split behind any of their instructions and of the labels behind that. -/
theorem exists_split_behind {count : Nat} (h : count ≤ (instructions nodes).length) :
    ∃ run rest, nodes = run ++ rest ∧ (instructions run).length = count ∧
      ∀ label, rest.head? ≠ some (.label label) := by
  have reversed : ∀ nodes, (instructions (nodes : List Node).reverse).length = (instructions nodes).length := by
    intro nodes
    unfold instructions
    rw [List.filter_reverse, List.length_reverse]
  obtain ⟨before, rest, hsplit, hcount, hlast⟩ :=
    @exists_split nodes.reverse ((instructions nodes).length - count) (by rw [reversed]; omega)
  refine ⟨rest.reverse, before.reverse, ?_, ?_, fun label => ?_⟩
  · rw [← List.reverse_append, ← hsplit, List.reverse_reverse]
  · have hall : (instructions nodes.reverse).length = (instructions (before ++ rest)).length := by rw [hsplit]
    rw [reversed, instructions_append, List.length_append] at hall
    rw [reversed]
    omega
  · rw [List.head?_reverse]
    exact hlast label

theorem instructions_ne_nil {node : Node} (hm : node ∈ nodes) (hplain : node.isLabel = false) :
    0 < (instructions nodes).length :=
  List.length_pos_of_mem (List.mem_filter.2 ⟨hm, by simp [hplain]⟩)

/-- A label that something follows, if the last node is no label. -/
theorem indexOf?_lt (hlast : ∀ label, nodes.getLast? ≠ some (.label label)) (h : indexOf? nodes label = some i) :
    i < (instructions nodes).length := by
  obtain ⟨before, after, rfl, -, rfl⟩ := indexOf?_eq_some.1 h
  have hne : Node.label label :: after ≠ [] := List.cons_ne_nil _ _
  have hend : (before ++ .label label :: after).getLast? = some ((Node.label label :: after).getLast hne) := by
    rw [List.getLast?_append_of_ne_nil _ hne, List.getLast?_eq_some_getLast hne]
  have hplain : ((Node.label label :: after).getLast hne).isLabel = false := by
    cases hnode : (Node.label label :: after).getLast hne with
    | label other => exact (hlast other (hnode ▸ hend)).elim
    | insn insn => rfl
    | branch branch => rfl
  rw [instructions_append, List.length_append]
  exact Nat.lt_add_of_pos_right (instructions_ne_nil (List.getLast_mem hne) hplain)

/-- A label that something is in front of, if the first node is no label. -/
theorem indexOf?_pos (hhead : ∀ label, nodes.head? ≠ some (.label label)) (h : indexOf? nodes label = some i) :
    0 < i := by
  obtain ⟨before, after, rfl, -, rfl⟩ := indexOf?_eq_some.1 h
  cases before with
  | nil => exact (hhead label rfl).elim
  | cons node before =>
    refine instructions_ne_nil List.mem_cons_self ?_
    cases node with
    | label other => exact (hhead other rfl).elim
    | insn insn => rfl
    | branch branch => rfl

/-- A label that is in front of an instruction of a part, or right behind it, is in that part. -/
theorem indexOf?_run {before run after : List Node} (unique : ((before ++ run ++ after).filterMap label?).Nodup)
    (hlast : ∀ label, before.getLast? ≠ some (.label label))
    (hhead : ∀ label, after.head? ≠ some (.label label)) (hi : i ≤ (instructions run).length)
    (h : indexOf? (before ++ run ++ after) label = some ((instructions before).length + i)) :
    indexOf? run label = some i := by
  have uniqueFront : ((before ++ run).filterMap label?).Nodup := by
    rw [List.filterMap_append] at unique
    exact (List.nodup_append.1 unique).1
  have hm := mem_of_indexOf? h
  rw [List.mem_append, List.mem_append] at hm
  rcases hm with (hbefore | hrun) | hafter
  · obtain ⟨j, hj⟩ := indexOf?_of_mem hbefore
    have hfound := indexOf?_append_left (indexOf?_append_left hj run) after
    cases h.symm.trans hfound
    have hlt := indexOf?_lt hlast hj
    omega
  · obtain ⟨j, hj⟩ := indexOf?_of_mem hrun
    have hfound := indexOf?_append_left (indexOf?_append_right hj (notMem_of_unique uniqueFront hrun)) after
    have hsame := Option.some.inj (h.symm.trans hfound)
    rw [hj, Nat.add_left_cancel hsame]
  · obtain ⟨j, hj⟩ := indexOf?_of_mem hafter
    have hfound := indexOf?_append_right hj (notMem_of_unique unique hafter)
    have hsame := Option.some.inj (h.symm.trans hfound)
    rw [instructions_append, List.length_append] at hsame
    have hpos := indexOf?_pos hhead hj
    omega

/-- No label is right behind another. -/
def Apart (nodes : List Node) : Prop := nodes.IsChain fun node next => node.isLabel = true → next.isLabel = false

theorem Apart.getLast?_ne {before after : List Node} (h : Apart (before ++ .label label :: after)) (other : Label) :
    before.getLast? ≠ some (.label other) := by
  intro hlast
  obtain ⟨front, rfl⟩ := List.getLast?_eq_some_iff.1 hlast
  rw [Apart, List.append_assoc, List.singleton_append, List.isChain_append_cons_cons] at h
  cases h.2.1 rfl

theorem Apart.head?_ne {before after : List Node} (h : Apart (before ++ .label label :: after)) (other : Label) :
    after.head? ≠ some (.label other) := by
  intro hhead
  obtain ⟨back, rfl⟩ := List.head?_eq_some_iff.1 hhead
  rw [Apart, List.isChain_append_cons_cons] at h
  cases h.2.1 rfl

/-- In front of one instruction there is one label. -/
theorem Apart.eq_of_indexOf? (h : Apart nodes) {other : Label} (hlabel : indexOf? nodes label = some i)
    (hother : indexOf? nodes other = some i) : other = label := by
  obtain ⟨before, after, rfl, -, rfl⟩ := indexOf?_eq_some.1 hlabel
  by_contra hne
  by_cases hbefore : .label other ∈ before
  · obtain ⟨j, hj⟩ := indexOf?_of_mem hbefore
    cases hother.symm.trans (indexOf?_append_left hj _)
    exact Nat.lt_irrefl _ (indexOf?_lt h.getLast?_ne hj)
  · have hafter : .label other ∈ after := by
      have hm := mem_of_indexOf? hother
      rw [List.mem_append, List.mem_cons] at hm
      rcases hm with hm | he | hm
      · exact (hbefore hm).elim
      · exact (hne (Node.label.inj he)).elim
      · exact hm
    obtain ⟨j, hj⟩ := indexOf?_of_mem hafter
    have hnew : .label other ∉ before ++ [.label label] := by
      rw [List.mem_append, List.mem_singleton]
      rintro (hm | he)
      · exact hbefore hm
      · exact hne (Node.label.inj he)
    have hfound := indexOf?_append_right hj hnew
    rw [List.append_assoc, List.singleton_append] at hfound
    have hsame := Option.some.inj (hother.symm.trans hfound)
    have hlength : (instructions (before ++ [.label label])).length = (instructions before).length := by
      rw [instructions_append]
      exact congrArg List.length (List.append_nil _)
    have hpos := indexOf?_pos h.head?_ne hj
    omega

theorem apart_weave {known : OffsetLabels} {entries : List (Nat × Decoded)} {plain : List Node} {length : Nat}
    (h : List.Forall₂ (fun _ node => Node.isLabel node = false) entries plain) :
    Apart (known.weave entries plain length) := by
  induction h with
  | nil =>
    unfold OffsetLabels.weave
    cases known.at? length with
    | none => exact .nil
    | some label => exact .singleton _
  | @cons entry node rest others hnode _ ih =>
    have hbehind : Apart (node :: known.weave rest others length) := by
      cases hrest : known.weave rest others length with
      | nil => exact .singleton _
      | cons first more =>
        rw [hrest] at ih
        exact .cons_cons (fun hl => by rw [hnode] at hl; cases hl) ih
    rw [OffsetLabels.weave_cons, OffsetLabels.nodesAt]
    cases known.at? entry.1 with
    | none => exact hbehind
    | some label => exact .cons_cons (fun _ => hnode) hbehind

end Node

namespace CanonicalNode

variable {code before rest : List Node}

/-- Code that occurs is found by its form, behind the instruction in front of it. -/
theorem matchesAt_of_occursAt (unique : ((before ++ rest).filterMap Node.label?).Nodup)
    (unique' : (code.filterMap Node.label?).Nodup) (hlast : ∀ label, before.getLast? ≠ some (.label label))
    (h : Node.OccursAt code (before ++ rest) (Node.instructions before).length) :
    matchesAt (ofNodes code) rest = true := by
  obtain ⟨front, row, behind, hnodes, hlength, hrow⟩ := h
  rw [Node.instructions_append, List.append_assoc] at hnodes
  obtain ⟨rfl, hrest⟩ := List.append_inj hnodes hlength.symm
  have hcount : (Node.instructions code).length ≤ (Node.instructions rest).length := by
    rw [hrest, hrow.length_eq, List.length_append]
    exact Nat.le_add_right _ _
  obtain ⟨run, after, rfl, hrun, hhead⟩ := Node.exists_split_behind hcount
  refine matchesAt_iff.2 ⟨run, after, rfl, hhead, ?_⟩
  rw [Node.instructions_append] at hrest
  obtain ⟨rfl, -⟩ := List.append_inj hrest (hrun.trans hrow.length_eq)
  rw [← List.append_assoc] at unique hrow
  have huniqueRun : (run.filterMap Node.label?).Nodup := by
    rw [List.filterMap_append, List.filterMap_append, List.append_assoc] at unique
    exact (List.nodup_append.1 (List.nodup_append.1 unique).2.1).1
  refine (filterMap_of_forall₂ (hrow.imp fun node other hr => ?_)).symm
  have same : ∀ label other, (∃ i, Node.indexOf? code label = some i ∧
      Node.indexOf? (before ++ run ++ after) other = some ((Node.instructions before).length + i)) →
      (positionsOf code).get? label.number = (positionsOf run).get? other.number := by
    rintro label other ⟨i, hi, hother⟩
    rw [get?_positionsOf unique', get?_positionsOf huniqueRun, hi]
    exact (Node.indexOf?_run unique hlast hhead (hrun ▸ Node.indexOf?_le hi) hother).symm
  cases hr with
  | insn insn => exact .insn insn
  | branch hbranch => exact .branch (hbranch.imp same)

end CanonicalNode

/-- The labels of a body that is read are apart. -/
theorem MethodBody.apart_of_decode {code : Code} {pool : ConstantPool} {shape : MethodShape} {body : MethodBody}
    (h : decode code pool shape = .ok body) : Node.Apart body.nodes := by
  obtain ⟨entries, tables, labels, decoded⟩ := decodedAs_of_decode h
  obtain ⟨plain, hplain, hnodes⟩ := decoded.nodes_eq
  rw [hnodes]
  exact Node.apart_weave (hplain.imp fun _ _ => OffsetLabels.isLabel_of_node)

end ClassWeave
