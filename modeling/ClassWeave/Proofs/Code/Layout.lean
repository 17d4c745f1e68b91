import ClassWeave.Code.Layout
import ClassWeave.Proofs.Code.Building

/-!
Layouts of code. A layout puts each node behind the one before it, so the offset of a label is what
the nodes in front of it take, and two labels share an offset just when no instruction lies between.
-/

namespace ClassWeave

theorem Insn.width_pos (insn : Insn) : 0 < insn.width := by
  unfold Insn.width
  split <;> (try split) <;> (try split) <;> omega

theorem Branch.width_pos {T : Type} (offset : Nat) (wide : Bool) (branch : Branch T) :
    0 < branch.width offset wide := by
  unfold Branch.width
  split <;> (try split) <;> omega

/-- The target that has to be within the reach of a short jump; `wide` is for a goto in its long form. -/
def Branch.near? {T : Type} (wide : Bool) : Branch T → Option T
  | .ifZero _ target | .ifInts _ target | .ifRefs _ target | .ifNull _ target => some target
  | .goto target => if wide then none else some target
  | _ => none

theorem Branch.near?_goto {T : Type} {wide : Bool} {target other : T} :
    (Branch.goto target).near? wide = some other ↔ wide = false ∧ target = other := by
  cases wide <;> simp [near?]

namespace Placed

theorem width_label (l : Label) (wide : Bool) (offset : Nat) :
    (Placed.mk (.label l) wide offset).width = 0 := rfl

theorem width_pos {placed : Placed} (h : placed.node.isLabel = false) : 0 < placed.width := by
  obtain ⟨node, wide, offset⟩ := placed
  cases node with
  | label l => cases h
  | insn i => exact i.width_pos
  | branch b => exact b.width_pos offset wide

end Placed

namespace Layout

/-- The nodes one behind the other from an offset on. -/
def spread : Nat → List (Node × Bool) → List Placed
  | _, [] => []
  | offset, (node, wide) :: rest =>
    ⟨node, wide, offset⟩ :: spread (offset + (Placed.mk node wide offset).width) rest

/-- The offset behind the nodes. -/
def reach : Nat → List (Node × Bool) → Nat
  | offset, [] => offset
  | offset, (node, wide) :: rest => reach (offset + (Placed.mk node wide offset).width) rest

theorem spread_append (offset : Nat) (a b : List (Node × Bool)) :
    spread offset (a ++ b) = spread offset a ++ spread (reach offset a) b := by
  induction a generalizing offset with
  | nil => rfl
  | cons first rest ih => simp only [List.cons_append, spread, reach, ih]

theorem reach_append (offset : Nat) (a b : List (Node × Bool)) :
    reach offset (a ++ b) = reach (reach offset a) b := by
  induction a generalizing offset with
  | nil => rfl
  | cons first rest ih => simp only [List.cons_append, reach, ih]

theorem getElem?_spread (offset : Nat) (nodes : List (Node × Bool)) (i : Nat) : (spread offset nodes)[i]? =
    nodes[i]?.map fun entry => ⟨entry.1, entry.2, reach offset (nodes.take i)⟩ := by
  induction nodes generalizing offset i with
  | nil => rfl
  | cons first rest ih =>
    cases i with
    | zero => rfl
    | succ i => exact ih _ i

theorem reach_take_succ {nodes : List (Node × Bool)} {i : Nat} {entry : Node × Bool} (offset : Nat)
    (h : nodes[i]? = some entry) : reach offset (nodes.take (i + 1)) = reach offset (nodes.take i) +
      (Placed.mk entry.1 entry.2 (reach offset (nodes.take i))).width := by
  rw [List.take_add_one, h, reach_append]
  rfl

theorem map_node_spread (offset : Nat) (nodes : List (Node × Bool)) :
    (spread offset nodes).map Placed.node = nodes.map Prod.fst := by
  induction nodes generalizing offset with
  | nil => rfl
  | cons first rest ih => simp only [spread, List.map_cons, ih]

theorem le_reach (offset : Nat) (nodes : List (Node × Bool)) : offset ≤ reach offset nodes := by
  induction nodes generalizing offset with
  | nil => exact Nat.le_refl _
  | cons first rest ih => exact Nat.le_trans (Nat.le_add_right _ _) (ih _)

/-- Only labels take no bytes. -/
theorem reach_eq_iff (offset : Nat) (nodes : List (Node × Bool)) :
    reach offset nodes = offset ↔ ∀ entry ∈ nodes, entry.1.isLabel = true := by
  induction nodes generalizing offset with
  | nil => simp [reach]
  | cons first rest ih =>
    obtain ⟨node, wide⟩ := first
    rw [reach, List.forall_mem_cons]
    cases hl : node.isLabel with
    | true =>
      cases node with
      | label l => simp only [Placed.width_label, Nat.add_zero, ih, true_and]
      | insn i => cases hl
      | branch b => cases hl
    | false =>
      have hpos : 0 < (Placed.mk node wide offset).width := Placed.width_pos hl
      have hle := le_reach (offset + (Placed.mk node wide offset).width) rest
      simp only [Bool.false_eq_true, false_and, iff_false]
      omega

/-- The labels of placed nodes, bound in order. -/
def bindAll (labels : LabelTable) : List Placed → LabelTable
  | [] => labels
  | placed :: rest =>
    match placed.node with
    | .label l => bindAll (labels.bind l placed.offset) rest
    | _ => bindAll labels rest

theorem offset?_bindAll_of_notMem {l : Label} (placed : List Placed) (labels : LabelTable)
    (h : .label l ∉ placed.map Placed.node) :
    (bindAll labels placed).offset? l = labels.offset? l := by
  induction placed generalizing labels with
  | nil => rfl
  | cons first rest ih =>
    rw [List.map_cons, List.mem_cons, not_or] at h
    unfold bindAll
    split
    · next m hm =>
      rw [ih _ h.2, LabelTable.offset?_bind, if_neg]
      rintro rfl
      exact h.1 hm.symm
    · exact ih _ h.2

theorem placeOnto_eq (nodes : List (Node × Bool)) (done : List Placed) (labels : LabelTable)
    (offset : Nat) (hnodup : ((nodes.map Prod.fst).filterMap Node.label?).Nodup)
    (hnew : ∀ l, .label l ∈ nodes.map Prod.fst → labels.offset? l = none) :
    placeOnto nodes done labels offset =
      .ok ⟨done.reverse ++ spread offset nodes, bindAll labels (spread offset nodes),
        reach offset nodes⟩ := by
  induction nodes generalizing done labels offset with
  | nil => simp [placeOnto, spread, bindAll, reach]
  | cons first rest ih =>
    obtain ⟨node, wide⟩ := first
    rw [List.map_cons, List.filterMap_cons] at hnodup
    cases node with
    | label l =>
      obtain ⟨hl, hrest⟩ := List.nodup_cons.1 hnodup
      have hbound : labels.isBound l = false := by
        unfold LabelTable.isBound
        rw [hnew l List.mem_cons_self]
        rfl
      unfold placeOnto LabelTable.bindNew
      simp only [hbound, Bool.false_eq_true, if_false]
      rw [ih _ _ _ hrest]
      · simp [spread, bindAll, reach, Placed.width_label]
      · intro m hm
        rw [LabelTable.offset?_bind, if_neg]
        · exact hnew m (List.mem_cons_of_mem _ hm)
        · rintro rfl
          exact hl (List.mem_filterMap.2 ⟨_, hm, rfl⟩)
    | insn i =>
      refine (ih _ _ _ hnodup fun l hl => hnew l (List.mem_cons_of_mem _ hl)).trans ?_
      simp [spread, bindAll, reach]
    | branch b =>
      refine (ih _ _ _ hnodup fun l hl => hnew l (List.mem_cons_of_mem _ hl)).trans ?_
      simp [spread, bindAll, reach]

theorem place_eq (nodes : List (Node × Bool))
    (hnodup : ((nodes.map Prod.fst).filterMap Node.label?).Nodup) :
    place nodes = .ok ⟨spread 0 nodes, bindAll .empty (spread 0 nodes), reach 0 nodes⟩ :=
  placeOnto_eq nodes [] .empty 0 hnodup fun _ _ => rfl

/-- Nodes are placed only if no label is there twice. -/
theorem nodup_of_placeOnto {nodes : List (Node × Bool)} {done : List Placed} {labels : LabelTable}
    {offset : Nat} {layout : Layout} (h : placeOnto nodes done labels offset = .ok layout) :
    ((nodes.map Prod.fst).filterMap Node.label?).Nodup ∧
      ∀ l, .label l ∈ nodes.map Prod.fst → labels.offset? l = none := by
  induction nodes generalizing done labels offset with
  | nil => exact ⟨List.nodup_nil, by simp⟩
  | cons first rest ih =>
    obtain ⟨node, wide⟩ := first
    cases node with
    | label l =>
      unfold placeOnto LabelTable.bindNew at h
      dsimp only at h
      cases hbound : labels.isBound l with
      | true =>
        simp only [hbound, if_true] at h
        cases h
      | false =>
        simp only [hbound, Bool.false_eq_true, if_false] at h
        obtain ⟨hnodup, hnew⟩ := ih h
        have hfresh : ∀ m, .label m ∈ rest.map Prod.fst → m ≠ l ∧ labels.offset? m = none := by
          intro m hm
          have hnone := hnew m hm
          rw [LabelTable.offset?_bind] at hnone
          split at hnone
          · cases hnone
          · next hne => exact ⟨hne, hnone⟩
        refine ⟨List.nodup_cons.2 ⟨fun hm => ?_, hnodup⟩, fun m hm => ?_⟩
        · obtain ⟨node, hnode, hl⟩ := List.mem_filterMap.1 hm
          cases node with
          | label m =>
            cases hl
            exact (hfresh l hnode).1 rfl
          | insn i => cases hl
          | branch b => cases hl
        · rcases List.mem_cons.1 hm with he | hm
          · cases he
            unfold LabelTable.isBound at hbound
            rwa [Option.isSome_eq_false_iff, Option.isNone_iff_eq_none] at hbound
          · exact (hfresh m hm).2
    | insn i =>
      obtain ⟨hnodup, hnew⟩ := ih h
      exact ⟨hnodup, fun l hl => hnew l (List.mem_of_ne_of_mem (by simp) hl)⟩
    | branch b =>
      obtain ⟨hnodup, hnew⟩ := ih h
      exact ⟨hnodup, fun l hl => hnew l (List.mem_of_ne_of_mem (by simp) hl)⟩

/-- The offset of a label is what the nodes in front of it take. -/
theorem offset?_bindAll {l : Label} (before after : List (Node × Bool)) (wide : Bool)
    (labels : LabelTable) (h : .label l ∉ after.map Prod.fst) (offset : Nat) :
    (bindAll labels (spread offset (before ++ (.label l, wide) :: after))).offset? l =
      some (reach offset before) := by
  induction before generalizing labels offset with
  | nil =>
    simp only [List.nil_append, spread, bindAll, reach]
    rw [offset?_bindAll_of_notMem _ _ (by rw [map_node_spread]; exact h), LabelTable.offset?_bind,
      if_pos rfl]
  | cons first rest ih =>
    obtain ⟨node, w⟩ := first
    simp only [List.cons_append, spread, bindAll, reach]
    split
    · exact ih _ _
    · exact ih _ _

theorem mem_spread {offset : Nat} {flagged : List (Node × Bool)} {placed : Placed}
    (h : placed ∈ spread offset flagged) : ∃ front back,
      flagged = front ++ (placed.node, placed.wide) :: back ∧ placed.offset = reach offset front := by
  induction flagged generalizing offset with
  | nil => cases h
  | cons first rest ih =>
    obtain ⟨node, wide⟩ := first
    rcases List.mem_cons.1 h with rfl | h
    · exact ⟨[], rest, rfl, rfl⟩
    · obtain ⟨front, back, rfl, ho⟩ := ih h
      exact ⟨(node, wide) :: front, back, rfl, ho⟩

theorem offset?_of_mem {flagged : List (Node × Bool)} {placed : Placed} {l : Label}
    (hnodup : ((flagged.map Prod.fst).filterMap Node.label?).Nodup)
    (h : placed ∈ spread 0 flagged) (hl : placed.node = .label l) :
    (bindAll .empty (spread 0 flagged)).offset? l = some placed.offset := by
  obtain ⟨front, back, rfl, ho⟩ := mem_spread h
  rw [hl] at hnodup ⊢
  rw [List.map_append, List.map_cons, List.filterMap_append, List.filterMap_cons] at hnodup
  have hnew : .label l ∉ back.map Prod.fst := fun hm =>
    (List.nodup_cons.1 (List.nodup_append.1 hnodup).2.1).1 (List.mem_filterMap.2 ⟨_, hm, rfl⟩)
  rw [ho]
  exact offset?_bindAll front back placed.wide .empty hnew 0

/-- Two positions in the code have the same offset if no instruction lies between them. -/
theorem reach_take_eq_iff (flagged : List (Node × Bool)) (i j : Nat) :
    reach 0 (flagged.take i) = reach 0 (flagged.take j) ↔
      ((flagged.take i).map Prod.fst).countP (!·.isLabel) =
        ((flagged.take j).map Prod.fst).countP (!·.isLabel) := by
  have ordered : ∀ i j, i ≤ j → (reach 0 (flagged.take j) = reach 0 (flagged.take i) ↔
      ((flagged.take j).map Prod.fst).countP (!·.isLabel) =
        ((flagged.take i).map Prod.fst).countP (!·.isLabel)) := by
    intro i j hij
    obtain ⟨k, rfl⟩ := Nat.exists_eq_add_of_le hij
    rw [List.take_add, reach_append, reach_eq_iff, List.map_append, List.countP_append,
      Nat.add_eq_left, List.countP_eq_zero, List.forall_mem_map]
    simp only [Bool.not_eq_true', Bool.not_eq_false]
  rcases Nat.le_total i j with h | h
  · rw [eq_comm, ordered i j h, eq_comm]
  · exact ordered j i h

/-- The nodes in front of a label that is placed once. -/
theorem offset?_eq_take {flagged : List (Node × Bool)} {l : Label}
    (hnodup : ((flagged.map Prod.fst).filterMap Node.label?).Nodup)
    (hl : .label l ∈ flagged.map Prod.fst) :
    (bindAll .empty (spread 0 flagged)).offset? l =
      some (reach 0 (flagged.take ((flagged.map Prod.fst).takeWhile (· ≠ .label l)).length)) := by
  obtain ⟨before, after, hsplit⟩ := List.append_of_mem hl
  obtain ⟨front, rest, rfl, rfl, hrest⟩ := List.map_eq_append_iff.1 hsplit
  obtain ⟨⟨node, wide⟩, back, rfl, hnode, rfl⟩ := List.map_eq_cons_iff.1 hrest
  cases hnode
  rw [hsplit, List.filterMap_append, List.filterMap_cons] at hnodup
  obtain ⟨-, hback, hapart⟩ := List.nodup_append.1 hnodup
  have hfront : ∀ node ∈ front.map Prod.fst, decide (node ≠ .label l) = true := by
    intro node hm
    rw [decide_eq_true_eq]
    rintro rfl
    exact hapart l (List.mem_filterMap.2 ⟨_, hm, rfl⟩) l List.mem_cons_self rfl
  have hnew : .label l ∉ back.map Prod.fst := fun hm =>
    (List.nodup_cons.1 hback).1 (List.mem_filterMap.2 ⟨_, hm, rfl⟩)
  rw [hsplit, List.takeWhile_append_of_pos hfront, List.takeWhile_cons_of_neg (by simp),
    List.append_nil, List.length_map, List.take_left]
  exact offset?_bindAll front back wide .empty hnew 0

/-- A layout of the nodes, whatever gotos are wide in it. -/
def IsOf (layout : Layout) (nodes : List Node) : Prop :=
  ∃ flagged : List (Node × Bool), flagged.map Prod.fst = nodes ∧
    layout = ⟨spread 0 flagged, bindAll .empty (spread 0 flagged), reach 0 flagged⟩

section IsOf

variable {layout : Layout} {nodes : List Node} {l : Label}

theorem IsOf.map_node (h : layout.IsOf nodes) : layout.nodes.map Placed.node = nodes := by
  obtain ⟨flagged, rfl, rfl⟩ := h
  exact map_node_spread 0 flagged

/-- Around a label that is placed once, the nodes in front of it tell its offset. -/
theorem IsOf.offset? (h : layout.IsOf nodes) (hnodup : (nodes.filterMap Node.label?).Nodup)
    {before after : List Node} (hsplit : nodes = before ++ .label l :: after) :
    ∃ front back : List (Node × Bool), ∃ wide, front.map Prod.fst = before ∧
      back.map Prod.fst = after ∧ layout.nodes = spread 0 (front ++ (.label l, wide) :: back) ∧
      layout.length = reach 0 (front ++ (.label l, wide) :: back) ∧
      layout.labels.offset? l = some (reach 0 front) := by
  obtain ⟨flagged, rfl, rfl⟩ := h
  obtain ⟨front, rest, rfl, rfl, hrest⟩ := List.map_eq_append_iff.1 hsplit
  obtain ⟨⟨node, wide⟩, back, rfl, hnode, rfl⟩ := List.map_eq_cons_iff.1 hrest
  cases hnode
  have hnew : .label l ∉ back.map Prod.fst := by
    rw [List.map_append, List.map_cons, List.filterMap_append, List.filterMap_cons] at hnodup
    have hl := (List.nodup_cons.1 (List.nodup_append.1 hnodup).2.1).1
    exact fun hm => hl (List.mem_filterMap.2 ⟨_, hm, rfl⟩)
  exact ⟨front, back, wide, rfl, rfl, rfl, rfl, offset?_bindAll front back wide .empty hnew 0⟩

theorem IsOf.isBound (h : layout.IsOf nodes) (hnodup : (nodes.filterMap Node.label?).Nodup)
    (hl : .label l ∈ nodes) : ∃ offset, layout.labels.offset? l = some offset := by
  obtain ⟨before, after, hsplit⟩ := List.append_of_mem hl
  obtain ⟨front, -, -, -, -, -, -, ho⟩ := h.offset? hnodup hsplit
  exact ⟨_, ho⟩

theorem IsOf.offset?_eq_none (h : layout.IsOf nodes) (hl : .label l ∉ nodes) :
    layout.labels.offset? l = none := by
  obtain ⟨flagged, rfl, rfl⟩ := h
  exact offset?_bindAll_of_notMem _ _ (by rw [map_node_spread]; exact hl)

end IsOf

theorem mapM_ok {α β ε : Type} {f : α → Except ε β} {items : List α}
    (h : ∀ item ∈ items, ∃ b, f item = .ok b) : ∃ out, items.mapM f = .ok out := by
  induction items with
  | nil => exact ⟨[], rfl⟩
  | cons item rest ih =>
    obtain ⟨b, hb⟩ := h item List.mem_cons_self
    obtain ⟨out, hout⟩ := ih fun x hx => h x (List.mem_cons_of_mem _ hx)
    refine ⟨b :: out, ?_⟩
    rw [List.mapM_cons, hb]
    change (do let bs ← rest.mapM f; pure (b :: bs)) = _
    rw [hout]
    rfl

theorem map_fst_of_mapM {labels : LabelTable} {placed : List Placed} {out : List (Node × Bool)}
    (h : (placed.mapM fun p => do return (p.node, ← needsWide labels p)) = .ok out) :
    out.map Prod.fst = placed.map Placed.node := by
  induction placed generalizing out with
  | nil => cases h; rfl
  | cons first rest ih =>
    rw [List.mapM_cons] at h
    obtain ⟨pair, hpair, h⟩ := except_bind_eq_ok.1 h
    obtain ⟨more, hmore, h⟩ := except_bind_eq_ok.1 h
    obtain ⟨wide, -, hpair⟩ := except_bind_eq_ok.1 hpair
    cases h
    cases hpair
    rw [List.map_cons, List.map_cons, ih hmore]

/-- Nodes that are placed can be looked through for gotos that have to be wide. -/
theorem widen_ok {nodes : List (Node × Bool)}
    (hnodup : ((nodes.map Prod.fst).filterMap Node.label?).Nodup)
    (hgotos : ∀ target, .branch (.goto target) ∈ nodes.map Prod.fst →
      .label target ∈ nodes.map Prod.fst) :
    ∃ out, widen ⟨spread 0 nodes, bindAll .empty (spread 0 nodes), reach 0 nodes⟩ = .ok out := by
  have hof : IsOf ⟨spread 0 nodes, bindAll .empty (spread 0 nodes), reach 0 nodes⟩
      (nodes.map Prod.fst) := ⟨nodes, rfl, rfl⟩
  refine mapM_ok fun placed hp => ?_
  have hmem : placed.node ∈ nodes.map Prod.fst := by
    rw [← map_node_spread 0 nodes]
    exact List.mem_map_of_mem hp
  obtain ⟨node, wide, offset⟩ := placed
  unfold needsWide
  split
  · next target hnode =>
    obtain ⟨found, hfound⟩ := hof.isBound hnodup (hgotos target (hnode ▸ hmem))
    unfold LabelTable.offset
    simp only [hfound]
    exact ⟨_, rfl⟩
  · exact ⟨_, rfl⟩

theorem settle_ok (rounds : Nat) {nodes : List (Node × Bool)}
    (hnodup : ((nodes.map Prod.fst).filterMap Node.label?).Nodup)
    (hgotos : ∀ target, .branch (.goto target) ∈ nodes.map Prod.fst →
      .label target ∈ nodes.map Prod.fst) :
    ∃ layout, settle rounds nodes = .ok layout ∧ layout.IsOf (nodes.map Prod.fst) := by
  induction rounds generalizing nodes with
  | zero => exact ⟨_, place_eq nodes hnodup, nodes, rfl, rfl⟩
  | succ rounds ih =>
    have hplace := place_eq nodes hnodup
    obtain ⟨out, hout⟩ := widen_ok hnodup hgotos
    have hfst : out.map Prod.fst = nodes.map Prod.fst :=
      (map_fst_of_mapM hout).trans (map_node_spread 0 nodes)
    unfold settle
    rw [hplace]
    simp only [bind, Except.bind, hout]
    split
    · exact ⟨_, rfl, nodes, rfl, rfl⟩
    · rw [← hfst] at hnodup hgotos ⊢
      exact ih hnodup hgotos

theorem isOf_of_place {nodes : List (Node × Bool)} {layout : Layout}
    (h : place nodes = .ok layout) :
    layout.IsOf (nodes.map Prod.fst) ∧ ((nodes.map Prod.fst).filterMap Node.label?).Nodup := by
  have hnodup := (nodup_of_placeOnto h).1
  rw [place_eq nodes hnodup] at h
  cases h
  exact ⟨⟨nodes, rfl, rfl⟩, hnodup⟩

theorem isOf_of_settle (rounds : Nat) {nodes : List (Node × Bool)} {layout : Layout}
    (h : settle rounds nodes = .ok layout) :
    layout.IsOf (nodes.map Prod.fst) ∧ ((nodes.map Prod.fst).filterMap Node.label?).Nodup := by
  induction rounds generalizing nodes with
  | zero => exact isOf_of_place h
  | succ rounds ih =>
    obtain ⟨found, hfound, h⟩ := except_bind_eq_ok.1 h
    obtain ⟨widened, hwidened, h⟩ := except_bind_eq_ok.1 h
    have hplaced := isOf_of_place hfound
    split at h
    · cases h
      exact hplaced
    · have hsame := (map_fst_of_mapM hwidened).trans hplaced.1.map_node
      rw [← hsame]
      exact ih h

theorem map_fst_short (nodes : List Node) : (nodes.map fun node => (node, false)).map Prod.fst = nodes := by
  rw [List.map_map]
  exact List.map_id nodes

/-- A layout that was computed is one of the nodes, and no label is there twice. -/
theorem isOf_of_compute {nodes : List Node} {layout : Layout} (h : compute nodes = .ok layout) :
    layout.IsOf nodes ∧ (nodes.filterMap Node.label?).Nodup := by
  have hsettled := isOf_of_settle _ h
  rwa [map_fst_short] at hsettled

/-- Nodes with each label placed once and the targets of the gotos placed have a layout. -/
theorem compute_ok {nodes : List Node} (hnodup : (nodes.filterMap Node.label?).Nodup)
    (hgotos : ∀ target, .branch (.goto target) ∈ nodes → .label target ∈ nodes) :
    ∃ layout, compute nodes = .ok layout ∧ layout.IsOf nodes := by
  unfold compute
  rw [← map_fst_short nodes] at hnodup hgotos
  refine (settle_ok _ hnodup hgotos).imp fun layout h => ⟨h.1, ?_⟩
  rw [← map_fst_short nodes]
  exact h.2

end Layout

end ClassWeave
