import ClassWeave.Proofs.Code.Building

/-!
What the operations of a builder do, in terms of its steps, and which labels they leave open: framed
by a jump, but not placed yet.
-/

namespace ClassWeave.Builder

variable {B C D : Builder} {label target : Label} {frame : EditFrame}

theorem fresh_eq_ok :
    fresh B = .ok label C ↔ label = B.labels.fresh.1 ∧ C = { B with labels := B.labels.fresh.2 } := by
  change EStateM.Result.ok B.labels.fresh.1 { B with labels := B.labels.fresh.2 } = _ ↔ _
  simp only [EStateM.Result.ok.injEq, eq_comm]

theorem interning_eq_ok {α : Type} {step : Interning α} {value : α} :
    interning step B = .ok value C ↔ ∃ pool, step B.pool = .ok value pool ∧ C = { B with pool := pool } := by
  unfold interning
  cases step B.pool with
  | ok a pool => simp; grind
  | error problem pool => simp

theorem jump_of_jumpTo {u : Unit} (h : jumpTo target frame B = .ok u C) : Jump B frame target C := by
  unfold jumpTo at h
  rw [modify_bind_eq_ok, get_bind_eq_ok] at h
  have hplaced : (B.require target).isPlaced target = B.isPlaced target := by
    unfold isPlaced; rw [require_nodes]
  rw [require_labelFrames, hplaced] at h
  cases hf : B.labelFrames.find? target with
  | none =>
    rw [hf] at h
    cases hp : B.isPlaced target with
    | true =>
      rw [hp] at h
      exact (throw_bind_ne_ok.1 h).elim
    | false =>
      rw [hp] at h
      rw [set_eq_ok.1 h]
      exact .first hf hp
  | some expected =>
    rw [hf] at h
    cases hp : B.isPlaced target with
    | true =>
      rw [hp] at h
      cases hflows : frame.isAssignableTo expected with
      | true =>
        simp only [hflows, if_true] at h
        obtain ⟨-, rfl⟩ := pure_eq_ok.1 h
        exact .back hf hp hflows
      | false =>
        simp only [hflows, if_true, Bool.false_eq_true, if_false] at h
        exact (throw_ne_ok.1 h).elim
    | false =>
      rw [hp] at h
      cases hm : expected.merge frame with
      | none =>
        simp only [hm, Bool.false_eq_true, if_false] at h
        exact (throw_ne_ok.1 h).elim
      | some merged =>
        simp only [hm, Bool.false_eq_true, if_false] at h
        rw [set_eq_ok.1 h]
        exact .again hf hp hm

theorem jumps_of_forM {targets : List Label} {u : Unit}
    (h : targets.forM (jumpTo · frame) B = .ok u C) : Jumps frame targets B C := by
  induction targets generalizing B with
  | nil =>
    obtain ⟨-, rfl⟩ := pure_eq_ok.1 h
    exact .nil _
  | cons target rest ih =>
    obtain ⟨_, B₁, hj, h⟩ := bind_eq_ok.1 h
    exact .cons (jump_of_jumpTo hj) (ih h)

theorem place_eq_ok {u : Unit} (h : place label B = .ok u C) :
    B.isPlaced label = false ∧ ∃ frame, B.arrival? label = some frame ∧ C = B.placed label frame := by
  unfold place at h
  rw [get_bind_eq_ok] at h
  cases hp : B.isPlaced label with
  | true =>
    rw [hp] at h
    exact (throw_bind_ne_ok.1 h).elim
  | false =>
    rw [hp] at h
    refine ⟨rfl, ?_⟩
    unfold arrival?
    cases hf : B.frame with
    | none =>
      cases hj : B.labelFrames.find? label with
      | none =>
        simp only [hf, hj] at h
        exact (throw_bind_ne_ok.1 h).elim
      | some jumped =>
        simp only [hf, hj] at h
        exact ⟨_, rfl, set_eq_ok.1 (pure_bind_eq_ok.1 h)⟩
    | some current =>
      cases hj : B.labelFrames.find? label with
      | none =>
        simp only [hf, hj] at h
        exact ⟨_, rfl, set_eq_ok.1 (pure_bind_eq_ok.1 h)⟩
      | some jumped =>
        cases hm : jumped.merge current with
        | none =>
          simp only [hf, hj, hm] at h
          exact (throw_bind_ne_ok.1 h).elim
        | some merged =>
          simp only [hf, hj, hm] at h
          exact ⟨_, hm, set_eq_ok.1 (pure_bind_eq_ok.1 h)⟩

theorem placeKnown_eq_ok {u : Unit} (h : placeKnown label B = .ok u C) :
    B.isPlaced label = false ∧ C = B.append (.label label) (some label) := by
  unfold placeKnown at h
  rw [get_bind_eq_ok] at h
  cases hp : B.isPlaced label with
  | true =>
    rw [hp] at h
    exact (throw_bind_ne_ok.1 h).elim
  | false =>
    rw [hp] at h
    exact ⟨rfl, set_eq_ok.1 h⟩

theorem placeWith_eq_ok {u : Unit} (h : placeWith label frame B = .ok u C) :
    B.isPlaced label = false ∧
      (∀ arriving ∈ B.frame.toList ++ (B.labelFrames.find? label).toList,
        arriving.isAssignableTo frame = true) ∧
      C = { (B.require label).setFrame label frame with frame := some frame }.append (.label label)
        (some label) := by
  unfold placeWith at h
  rw [get_bind_eq_ok] at h
  obtain ⟨_, B₁, hloop, h⟩ := bind_eq_ok.1 h
  have hflows : B₁ = B ∧ ∀ arriving ∈ B.frame.toList ++ (B.labelFrames.find? label).toList,
      arriving.isAssignableTo frame = true := by
    generalize B.frame.toList ++ (B.labelFrames.find? label).toList = arriving at hloop
    clear h
    induction arriving with
    | nil => exact ⟨(pure_eq_ok.1 hloop).2, List.forall_mem_nil _⟩
    | cons first rest ih =>
      rw [List.forIn_cons] at hloop
      cases hflows : first.isAssignableTo frame with
      | true =>
        simp only [hflows, if_true] at hloop
        obtain ⟨hsame, hrest⟩ := ih hloop
        exact ⟨hsame, List.forall_mem_cons.2 ⟨hflows, hrest⟩⟩
      | false =>
        simp only [hflows, Bool.false_eq_true, if_false] at hloop
        exact (throw_bind_ne_ok.1 hloop).elim
  obtain ⟨rfl, hflows⟩ := hflows
  rw [set_bind_eq_ok] at h
  obtain ⟨hp, rfl⟩ := placeKnown_eq_ok h
  refine ⟨?_, hflows, rfl⟩
  unfold isPlaced at hp ⊢
  rw [← require_nodes B₁ label]
  exact hp

/-- Where control arrives only by jumps, asking for the frame of the jumps changes nothing. -/
theorem place_of_placeWith {u : Unit} (hf : B.frame = none)
    (h : placeWith label frame B = .ok u C) :
    B.isPlaced label = false ∧ C = B.placed label frame := by
  obtain ⟨hp, -, rfl⟩ := placeWith_eq_ok h
  have hr : B.isReachable = false := by unfold isReachable; rw [hf]; rfl
  refine ⟨hp, ?_⟩
  unfold placed
  rw [hr]
  rfl

theorem push_eq_ok {insn : Insn} {u : Unit} (hnew : ∀ index, insn ≠ .new index)
    (h : push insn B = .ok u C) :
    ∃ before after, B.frame = some before ∧
      insn.verify B.pool B.shape.thisClass B.pending before = .ok ((), after) ∧
      C = ({ B with frame := some after }.append (.insn insn) none) := by
  unfold push at h
  obtain ⟨allocation, D, h₁, h⟩ := bind_eq_ok.1 h
  have hkept : allocation = B.pending ∧ D = B := by
    unfold Builder.allocation at h₁
    rw [get_bind_eq_ok] at h₁
    cases insn with
    | new index => exact absurd rfl (hnew index)
    | _ => exact pure_eq_ok.1 h₁
  rw [hkept.1, hkept.2, get_bind_eq_ok] at h
  cases hf : B.frame with
  | none =>
    rw [hf] at h
    exact (throw_ne_ok.1 h).elim
  | some before =>
    rw [hf] at h
    simp only at h
    cases hv : insn.verify B.pool B.shape.thisClass B.pending before with
    | error cause =>
      rw [hv] at h
      exact (throw_ne_ok.1 h).elim
    | ok result =>
      obtain ⟨⟨⟩, after⟩ := result
      rw [hv] at h
      exact ⟨before, after, rfl, hv, set_eq_ok.1 h⟩

theorem pushBranch_eq_ok {branch : Branch Label} {u : Unit} (h : pushBranch branch B = .ok u C) :
    ∃ before after D, B.frame = some before ∧
      branch.verify B.shape.returnType before = .ok ((), after) ∧
      Jumps after branch.jumpTargets { B with frame := none } D ∧
      C = ({ D with frame := if branch.fallsThrough then some after else none }.append
        (.branch branch) none) := by
  unfold pushBranch at h
  rw [get_bind_eq_ok] at h
  cases hf : B.frame with
  | none =>
    simp only [hf] at h
    exact (throw_ne_ok.1 h).elim
  | some before =>
    simp only [hf] at h
    rw [set_bind_eq_ok] at h
    cases hv : branch.verify B.shape.returnType before with
    | error cause =>
      simp only [hv] at h
      exact (throw_ne_ok.1 h).elim
    | ok result =>
      obtain ⟨⟨⟩, after⟩ := result
      simp only [hv] at h
      obtain ⟨_, D, hj, h⟩ := bind_eq_ok.1 h
      exact ⟨before, after, D, rfl, hv, jumps_of_forM hj, modify_eq_ok.1 h⟩

/-- The label has a frame, but no place yet. -/
def Open (B : Builder) (label : Label) : Prop :=
  (B.labelFrames.find? label).isSome ∧ B.isPlaced label = false

namespace Jump

variable (h : Jump B frame target C)
include h

theorem nodes_eq : C.nodes = B.nodes := by
  cases h <;> simp [setFrame]

theorem labels_eq : C.labels = B.labels := by
  cases h <;> simp [setFrame]

theorem shape_eq : C.shape = B.shape := by
  cases h <;> simp [setFrame]

theorem pool_eq : C.pool = B.pool := by
  cases h <;> simp [setFrame]

theorem handlers_eq : C.handlers = B.handlers := by
  cases h <;> simp [setFrame]

theorem regions_eq : C.regions = B.regions := by
  cases h <;> simp [setFrame]

theorem find?_of_ne {l : Label} (hl : l ≠ target) :
    C.labelFrames.find? l = B.labelFrames.find? l := by
  cases h <;> simp [hl]

end Jump

namespace Jumps

variable {targets : List Label} (h : Jumps frame targets B C)
include h

theorem nodes_eq : C.nodes = B.nodes := by
  induction h with
  | nil => rfl
  | cons first _ ih => rw [ih, first.nodes_eq]

theorem labels_eq : C.labels = B.labels := by
  induction h with
  | nil => rfl
  | cons first _ ih => rw [ih, first.labels_eq]

theorem shape_eq : C.shape = B.shape := by
  induction h with
  | nil => rfl
  | cons first _ ih => rw [ih, first.shape_eq]

theorem pool_eq : C.pool = B.pool := by
  induction h with
  | nil => rfl
  | cons first _ ih => rw [ih, first.pool_eq]

theorem handlers_eq : C.handlers = B.handlers := by
  induction h with
  | nil => rfl
  | cons first _ ih => rw [ih, first.handlers_eq]

theorem regions_eq : C.regions = B.regions := by
  induction h with
  | nil => rfl
  | cons first _ ih => rw [ih, first.regions_eq]

theorem find?_of_notMem {l : Label} (hl : l ∉ targets) :
    C.labelFrames.find? l = B.labelFrames.find? l := by
  induction h with
  | nil => rfl
  | cons first _ ih =>
    rw [List.mem_cons, not_or] at hl
    rw [ih hl.2, first.find?_of_ne hl.1]

end Jumps

section Placed

variable (B : Builder) (label : Label) (frame : EditFrame)

@[simp] theorem placed_frame : (B.placed label frame).frame = some frame := by
  unfold placed; simp

@[simp] theorem placed_nodes : (B.placed label frame).nodes = .label label :: B.nodes := by
  unfold placed; split <;> simp [setFrame]

@[simp] theorem placed_labels : (B.placed label frame).labels = B.labels := by
  unfold placed; split <;> simp [setFrame]

@[simp] theorem placed_shape : (B.placed label frame).shape = B.shape := by
  unfold placed; split <;> simp [setFrame]

@[simp] theorem placed_pool : (B.placed label frame).pool = B.pool := by
  unfold placed; split <;> simp [setFrame]

@[simp] theorem placed_handlers : (B.placed label frame).handlers = B.handlers := by
  unfold placed; split <;> simp [setFrame]

@[simp] theorem placed_pending : (B.placed label frame).pending = some label := by
  unfold placed; simp

@[simp] theorem find?_placed (l : Label) : (B.placed label frame).labelFrames.find? l =
    if l = label then some frame else B.labelFrames.find? l := by
  unfold placed
  rw [append_labelFrames, find?_setFrame]
  split
  · rfl
  · split <;> simp

theorem mem_placed {l : Label} : l ∈ (B.placed label frame).needsFrame ↔
    l ∈ B.needsFrame ∨ (l = label ∧ B.frame = none) := by
  unfold placed isReachable
  cases hf : B.frame with
  | none => simp [setFrame, or_comm]
  | some current => simp [setFrame]

end Placed

section Regions

variable (B : Builder) (start stop : Label) (catchType : Option String) (known : List EditType)
  (outer : List (List EditType))

@[simp] theorem opened_nodes : (B.opened known).nodes = B.nodes := rfl

@[simp] theorem opened_labels : (B.opened known).labels = B.labels := rfl

@[simp] theorem opened_frame : (B.opened known).frame = B.frame := rfl

@[simp] theorem opened_handlers : (B.opened known).handlers = B.handlers := rfl

@[simp] theorem opened_regions : (B.opened known).regions = known :: B.regions := rfl

@[simp] theorem opened_shape : (B.opened known).shape = B.shape := rfl

@[simp] theorem left_frame : (B.left start stop catchType known outer).frame = B.frame := by
  simp [left, setFrame]

@[simp] theorem left_nodes : (B.left start stop catchType known outer).nodes = B.nodes := by
  simp [left, setFrame]

@[simp] theorem left_labels :
    (B.left start stop catchType known outer).labels = B.labels.fresh.2 := by
  simp [left, setFrame]

@[simp] theorem left_shape : (B.left start stop catchType known outer).shape = B.shape := by
  simp [left, setFrame]

@[simp] theorem left_pool : (B.left start stop catchType known outer).pool = B.pool := by
  simp [left, setFrame]

@[simp] theorem left_pending : (B.left start stop catchType known outer).pending = B.pending := by
  simp [left, setFrame]

@[simp] theorem left_regions : (B.left start stop catchType known outer).regions = outer := by
  simp [left, setFrame]

@[simp] theorem left_handlers : (B.left start stop catchType known outer).handlers =
    ⟨start, stop, B.labels.fresh.1, catchType⟩ :: B.handlers := rfl

@[simp] theorem find?_left (l : Label) :
    (B.left start stop catchType known outer).labelFrames.find? l =
      if l = B.labels.fresh.1 then some ⟨known, [caughtType catchType]⟩
      else B.labelFrames.find? l := by
  simp [left]

@[simp] theorem mem_left {l : Label} : l ∈ (B.left start stop catchType known outer).needsFrame ↔
    l = B.labels.fresh.1 ∨ l ∈ B.needsFrame := by
  simp [left, setFrame]

end Regions

namespace Step

variable (h : Step B C)
include h

theorem allocated_le : B.labels.allocated ≤ C.labels.allocated := by
  cases h with
  | fresh => exact Nat.le_succ _
  | stop => rw [append_labels]; exact Nat.le_succ _
  | leave => rw [left_labels]; exact Nat.le_succ _
  | enter => rw [opened_labels, placed_labels]; exact Nat.le_succ _
  | branch _ _ _ jumps => exact Nat.le_of_eq (by rw [append_labels, jumps.labels_eq])
  | place => exact Nat.le_of_eq (by rw [placed_labels])
  | insn => exact Nat.le_of_eq (by rw [append_labels])
  | _ => exact Nat.le_refl _

theorem shape_eq : C.shape = B.shape := by
  cases h with
  | branch _ _ _ jumps => rw [append_shape, jumps.shape_eq]
  | leave => rw [left_shape]
  | enter => rw [opened_shape, placed_shape]
  | place => rw [placed_shape]
  | stop => rw [append_shape]
  | insn => rw [append_shape]
  | _ => rfl

theorem pool_le : B.pool ≤ C.pool := by
  cases h with
  | intern grows => exact grows
  | fresh => exact ConstantPool.le_refl _
  | insn => rw [append_pool]; exact ConstantPool.le_refl _
  | branch _ _ _ jumps => rw [append_pool]; exact jumps.pool_eq ▸ ConstantPool.le_refl _
  | place => rw [placed_pool]; exact ConstantPool.le_refl _
  | stop => rw [append_pool]; exact ConstantPool.le_refl _
  | @enter current frame =>
    change B.pool ≤ ({ B with labels := B.labels.fresh.2 }.placed B.labels.fresh.1 frame).pool
    rw [placed_pool]
    exact ConstantPool.le_refl _
  | leave => rw [left_pool]; exact ConstantPool.le_refl _

/-- Nodes are only added. -/
theorem nodes_suffix : B.nodes <:+ C.nodes := by
  cases h with
  | insn => rw [append_nodes]; exact List.suffix_cons _ _
  | branch _ _ _ jumps => rw [append_nodes, jumps.nodes_eq]; exact List.suffix_cons _ _
  | place => rw [placed_nodes]; exact List.suffix_cons _ _
  | stop => rw [append_nodes]; exact List.suffix_cons _ _
  | leave => exact left_nodes .. ▸ List.suffix_refl _
  | enter => rw [opened_nodes, placed_nodes]; exact List.suffix_cons _ _
  | _ => exact List.suffix_refl _

end Step

namespace Run

variable (h : Run B C)
include h

theorem allocated_le : B.labels.allocated ≤ C.labels.allocated := by
  induction h with
  | refl => exact Nat.le_refl _
  | tail _ step ih => exact Nat.le_trans ih step.allocated_le

theorem shape_eq : C.shape = B.shape := by
  induction h with
  | refl => rfl
  | tail _ step ih => rw [step.shape_eq, ih]

theorem pool_le : B.pool ≤ C.pool := by
  induction h with
  | refl => exact ConstantPool.le_refl _
  | tail _ step ih => exact ConstantPool.le_trans ih step.pool_le

theorem nodes_suffix : B.nodes <:+ C.nodes := by
  induction h with
  | refl => exact List.suffix_refl _
  | tail _ step ih => exact ih.trans step.nodes_suffix

theorem isPlaced (hp : B.isPlaced label = true) : C.isPlaced label = true :=
  (isPlaced_iff _ _).2 (h.nodes_suffix.subset ((isPlaced_iff _ _).1 hp))

end Run

theorem isPlaced_congr (h : C.nodes = B.nodes) : C.isPlaced label = B.isPlaced label := by
  unfold isPlaced; rw [h]

theorem open_congr (hn : C.nodes = B.nodes) (hf : C.labelFrames = B.labelFrames) :
    Open C label ↔ Open B label := by
  unfold Open; rw [hf, isPlaced_congr hn]

theorem isPlaced_cons {node : Node} (h : C.nodes = node :: B.nodes) :
    C.isPlaced label = false ↔ node ≠ .label label ∧ B.isPlaced label = false := by
  have hb : ∀ D : Builder, D.isPlaced label = false ↔ .label label ∉ D.nodes := fun D => by
    rw [← isPlaced_iff, Bool.not_eq_true]
  rw [hb, hb, h, List.mem_cons, not_or, ne_comm]

/-- The second builder comes from the first by steps that leave no label open but those that were
open and some targets. -/
structure Extends (targets : List Label) (B C : Builder) : Prop where
  run : Run B C
  opens : ∀ label, Open C label → Open B label ∨ label ∈ targets

namespace Extends

variable {targets others : List Label}

theorem refl (targets : List Label) (B : Builder) : Extends targets B B :=
  ⟨.refl B, fun _ h => .inl h⟩

theorem trans (h : Extends targets B C) (h' : Extends targets C D) : Extends targets B D :=
  ⟨h.run.trans h'.run, fun label hl => (h'.opens label hl).elim (h.opens label) .inr⟩

theorem mono (hsub : targets ⊆ others) (h : Extends targets B C) : Extends others B C :=
  ⟨h.run, fun label hl => (h.opens label hl).imp id (hsub ·)⟩

/-- Steps that do not touch what is placed and framed leave nothing open. -/
theorem of_step (h : Step B C) (hn : C.nodes = B.nodes) (hf : C.labelFrames = B.labelFrames) :
    Extends targets B C :=
  ⟨.step h, fun _ hl => .inl ((open_congr hn hf).1 hl)⟩

theorem allocated_lt (h : Extends targets B C) {l : Label} (hl : l.number < B.labels.allocated) :
    l.number < C.labels.allocated := Nat.lt_of_lt_of_le hl h.run.allocated_le

end Extends

theorem extends_fresh (targets : List Label) (B : Builder) :
    Extends targets B { B with labels := B.labels.fresh.2 } := .of_step .fresh rfl rfl

theorem extends_interning {α : Type} {step : Interning α} {value : α} {targets : List Label}
    (hs : Settled step) (h : interning step B = .ok value C) : Extends targets B C := by
  obtain ⟨pool, hp, rfl⟩ := interning_eq_ok.1 h
  exact .of_step (.intern (hs _ _ _ hp).1) rfl rfl

theorem extends_push {insn : Insn} {u : Unit} {targets : List Label}
    (hnew : ∀ index, insn ≠ .new index) (h : push insn B = .ok u C) : Extends targets B C := by
  obtain ⟨before, after, hf, hv, rfl⟩ := push_eq_ok hnew h
  refine ⟨.step (.insn hf hv), fun label hl => .inl ⟨by simpa using hl.1, ?_⟩⟩
  exact ((isPlaced_cons (append_nodes _ _ _)).1 hl.2).2

theorem extends_pushBranch {branch : Branch Label} {u : Unit}
    (known : ∀ target ∈ branch.jumpTargets, target.number < B.labels.allocated)
    (plain : branch.isTable = false)
    (h : pushBranch branch B = .ok u C) : Extends branch.jumpTargets B C := by
  obtain ⟨before, after, D, hf, hv, hj, rfl⟩ := pushBranch_eq_ok h
  refine ⟨.step (.branch hf hv known hj plain), fun label hl => ?_⟩
  by_cases ht : label ∈ branch.jumpTargets
  · exact .inr ht
  · refine .inl ⟨?_, ?_⟩
    · have hframed := hl.1
      rw [append_labelFrames] at hframed
      rwa [hj.find?_of_notMem ht] at hframed
    · have hplaced := ((isPlaced_cons (append_nodes _ _ _)).1 hl.2).2
      exact (isPlaced_congr hj.nodes_eq).symm.trans hplaced

/-- Steps after which a label is not open, and no other label that was not open before. -/
structure Closes (label : Label) (B C : Builder) : Prop where
  run : Run B C
  opens : ∀ l, Open C l → Open B l ∧ l ≠ label

theorem Extends.close {targets : List Label} (h : Extends (label :: targets) B C)
    (hc : Closes label C D) : Extends targets B D where
  run := h.run.trans hc.run
  opens l hl := by
    obtain ⟨ho, hne⟩ := hc.opens l hl
    refine (h.opens l ho).imp id fun hm => ?_
    exact (List.mem_cons.1 hm).resolve_left hne

theorem Closes.allocated_lt (h : Closes label B C) {l : Label}
    (hl : l.number < B.labels.allocated) : l.number < C.labels.allocated :=
  Nat.lt_of_lt_of_le hl h.run.allocated_le

theorem Closes.extends (h : Closes label B C) (targets : List Label) : Extends targets B C :=
  ⟨h.run, fun l hl => .inl (h.opens l hl).1⟩

theorem closes_of_isPlaced (h : B.isPlaced label = true) : Closes label B B :=
  ⟨.refl B, fun l hl => ⟨hl, fun e => by rw [← e, hl.2] at h; cases h⟩⟩

theorem closes_placed (known : label.number < B.labels.allocated)
    (ahead : B.isPlaced label = false) (arrives : B.arrival? label = some frame) :
    Closes label B (B.placed label frame) := by
  refine ⟨.step (.place known ahead arrives), fun l hl => ?_⟩
  obtain ⟨hne, hplaced⟩ := (isPlaced_cons (placed_nodes B label frame)).1 hl.2
  have hl' : l ≠ label := fun e => hne (e ▸ rfl)
  have hframed := hl.1
  rw [find?_placed, if_neg hl'] at hframed
  exact ⟨⟨hframed, hplaced⟩, hl'⟩

theorem closes_place {u : Unit} (known : label.number < B.labels.allocated)
    (h : place label B = .ok u C) : Closes label B C := by
  obtain ⟨ahead, frame, arrives, rfl⟩ := place_eq_ok h
  exact closes_placed known ahead arrives

theorem closes_placeWith {u : Unit} (known : label.number < B.labels.allocated)
    (hf : B.frame = none) (hj : B.labelFrames.find? label = some frame)
    (h : placeWith label frame B = .ok u C) : Closes label B C := by
  obtain ⟨ahead, rfl⟩ := place_of_placeWith hf h
  refine closes_placed known ahead ?_
  unfold arrival?
  rw [hf, hj]

/-- What opens a region puts a fresh label in front of it. -/
theorem beginTry_eq_ok (h : beginTry B = .ok label C) : label = B.labels.fresh.1 ∧
    ∃ current frame, B.frame = some current ∧ B.isPlaced label = false ∧
      B.arrival? label = some frame ∧
      C = ({ B with labels := B.labels.fresh.2 }.placed label frame).opened current.locals := by
  unfold beginTry at h
  rw [get_bind_eq_ok] at h
  obtain ⟨current, hf⟩ : ∃ current, B.frame = some current := by
    cases hf : B.frame with
    | none =>
      simp only [hf] at h
      exact (throw_ne_ok.1 h).elim
    | some current => exact ⟨current, rfl⟩
  simp only [hf] at h
  obtain ⟨start, B₁, h₁, h⟩ := bind_eq_ok.1 h
  obtain ⟨_, B₂, h₂, h⟩ := bind_eq_ok.1 h
  rw [modify_bind_eq_ok] at h
  obtain ⟨rfl, rfl⟩ := pure_eq_ok.1 h
  obtain ⟨rfl, rfl⟩ := fresh_eq_ok.1 h₁
  obtain ⟨ahead, frame, arrives, rfl⟩ := place_eq_ok h₂
  exact ⟨rfl, current, frame, hf, ahead, arrives, rfl⟩

theorem extends_beginTry (targets : List Label) (h : beginTry B = .ok label C) :
    Extends targets B C ∧ C.isPlaced label = true := by
  obtain ⟨rfl, current, frame, hf, ahead, arrives, rfl⟩ := beginTry_eq_ok h
  have placed := @closes_placed { B with labels := B.labels.fresh.2 } _ _ (Nat.lt_succ_self _) ahead arrives
  refine ⟨⟨.step (.enter hf ahead arrives), fun l hl => .inl ?_⟩, ?_⟩
  · exact (open_congr rfl rfl).1 (placed.opens l ((open_congr rfl rfl).1 hl)).1
  · rw [isPlaced_iff]
    exact (placed_nodes _ _ _).symm ▸ List.mem_cons_self

/-- A fresh label ends a region, whether control gets there or not. -/
inductive Stops (B : Builder) : Builder → Prop where
  | reached {frame : EditFrame} (ahead : B.isPlaced B.labels.fresh.1 = false)
      (arrives : B.arrival? B.labels.fresh.1 = some frame) :
      Stops B ({ B with labels := B.labels.fresh.2 }.placed B.labels.fresh.1 frame)
  | unreached (unreachable : B.frame = none) (ahead : B.isPlaced B.labels.fresh.1 = false) :
      Stops B ({ B with labels := B.labels.fresh.2 }.append (.label B.labels.fresh.1)
        (some B.labels.fresh.1))

namespace Stops

variable (h : Stops B C)
include h

theorem nodes_eq : C.nodes = .label B.labels.fresh.1 :: B.nodes := by
  cases h with
  | reached => exact placed_nodes _ _ _
  | unreached => exact append_nodes _ _ _

theorem ahead : B.isPlaced B.labels.fresh.1 = false := by
  cases h with
  | reached ahead => exact ahead
  | unreached _ ahead => exact ahead

theorem handlers_eq : C.handlers = B.handlers := by
  cases h with
  | reached => exact placed_handlers _ _ _
  | unreached => exact append_handlers _ _ _

theorem extended (targets : List Label) : Extends targets B C := by
  cases h with
  | reached ahead arrives =>
    have placed := @closes_placed { B with labels := B.labels.fresh.2 } _ _ (Nat.lt_succ_self _) ahead arrives
    exact (extends_fresh targets B).trans (placed.extends targets)
  | unreached unreachable ahead =>
    refine ⟨.step (.stop unreachable), fun l hl => .inl ?_⟩
    exact ⟨by simpa using hl.1, ((isPlaced_cons (append_nodes _ _ _)).1 hl.2).2⟩

end Stops

/-- What closes a region puts a fresh label behind it, and hands out another for the handler. -/
theorem endTry_eq_ok {start : Label} {catchType : Option String}
    (h : endTry start catchType B = .ok (label, frame) C) : ∃ D known outer, Stops B D ∧
      D.regions = known :: outer ∧ label = D.labels.fresh.1 ∧ frame = ⟨known, [caughtType catchType]⟩ ∧
      C = D.left start B.labels.fresh.1 catchType known outer := by
  have closing : ∀ (stop : Label) (D : Builder), closeRegion start stop catchType D = .ok (label, frame) C →
      ∃ known outer, D.regions = known :: outer ∧ label = D.labels.fresh.1 ∧
        frame = ⟨known, [caughtType catchType]⟩ ∧ C = D.left start stop catchType known outer := by
    intro stop D h
    unfold closeRegion at h
    rw [get_bind_eq_ok] at h
    cases hr : D.regions with
    | nil =>
      rw [hr] at h
      exact (throw_ne_ok.1 h).elim
    | cons known outer =>
      rw [hr] at h
      cases h
      exact ⟨known, outer, rfl, rfl, rfl, rfl⟩
  unfold endTry at h
  obtain ⟨stop, B₁, h₁, h⟩ := bind_eq_ok.1 h
  obtain ⟨rfl, rfl⟩ := fresh_eq_ok.1 h₁
  rw [get_bind_eq_ok] at h
  cases hf : B.frame with
  | none =>
    have hr : isReachable { B with labels := B.labels.fresh.2 } = false := by
      unfold isReachable; rw [hf]; rfl
    simp only [hr, Bool.false_eq_true, if_false] at h
    obtain ⟨_, B₂, h₂, h⟩ := bind_eq_ok.1 h
    obtain ⟨ahead, rfl⟩ := placeKnown_eq_ok h₂
    obtain ⟨known, outer, closed⟩ := closing _ _ h
    exact ⟨_, known, outer, .unreached hf ahead, closed⟩
  | some current =>
    have hr : isReachable { B with labels := B.labels.fresh.2 } = true := by
      unfold isReachable; rw [hf]; rfl
    simp only [hr, if_true] at h
    obtain ⟨_, B₂, h₂, h⟩ := bind_eq_ok.1 h
    obtain ⟨ahead, frame', arrives, rfl⟩ := place_eq_ok h₂
    obtain ⟨known, outer, closed⟩ := closing _ _ h
    exact ⟨_, known, outer, .reached ahead arrives, closed⟩

/-- The handler of a region that is closed is a fresh label, with its frame. -/
theorem extends_endTry (targets : List Label) {start : Label} {catchType : Option String}
    (started : B.isPlaced start = true) (h : endTry start catchType B = .ok (label, frame) C) :
    Extends (label :: targets) B C ∧ C.labelFrames.find? label = some frame ∧
      label.number < C.labels.allocated ∧ B.labels.allocated ≤ label.number := by
  obtain ⟨D, known, outer, stops, hr, rfl, rfl, rfl⟩ := endTry_eq_ok h
  have hD := stops.extended targets
  have stopped : D.isPlaced B.labels.fresh.1 = true := by
    rw [isPlaced_iff, stops.nodes_eq]
    exact List.mem_cons_self
  refine ⟨⟨hD.run.tail (.leave (hD.run.isPlaced started) stopped hr), fun l hl => ?_⟩, ?_, ?_, ?_⟩
  · by_cases he : l = D.labels.fresh.1
    · exact .inr (he ▸ List.mem_cons_self)
    · have hframed := hl.1
      rw [find?_left, if_neg he] at hframed
      have ho : Open D l := ⟨hframed, (isPlaced_congr (left_nodes _ _ _ _ _ _)).symm.trans hl.2⟩
      exact (hD.opens l ho).imp id (List.mem_cons_of_mem _)
  · rw [find?_left, if_pos rfl]
  · rw [left_labels]
    exact Nat.lt_succ_self _
  · exact hD.run.allocated_le

/-- The operation runs the builder, and leaves open at most the targets, all of them handed out
before. -/
def Adds {α : Type} (targets : List Label) (step : Building α) : Prop :=
  ∀ B a C, (∀ label ∈ targets, label.number < B.labels.allocated) →
    step B = .ok a C → Extends targets B C

namespace Adds

variable {α β : Type} {targets : List Label}

theorem pure (a : α) : Adds targets (Pure.pure a : Building α) := fun B b C _ h => by
  obtain ⟨-, rfl⟩ := pure_eq_ok.1 h
  exact .refl targets _

theorem throw (problem : ClassError) : Adds targets (throw problem : Building α) :=
  fun _ _ _ _ h => (throw_ne_ok.1 h).elim

theorem bind {step : Building α} {next : α → Building β} (hs : Adds targets step)
    (hn : ∀ a, Adds targets (next a)) : Adds targets (step >>= next) := fun B b C known h => by
  obtain ⟨a, D, h₁, h₂⟩ := bind_eq_ok.1 h
  have first := hs B a D known h₁
  exact first.trans (hn a D b C (fun l hl => first.allocated_lt (known l hl)) h₂)

theorem ite {p : Prop} [Decidable p] {a b : Building α} (ha : Adds targets a)
    (hb : Adds targets b) : Adds targets (if p then a else b) := by
  split
  · exact ha
  · exact hb

theorem get : Adds targets (get : Building Builder) := fun B a C _ h => by
  obtain ⟨-, rfl⟩ := get_eq_ok.1 h
  exact .refl targets _

theorem interning {step : Interning α} (hs : Settled step) :
    Adds targets (Builder.interning step) := fun _ _ _ _ h => extends_interning hs h

theorem push {insn : Insn} (hnew : ∀ index, insn ≠ .new index) :
    Adds targets (Builder.push insn) := fun _ _ _ _ h => extends_push hnew h

theorem pushBranch {branch : Branch Label} (hsub : branch.jumpTargets ⊆ targets)
    (plain : branch.isTable = false) :
    Adds targets (Builder.pushBranch branch) := fun _ _ _ known h =>
  (extends_pushBranch (fun l hl => known l (hsub hl)) plain h).mono hsub

theorem constInt (value : Int32) : Adds targets (Builder.constInt value) :=
  .ite (.push (by simp)) <| .ite (.push (by simp)) <| .ite (.push (by simp)) <|
    .bind (.interning (ConstantPool.settled_internInteger value)) fun _ => .push (by simp)

theorem constLong (value : Int64) : Adds targets (Builder.constLong value) :=
  .ite (.push (by simp)) <| .ite (.push (by simp)) <|
    .bind (.interning (ConstantPool.settled_internLong value)) fun _ => .push (by simp)

theorem constString (text : String) : Adds targets (Builder.constString text) :=
  .bind (.interning (ConstantPool.settled_internString text)) fun _ => .push (by simp)

theorem field (access : FieldAccess) (owner name descriptor : String) :
    Adds targets (Builder.field access owner name descriptor) :=
  .bind (.interning (ConstantPool.settled_internField owner name descriptor)) fun _ =>
    .push (by simp)

theorem invoke (kind : InvokeKind) (owner name descriptor : String) :
    Adds targets (Builder.invoke kind owner name descriptor) := by
  refine .bind (.interning (ConstantPool.settled_internMethod owner name descriptor _)) fun _ => ?_
  split
  · split
    · exact .throw _
    · exact .push (by simp)
  · exact .push (by simp)

theorem checkCast (name : String) : Adds targets (Builder.checkCast name) :=
  .bind (.interning (ConstantPool.settled_internClass name)) fun _ => .push (by simp)

theorem newRefArray (element : String) : Adds targets (Builder.newRefArray element) :=
  .bind (.interning (ConstantPool.settled_internClass element)) fun _ => .push (by simp)

theorem load (slot : UInt16) (type : FieldType) : Adds targets (Builder.load slot type) :=
  .push (by simp)

theorem store (slot : UInt16) (type : FieldType) : Adds targets (Builder.store slot type) :=
  .push (by simp)

theorem pop : Adds targets Builder.pop :=
  .bind .get fun _ => by
    split
    · exact .push (by simp)
    · exact .push (by simp)

theorem leave : Adds targets Builder.leave :=
  .bind .get fun _ => .pushBranch (by simp [Branch.returnFor, Branch.jumpTargets]) rfl

end Adds

end ClassWeave.Builder
