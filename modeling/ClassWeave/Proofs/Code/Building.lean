import ClassWeave.Code.Builder
import ClassWeave.Proofs.Code.FrameTable
import ClassWeave.Proofs.Pool.Settled

/-!
Building as a sequence of steps. Every operation of a builder that does not refuse is a run of a few
kinds of steps, so what the steps preserve holds of all code that is built.
-/

namespace ClassWeave

/-- The labels placed among the nodes. -/
def Node.label? : Node → Option Label
  | .label l => some l
  | _ => none

/-- A switch that numbers its targets. -/
def Branch.isTable {T : Type} : Branch T → Bool
  | .tableSwitch _ _ _ => true
  | _ => false

namespace Builder

@[simp] theorem observe_frame (B : Builder) : B.observe.frame = B.frame := by
  unfold observe; split <;> simp_all

@[simp] theorem observe_nodes (B : Builder) : B.observe.nodes = B.nodes := by
  unfold observe; split <;> rfl

@[simp] theorem observe_labels (B : Builder) : B.observe.labels = B.labels := by
  unfold observe; split <;> rfl

@[simp] theorem observe_labelFrames (B : Builder) : B.observe.labelFrames = B.labelFrames := by
  unfold observe; split <;> rfl

@[simp] theorem observe_needsFrame (B : Builder) : B.observe.needsFrame = B.needsFrame := by
  unfold observe; split <;> rfl

@[simp] theorem observe_handlers (B : Builder) : B.observe.handlers = B.handlers := by
  unfold observe; split <;> rfl

@[simp] theorem observe_pending (B : Builder) : B.observe.pending = B.pending := by
  unfold observe; split <;> rfl

@[simp] theorem observe_pool (B : Builder) : B.observe.pool = B.pool := by
  unfold observe; split <;> rfl

@[simp] theorem observe_shape (B : Builder) : B.observe.shape = B.shape := by
  unfold observe; split <;> rfl

section Append

variable (B : Builder) (node : Node) (pending : Option Label)

@[simp] theorem append_frame : (B.append node pending).frame = B.frame := observe_frame _

@[simp] theorem append_nodes : (B.append node pending).nodes = node :: B.nodes := observe_nodes _

@[simp] theorem append_labels : (B.append node pending).labels = B.labels := observe_labels _

@[simp] theorem append_labelFrames : (B.append node pending).labelFrames = B.labelFrames :=
  observe_labelFrames _

@[simp] theorem append_needsFrame : (B.append node pending).needsFrame = B.needsFrame :=
  observe_needsFrame _

@[simp] theorem append_handlers : (B.append node pending).handlers = B.handlers :=
  observe_handlers _

@[simp] theorem append_pending : (B.append node pending).pending = pending := observe_pending _

@[simp] theorem append_pool : (B.append node pending).pool = B.pool := observe_pool _

@[simp] theorem append_shape : (B.append node pending).shape = B.shape := observe_shape _

theorem append_regions : (B.append node pending).regions =
    match B.frame with
    | none => B.regions
    | some frame => B.regions.map fun known =>
        EditFrame.dropHalves (EditFrame.meetLocals known frame.locals) := by
  unfold append observe
  cases h : B.frame with
  | none => simp
  | some frame => simp

end Append

section Require

variable (B : Builder) (label : Label)

@[simp] theorem require_frame : (B.require label).frame = B.frame := by
  unfold require; split <;> rfl

@[simp] theorem require_nodes : (B.require label).nodes = B.nodes := by
  unfold require; split <;> rfl

@[simp] theorem require_labels : (B.require label).labels = B.labels := by
  unfold require; split <;> rfl

@[simp] theorem require_labelFrames : (B.require label).labelFrames = B.labelFrames := by
  unfold require; split <;> rfl

@[simp] theorem require_handlers : (B.require label).handlers = B.handlers := by
  unfold require; split <;> rfl

@[simp] theorem require_regions : (B.require label).regions = B.regions := by
  unfold require; split <;> rfl

@[simp] theorem require_pending : (B.require label).pending = B.pending := by
  unfold require; split <;> rfl

@[simp] theorem require_pool : (B.require label).pool = B.pool := by
  unfold require; split <;> rfl

@[simp] theorem require_shape : (B.require label).shape = B.shape := by
  unfold require; split <;> rfl

@[simp] theorem mem_require {l : Label} :
    l ∈ (B.require label).needsFrame ↔ l = label ∨ l ∈ B.needsFrame := by
  unfold require
  split
  · next h =>
    rw [List.contains_iff_mem] at h
    exact ⟨.inr, fun hl => hl.elim (· ▸ h) id⟩
  · exact List.mem_cons

end Require

@[simp] theorem find?_setFrame (B : Builder) (label : Label) (frame : EditFrame) (l : Label) :
    (B.setFrame label frame).labelFrames.find? l =
      if l = label then some frame else B.labelFrames.find? l :=
  FrameTable.find?_set _ _ _ _

theorem isPlaced_iff (B : Builder) (label : Label) :
    B.isPlaced label = true ↔ .label label ∈ B.nodes := List.contains_iff_mem

/-- One jump is noted. -/
inductive Jump (B : Builder) (frame : EditFrame) (target : Label) : Builder → Prop where
  | first (unframed : B.labelFrames.find? target = none) (ahead : B.isPlaced target = false) :
      Jump B frame target ((B.require target).setFrame target frame)
  | again {expected merged : EditFrame} (framed : B.labelFrames.find? target = some expected)
      (ahead : B.isPlaced target = false) (merges : expected.merge frame = some merged) :
      Jump B frame target ((B.require target).setFrame target merged)
  | back {expected : EditFrame} (framed : B.labelFrames.find? target = some expected)
      (placed : B.isPlaced target = true) (flows : frame.isAssignableTo expected = true) :
      Jump B frame target (B.require target)

/-- The jumps of a branch are noted one after another. -/
inductive Jumps (frame : EditFrame) : List Label → Builder → Builder → Prop where
  | nil (B : Builder) : Jumps frame [] B B
  | cons {target : Label} {rest : List Label} {B C D : Builder} (first : Jump B frame target C)
      (others : Jumps frame rest C D) : Jumps frame (target :: rest) B D

/-- The frame of a label that is about to be placed: the merge of what falls into it and what has
jumped to it. -/
def arrival? (B : Builder) (label : Label) : Option EditFrame :=
  match B.frame, B.labelFrames.find? label with
  | some current, some jumped => jumped.merge current
  | some current, none => some current
  | none, jumped => jumped

/-- The builder with a label at its end, where the frame is known. -/
def placed (B : Builder) (label : Label) (frame : EditFrame) : Builder :=
  { (if B.isReachable then B else B.require label).setFrame label frame with
    frame := some frame }.append (.label label) (some label)

/-- The builder in a region in whose front the locals are known. -/
def opened (B : Builder) (known : List EditType) : Builder :=
  { B with regions := known :: B.regions }

/-- The builder behind the innermost region, for which a fresh label is to be the handler. -/
def left (B : Builder) (start stop : Label) (catchType : Option String) (known : List EditType)
    (outer : List (List EditType)) : Builder :=
  { { B with regions := outer, labels := B.labels.fresh.2 }.require B.labels.fresh.1 with
    handlers := ⟨start, stop, B.labels.fresh.1, catchType⟩ :: B.handlers }.setFrame
      B.labels.fresh.1 ⟨known, [caughtType catchType]⟩

/-- What an operation does at once. -/
inductive Step (B : Builder) : Builder → Prop where
  | intern {pool : ConstantPool} (grows : B.pool ≤ pool) : Step B { B with pool := pool }
  | fresh : Step B { B with labels := B.labels.fresh.2 }
  | insn {insn : Insn} {before after : EditFrame} (reachable : B.frame = some before)
      (typed : insn.verify B.pool B.shape.thisClass B.pending before = .ok ((), after)) :
      Step B ({ B with frame := some after }.append (.insn insn) none)
  | branch {branch : Branch Label} {before after : EditFrame} {C : Builder}
      (reachable : B.frame = some before)
      (typed : branch.verify B.shape.returnType before = .ok ((), after))
      (known : ∀ target ∈ branch.jumpTargets, target.number < B.labels.allocated)
      (jumps : Jumps after branch.jumpTargets { B with frame := none } C)
      (plain : branch.isTable = false) :
      Step B ({ C with frame := if branch.fallsThrough then some after else none }.append
        (.branch branch) none)
  | place {label : Label} {frame : EditFrame} (known : label.number < B.labels.allocated)
      (ahead : B.isPlaced label = false) (arrives : B.arrival? label = some frame) :
      Step B (B.placed label frame)
  /-- A fresh label where control never gets. -/
  | stop (unreachable : B.frame = none) :
      Step B ({ B with labels := B.labels.fresh.2 }.append (.label B.labels.fresh.1)
        (some B.labels.fresh.1))
  /-- A region is opened at a fresh label. -/
  | enter {current frame : EditFrame} (reachable : B.frame = some current)
      (ahead : B.isPlaced B.labels.fresh.1 = false)
      (arrives : B.arrival? B.labels.fresh.1 = some frame) :
      Step B (({ B with labels := B.labels.fresh.2 }.placed B.labels.fresh.1 frame).opened
        current.locals)
  /-- A region is closed, and a fresh label is to be its handler. -/
  | leave {start stop : Label} {catchType : Option String} {known : List EditType}
      {outer : List (List EditType)} (started : B.isPlaced start = true)
      (stopped : B.isPlaced stop = true) (inside : B.regions = known :: outer) :
      Step B (B.left start stop catchType known outer)

/-- Any number of steps. -/
inductive Run : Builder → Builder → Prop where
  | refl (B : Builder) : Run B B
  | tail {B C D : Builder} (run : Run B C) (step : Step C D) : Run B D

namespace Run

variable {B C D : Builder}

theorem step (h : Step B C) : Run B C := .tail (.refl B) h

theorem trans (h : Run B C) (h' : Run C D) : Run B D := by
  induction h' with
  | refl => exact h
  | tail _ step ih => exact .tail ih step

end Run

end Builder

end ClassWeave
