import ClassWeave.Proofs.Script.Refining
import ClassWeave.Proofs.Script.Tracking

/-!
What is on the stack where compiling rests. An expression leaves its value above what was there, a condition and a
value that is stored leave nothing more, and statements start and end with an empty stack. Each label of a script is
reached with the stack that it was handed out for, so guards go on to their label with an empty stack.
-/

namespace ClassWeave

open Verifying EditFrame

/-- A step that ends well leads from what holds before it to what is to hold behind it. -/
def Ensures {ε σ α : Type} (before : σ → Prop) (step : EStateM ε σ α) (behind : α → σ → Prop) : Prop :=
  ∀ s a s', before s → step s = .ok a s' → behind a s'

namespace Ensures

variable {ε σ α β : Type} {before : σ → Prop} {middle behind : α → σ → Prop} {last : β → σ → Prop}

theorem throw (problem : ε) : Ensures before (throw problem : EStateM ε σ α) behind := fun _ _ _ _ h =>
  (throw_ne_ok.1 h).elim

/-- Nothing behind a refusal is run. -/
theorem refuse {problem : ε} {next : α → EStateM ε σ β} :
    Ensures before (MonadExcept.throw problem >>= next) last := fun _ _ _ _ h => (throw_bind_ne_ok.1 h).elim

theorem bind {step : EStateM ε σ α} {next : α → EStateM ε σ β} (hs : Ensures before step middle)
    (hn : ∀ a, Ensures (middle a) (next a) last) : Ensures before (step >>= next) last := fun s b s' hbefore h => by
  obtain ⟨a, t, hstep, hnext⟩ := bind_eq_ok.1 h
  exact hn a t b s' (hs s a t hbefore hstep) hnext

end Ensures

/-- For each label that is agreed on, the widths of the values that are on the stack there. -/
abbrev Agreement := Label → Option (List Nat)

/-- The second agrees on what the first agrees on. -/
def Agreement.Within (agreed more : Agreement) : Prop :=
  ∀ label widths, agreed label = some widths → more label = some widths

namespace Builder

variable {B C : Builder} {stack others popped pushed : List Nat} {agreed : Agreement} {label target : Label}
  {frame : EditFrame} {u : Unit}

/-- Labels that are agreed on have been handed out, and where one has a frame the stack is as agreed. -/
structure Lined (agreed : Agreement) (B : Builder) : Prop where
  known : ∀ label widths, agreed label = some widths → label.number < B.labels.allocated
  framed : ∀ label frame, B.labelFrames.find? label = some frame → label.number < B.labels.allocated
  lined : ∀ label widths frame, agreed label = some widths → B.labelFrames.find? label = some frame →
    frame.widths = widths

/-- The stack has values of the widths wherever control arrives, and what has been agreed on is kept. -/
structure Rests (stack : List Nat) (agreed : Agreement) (B : Builder) : Prop extends Lined agreed B where
  holds : B.Holds stack

namespace Lined

theorem forget {more : Agreement} (h : B.Lined more) (within : agreed.Within more) : B.Lined agreed where
  known label widths ha := h.known label widths (within label widths ha)
  framed := h.framed
  lined label widths frame ha hf := h.lined label widths frame (within label widths ha) hf

theorem congr (h : B.Lined agreed) (labels : B.labels.allocated ≤ C.labels.allocated)
    (frames : C.labelFrames = B.labelFrames) : C.Lined agreed where
  known label widths ha := Nat.lt_of_lt_of_le (h.known label widths ha) labels
  framed label frame hf := Nat.lt_of_lt_of_le (h.framed label frame (frames ▸ hf)) labels
  lined := frames ▸ h.lined

/-- A frame is noted at a label, with the stack that is agreed on if there is one. -/
theorem note (h : B.Lined agreed) (labels : B.labels.allocated ≤ C.labels.allocated)
    (hfind : ∀ l, C.labelFrames.find? l = if l = label then some frame else B.labelFrames.find? l)
    (known : label.number < C.labels.allocated)
    (agrees : ∀ widths, agreed label = some widths → frame.widths = widths) : C.Lined agreed where
  known l widths ha := Nat.lt_of_lt_of_le (h.known l widths ha) labels
  framed l f hf := by
    rw [hfind] at hf
    split at hf
    · next he => exact he ▸ known
    · exact Nat.lt_of_lt_of_le (h.framed l f hf) labels
  lined l widths f ha hf := by
    rw [hfind] at hf
    split at hf
    · next he =>
      cases hf
      exact agrees widths (he ▸ ha)
    · exact h.lined l widths f ha hf

/-- A fresh label may be agreed on. -/
theorem fresh (h : B.Lined agreed) (widths : List Nat) :
    agreed B.labels.fresh.1 = none ∧
      { B with labels := B.labels.fresh.2 }.Lined (Function.update agreed B.labels.fresh.1 (some widths)) := by
  have unframed : ∀ f, B.labelFrames.find? B.labels.fresh.1 ≠ some f := fun f hf =>
    Nat.lt_irrefl _ (h.framed _ f hf)
  refine ⟨?_, fun l ws ha => ?_, fun l f hf => Nat.lt_succ_of_lt (h.framed l f hf), fun l ws f ha hf => ?_⟩
  · cases ha : agreed B.labels.fresh.1 with
    | none => rfl
    | some ws => exact absurd (h.known _ ws ha) (Nat.lt_irrefl _)
  · by_cases he : l = B.labels.fresh.1
    · exact he ▸ Nat.lt_succ_self _
    · rw [Function.update_of_ne he] at ha
      exact Nat.lt_succ_of_lt (h.known l ws ha)
  · by_cases he : l = B.labels.fresh.1
    · exact absurd (he ▸ hf) (unframed f)
    · rw [Function.update_of_ne he] at ha
      exact h.lined l ws f ha hf

theorem jump (h : B.Lined agreed) (agrees : agreed target = some frame.widths) (hj : Jump B frame target C) :
    C.Lined agreed := by
  have hlabels : B.labels.allocated ≤ C.labels.allocated := Nat.le_of_eq (by rw [hj.labels_eq])
  have known := Nat.lt_of_lt_of_le (h.known target _ agrees) hlabels
  cases hj with
  | first => exact h.note hlabels (find?_note B target _) known fun ws hw => Option.some.inj (agrees.symm.trans hw)
  | again _ _ merges =>
    exact h.note hlabels (find?_note B target _) known fun ws hw =>
      (widths_merge merges).2.trans (Option.some.inj (agrees.symm.trans hw))
  | back => exact h.congr hlabels (require_labelFrames B target)

theorem jumps {targets : List Label} (h : B.Lined agreed)
    (agrees : ∀ target ∈ targets, agreed target = some frame.widths)
    (hj : Jumps frame targets B C) : C.Lined agreed := by
  induction hj with
  | nil => exact h
  | cons first others ih =>
    obtain ⟨hfirst, hrest⟩ := List.forall_mem_cons.1 agrees
    exact ih (h.jump hfirst first) hrest

theorem placed (h : B.Lined agreed) (known : label.number < B.labels.allocated)
    (agrees : ∀ widths, agreed label = some widths → frame.widths = widths) : (B.placed label frame).Lined agreed :=
  h.note (Nat.le_of_eq (by rw [placed_labels])) (find?_placed B label frame) (by rwa [placed_labels]) agrees

end Lined

namespace Rests

theorem congr (h : B.Rests stack agreed) (labels : B.labels.allocated ≤ C.labels.allocated)
    (frames : C.labelFrames = B.labelFrames) (holds : C.Holds others) : C.Rests others agreed :=
  ⟨h.toLined.congr labels frames, holds⟩

/-- Where control does not arrive the stack has whatever is asked for. -/
theorem dead (h : B.Lined agreed) (hf : B.frame = none) : B.Rests stack agreed :=
  ⟨h, fun _ hframe => nomatch hf.symm.trans hframe⟩

theorem start (pool : ConstantPool) (labels : LabelSupply) (shape : MethodShape) (entry : EditFrame) :
    (start pool labels shape entry).Rests entry.widths fun _ => none where
  known := nofun
  framed := nofun
  lined := nofun
  holds frame hf := by
    cases hf
    rfl

variable (h : B.Rests stack agreed)
include h

theorem fresh (widths : List Nat) :
    { B with labels := B.labels.fresh.2 }.Rests stack (Function.update agreed B.labels.fresh.1 (some widths)) :=
  ⟨(h.toLined.fresh widths).2, h.holds⟩

/-- A frame with which control arrives at a label has what is on the stack. -/
theorem widths_arrival (agrees : agreed label = some stack ∨ B.labelFrames.find? label = none)
    (arrives : B.arrival? label = some frame) : frame.widths = stack := by
  have hjumped : ∀ f, B.labelFrames.find? label = some f → f.widths = stack := fun f hf =>
    agrees.elim (fun ha => h.lined label stack f ha hf) fun hnone => nomatch hnone.symm.trans hf
  unfold arrival? at arrives
  cases hf : B.frame with
  | none =>
    rw [hf] at arrives
    cases hj : B.labelFrames.find? label with
    | none => rw [hj] at arrives; cases arrives
    | some jumped =>
      rw [hj] at arrives
      cases arrives
      exact hjumped _ hj
  | some current =>
    rw [hf] at arrives
    cases hj : B.labelFrames.find? label with
    | none =>
      rw [hj] at arrives
      cases arrives
      exact h.holds _ hf
    | some jumped =>
      rw [hj] at arrives
      exact (widths_merge arrives).1.trans (hjumped _ hj)

theorem placed (known : label.number < B.labels.allocated)
    (agrees : agreed label = some stack ∨ agreed label = none ∧ B.labelFrames.find? label = none)
    (arrives : B.arrival? label = some frame) : (B.placed label frame).Rests stack agreed := by
  have hwidths := h.widths_arrival (agrees.imp id And.right) arrives
  refine ⟨h.toLined.placed known fun ws hw => ?_, fun f hf => ?_⟩
  · rcases agrees with ha | ⟨ha, -⟩
    · exact hwidths.trans (Option.some.inj (ha.symm.trans hw))
    · cases ha.symm.trans hw
  · rw [placed_frame] at hf
    cases hf
    exact hwidths

theorem place (agrees : agreed label = some stack) (hplace : place label B = .ok u C) : C.Rests stack agreed := by
  obtain ⟨-, frame, arrives, rfl⟩ := place_eq_ok hplace
  exact h.placed (h.known label stack agrees) (.inl agrees) arrives

/-- The frame of a label that is asked for is what is on the stack behind it. -/
theorem placeWith (known : label.number < B.labels.allocated)
    (agrees : ∀ widths, agreed label = some widths → frame.widths = widths)
    (hplace : placeWith label frame B = .ok u C) : C.Rests frame.widths agreed := by
  obtain ⟨-, -, rfl⟩ := placeWith_eq_ok hplace
  refine ⟨h.toLined.note (Nat.le_of_eq ?_) (fun l => ?_) ?_ agrees, fun f hf => ?_⟩
  · rw [append_labels]
    exact congrArg LabelSupply.allocated (require_labels B label).symm
  · rw [append_labelFrames]
    exact find?_note B label frame l
  · rw [append_labels]
    exact (require_labels B label).symm ▸ known
  · rw [append_frame] at hf
    cases hf
    rfl

theorem beginTry (hbegin : beginTry B = .ok label C) : C.Rests stack agreed := by
  obtain ⟨rfl, current, frame, -, -, arrives, rfl⟩ := beginTry_eq_ok hbegin
  have hnone : B.labelFrames.find? B.labels.fresh.1 = none := by
    cases hf : B.labelFrames.find? B.labels.fresh.1 with
    | none => rfl
    | some f => exact absurd (h.framed _ f hf) (Nat.lt_irrefl _)
  have hlater : { B with labels := B.labels.fresh.2 }.Rests stack agreed := h.congr (Nat.le_succ _) rfl h.holds
  have placed := hlater.placed (Nat.lt_succ_self _) (.inr ⟨(h.toLined.fresh []).1, hnone⟩) arrives
  exact placed.congr (Nat.le_refl _) rfl placed.holds

theorem stops (hs : Stops B C) : C.Rests stack agreed := by
  have hnone : B.labelFrames.find? B.labels.fresh.1 = none := by
    cases hf : B.labelFrames.find? B.labels.fresh.1 with
    | none => rfl
    | some f => exact absurd (h.framed _ f hf) (Nat.lt_irrefl _)
  have hlater : { B with labels := B.labels.fresh.2 }.Rests stack agreed := h.congr (Nat.le_succ _) rfl h.holds
  cases hs with
  | reached _ arrives => exact hlater.placed (Nat.lt_succ_self _) (.inr ⟨(h.toLined.fresh []).1, hnone⟩) arrives
  | unreached unreachable =>
    exact dead (hlater.toLined.congr (Nat.le_of_eq (by rw [append_labels])) (append_labelFrames _ _ _))
      ((append_frame _ _ _).trans unreachable)

/-- What a region ends with is told at a fresh label. -/
theorem endTry {start : Label} {catchType : Option String} (hend : endTry start catchType B = .ok (label, frame) C) :
    C.Rests stack agreed ∧ agreed label = none ∧ label.number < C.labels.allocated ∧ frame.widths = [1] := by
  obtain ⟨D, known, outer, stops, -, rfl, rfl, rfl⟩ := endTry_eq_ok hend
  have stopped := h.stops stops
  have hfresh := (stopped.toLined.fresh []).1
  refine ⟨⟨stopped.toLined.note (Nat.le_of_lt ?_) (find?_left D start _ catchType known outer) ?_ fun ws hw => ?_, ?_⟩,
    hfresh, ?_, by cases catchType <;> rfl⟩
  · rw [left_labels]
    exact Nat.lt_succ_self _
  · rw [left_labels]
    exact Nat.lt_succ_self _
  · cases hfresh.symm.trans hw
  · intro f hf
    rw [left_frame] at hf
    exact stopped.holds f hf
  · rw [left_labels]
    exact Nat.lt_succ_self _

end Rests

section Instructions

theorem Rests.push {insn : Insn} (taken : List Nat) (hnew : ∀ index, insn ≠ .new index) (hpush : push insn B = .ok u C)
    (shifts : ∀ thisClass allocation, Shifts (insn.verify B.pool thisClass allocation) popped pushed)
    (hlength : taken.length = popped.length) (h : B.Rests (taken ++ stack) agreed) :
    C.Rests (pushed ++ stack) agreed := by
  have hholds := holds_of_push hnew hpush shifts ((takes_of_push hnew hpush shifts).holds h.holds hlength)
  obtain ⟨before, after, -, -, rfl⟩ := push_eq_ok hnew hpush
  exact h.congr (Nat.le_of_eq (by rw [append_labels])) (append_labelFrames _ _ _) hholds

theorem Rests.store {kind : SlotKind} {slot : UInt16} {width : Nat} (h : B.Rests (width :: stack) agreed)
    (hpush : Builder.push (.store kind slot) B = .ok u C) : C.Rests stack agreed := by
  obtain ⟨before, after, hf, hv, rfl⟩ := push_eq_ok (Insn.ne_new rfl) hpush
  refine h.congr (Nat.le_of_eq (by rw [append_labels])) (append_labelFrames _ _ _) fun f hframe => ?_
  rw [append_frame] at hframe
  cases hframe
  exact (List.cons.inj ((Insn.verify_store hv).1.symm.trans (h.holds before hf))).2

theorem Rests.load {kind : SlotKind} {slot : UInt16} (h : B.Rests stack agreed)
    (hload : Builder.push (.load kind slot) B = .ok u C) : C.Rests (kind.width :: stack) agreed := by
  obtain ⟨before, after, hf, hv, rfl⟩ := push_eq_ok (Insn.ne_new rfl) hload
  refine h.congr (Nat.le_of_eq (by rw [append_labels])) (append_labelFrames _ _ _) fun f hframe => ?_
  rw [append_frame] at hframe
  cases hframe
  rw [(Insn.verify_load hv).1, h.holds before hf]

theorem Rests.increment {slot : UInt16} {amount : Int16} (h : B.Rests stack agreed)
    (hpush : Builder.push (.increment slot amount) B = .ok u C) : C.Rests stack agreed := by
  obtain ⟨before, after, hf, hv, rfl⟩ := push_eq_ok (Insn.ne_new rfl) hpush
  refine h.congr (Nat.le_of_eq (by rw [append_labels])) (append_labelFrames _ _ _) fun f hframe => ?_
  rw [append_frame] at hframe
  cases hframe
  rw [(Insn.verify_increment hv).1]
  exact h.holds before hf

/-- A value is dropped. -/
theorem Rests.pop {width : Nat} (h : B.Rests (width :: stack) agreed) (hpop : Builder.pop B = .ok u C) :
    C.Rests stack agreed := by
  unfold Builder.pop at hpop
  rw [get_bind_eq_ok] at hpop
  have narrow (hpush : Builder.push (.stack .pop) B = .ok u C) : C.Rests stack agreed :=
    Rests.push [width] (Insn.ne_new rfl) hpush (fun _ _ => Insn.shifts_pop) rfl h
  match hf : B.frame with
  | none =>
    rw [hf] at hpop
    exact narrow hpop
  | some ⟨locals, []⟩ =>
    rw [hf] at hpop
    exact narrow hpop
  | some ⟨locals, type :: below⟩ =>
    rw [hf] at hpop
    dsimp only at hpop
    split at hpop
    · next hwide =>
      obtain ⟨before, after, hbefore, hv, rfl⟩ := push_eq_ok (Insn.ne_new rfl) hpop
      cases hf.symm.trans hbefore
      refine h.congr (Nat.le_of_eq (by rw [append_labels])) (append_labelFrames _ _ _) fun f hframe => ?_
      rw [append_frame] at hframe
      cases hframe
      rw [Insn.verify_pop2 rfl hwide hv]
      exact (List.cons.inj (h.holds _ hf)).2
    · exact narrow hpop

/-- A branch takes what it decides by, and jumps with what is left. -/
theorem Rests.branch {branch : Branch Label} (taken : List Nat) (hpush : pushBranch branch B = .ok u C)
    (shifts : ∀ returnType, Shifts (branch.verify returnType) popped []) (hlength : taken.length = popped.length)
    (agrees : ∀ target ∈ branch.jumpTargets, agreed target = some stack) (h : B.Rests (taken ++ stack) agreed) :
    C.Rests stack agreed := by
  obtain ⟨before, after, D, hf, hv, jumps, rfl⟩ := pushBranch_eq_ok hpush
  have hwidths : after.widths = stack := by
    obtain ⟨⟨rest, hbefore, hafter⟩, -⟩ := shifts _ _ _ _ hv
    rw [hafter, List.nil_append, ← (List.append_inj (hbefore.symm.trans (h.holds before hf)) hlength.symm).2]
  have started : { B with frame := none }.Lined agreed := h.toLined.congr (Nat.le_refl _) rfl
  have lined : D.Lined agreed := started.jumps (fun target ht => hwidths ▸ agrees target ht) jumps
  refine ⟨lined.congr (Nat.le_of_eq (by rw [append_labels])) (append_labelFrames _ _ _), fun f hframe => ?_⟩
  rw [append_frame] at hframe
  split at hframe
  · cases hframe
    exact hwidths
  · cases hframe

/-- Behind a jump nothing arrives. -/
theorem Rests.goto (h : B.Rests stack agreed) (agrees : agreed target = some stack)
    (hpush : pushBranch (.goto target) B = .ok u C) : C.Rests others agreed := by
  have rested : C.Rests stack agreed :=
    Rests.branch [] hpush (fun _ => .pure _) rfl (List.forall_mem_singleton.2 agrees) h
  obtain ⟨_, _, D, -, -, -, rfl⟩ := pushBranch_eq_ok hpush
  exact dead rested.toLined (append_frame _ _ _)

/-- Leaving the method has no target. -/
theorem Rests.leave (h : B.Rests stack agreed) (hleave : Builder.leave B = .ok u C) : C.Rests others agreed := by
  have hpush : pushBranch (.returnFor B.shape.returnType) B = .ok u C := hleave
  obtain ⟨_, _, D, -, -, jumps, rfl⟩ := pushBranch_eq_ok hpush
  cases jumps
  exact dead (h.toLined.congr (Nat.le_of_eq (by rw [append_labels])) (append_labelFrames _ _ _)) (append_frame _ _ _)

end Instructions

end Builder

open Compiler Builder

/-- The second builder has the labels of the first, with the frames that they have there. -/
def Builder.Still (B C : Builder) : Prop := C.labels = B.labels ∧ C.labelFrames = B.labelFrames

theorem Builder.Still.trans {B C D : Builder} (h : Still B C) (h' : Still C D) : Still B D :=
  ⟨h'.1.trans h.1, h'.2.trans h.2⟩

theorem Builder.composes_still :
    Builder.Composes fun _ step => ∀ B a C, step B = .ok a C → Still B C where
  pure _ _ _ _ h := (pure_eq_ok.1 h).2 ▸ ⟨rfl, rfl⟩
  throw _ _ _ _ h := (throw_ne_ok.1 h).elim
  bind hs hn _ _ _ h := by
    obtain ⟨_, _, h₁, h₂⟩ := bind_eq_ok.1 h
    exact (hs _ _ _ h₁).trans (hn _ _ _ _ h₂)
  intern _ _ _ _ _ h := by
    obtain ⟨_, -, rfl⟩ := interning_eq_ok.1 h
    exact ⟨rfl, rfl⟩
  push insn operates _ _ _ h := by
    obtain ⟨_, _, -, -, rfl⟩ := push_eq_ok (Insn.ne_new (Insn.isScripted_of_isOperation operates)) h
    exact ⟨append_labels _ _ _, append_labelFrames _ _ _⟩

/-- The code of an expression has no labels. -/
theorem Compiler.composes_still : ComposesExpr (fun _ _ => True) (fun _ step => ∀ B a C, step B = .ok a C → Still B C)
    fun _ step => ∀ c a c', step c = .ok a c' → Still c.builder c'.builder where
  building := Builder.composes_still
  lift h _ _ _ hstep := by
    obtain ⟨_, hB, rfl⟩ := lift_eq_ok.1 hstep
    exact h _ _ _ hB
  pure _ _ _ _ h := (pure_eq_ok.1 h).2 ▸ ⟨rfl, rfl⟩
  throw _ _ _ _ h := (throw_ne_ok.1 h).elim
  bind hs hn _ _ _ h := by
    obtain ⟨_, _, h₁, h₂⟩ := bind_eq_ok.1 h
    exact (hs _ _ _ h₁).trans (hn _ _ _ _ h₂)
  shape _ _ _ h := by
    cases h
    exact ⟨rfl, rfl⟩
  argument _ _ _ hn _ _ _ h := by
    obtain ⟨v, _, hfound, h⟩ := bind_eq_ok.1 h
    exact (Host.argument_eq_ok hfound).2 ▸ hn v.1 v.2 trivial _ _ _ h
  lookUp _ _ _ hn _ _ _ h := by
    obtain ⟨v, _, hfound, h⟩ := bind_eq_ok.1 h
    exact (lookUp_eq_ok hfound).1 ▸ hn v.1 v.2 trivial _ _ _ h

theorem Replacement.few_clearingShape :
    clearingShape.descriptor.parameterSlots (!clearingShape.isStatic) ≤ 65535 := by decide

theorem Host.ascending_nil : ([] : List (UInt16 × FieldType)).Pairwise fun v w =>
    v.1.toNat + v.2.width ≤ w.1.toNat := .nil

theorem Host.above_nil (shape : MethodShape) : ∀ v ∈ ([] : List (UInt16 × FieldType)),
    shape.parameterSlots.toNat ≤ v.1.toNat := nofun

/-- A program without code, to host what is only asked for the widths of its values. -/
def Host.vacant : Host where
  program := ⟨[], [], .empty⟩
  shape := Replacement.clearingShape
  slots := []
  few := Replacement.few_clearingShape
  ascending := Host.ascending_nil
  above := Host.above_nil Replacement.clearingShape

namespace Compiler

variable {α β : Type} {stack others : List Nat} {agreed : Agreement} {c c' : Compiler} {target : Label}

/-- What is on the stack, and at the labels that are agreed on. -/
def Rests (stack : List Nat) (agreed : Agreement) (c : Compiler) : Prop := c.builder.Rests stack agreed

theorem Rests.expr {e : Expr} {type : Option FieldType} (h : c.Rests stack agreed) (he : expr e c = .ok type c') :
    c'.Rests ((type.map FieldType.width).toList ++ stack) agreed := by
  obtain ⟨hlabels, hframes⟩ := composes_still.expr e c type c' he
  have computes := (Host.evaluates_expr Replacement.zeroing Host.vacant e he).2
  exact Builder.Rests.congr h (Nat.le_of_eq (by rw [hlabels])) hframes (computes.holds stack h.holds)

theorem Rests.constInt {B : Builder} {u : Unit} {value : Int32} (h : c.Rests stack agreed)
    (hconst : Builder.constInt value c.builder = .ok u B) : B.Rests (1 :: stack) agreed := by
  obtain ⟨hlabels, hframes⟩ := Builder.composes_still.constInt value c.builder u B hconst
  have computes := @Host.computes_constInt Replacement.zeroing Host.vacant c B u value hconst
  exact Builder.Rests.congr h (Nat.le_of_eq (by rw [hlabels])) hframes (computes.holds stack h.holds)

theorem ensures_lift {step : Building α}
    (h : ∀ B a C, B.Rests stack agreed → step B = .ok a C → C.Rests others agreed) :
    Ensures (Rests stack agreed) (liftM step : Compiling α) fun _ => Rests others agreed := fun c a c' hc hstep => by
  obtain ⟨B, hB, rfl⟩ := lift_eq_ok.1 hstep
  exact h _ _ _ hc hB

theorem keeps_of_builder {step : Compiling α} (h : ∀ c a c', step c = .ok a c' → c'.builder = c.builder) :
    Keeps (Rests stack agreed) step := fun c a c' hc hstep => by
  unfold Rests
  rw [h c a c' hstep]
  exact hc

theorem keeps_fieldType_rests (descriptor : String) : Keeps (Rests stack agreed) (fieldType descriptor) := by
  unfold fieldType
  split
  · exact .pure _
  · exact .throw _

theorem keeps_lookUp_rests (name : String) : Keeps (Rests stack agreed) (lookUp name) :=
  keeps_of_builder fun _ _ _ h => by rw [(lookUp_eq_ok h).1]

theorem keeps_argument_rests (index : Nat) : Keeps (Rests stack agreed) (argument index) :=
  keeps_of_builder fun _ _ _ h => by rw [(Host.argument_eq_ok h).2]

theorem keeps_allocate_rests (type : FieldType) : Keeps (Rests stack agreed) (allocate type) :=
  keeps_of_builder fun _ _ _ h => by
    obtain ⟨-, next, -, rfl⟩ := allocate_eq_ok h
    rfl

theorem keeps_declare_rests (name : String) (slot : UInt16) (type : FieldType) :
    Keeps (Rests stack agreed) (declare name slot type) :=
  keeps_of_builder fun _ _ _ h => by rw [modify_eq_ok.1 h]

theorem ensures_store (kind : SlotKind) (slot : UInt16) (width : Nat) :
    Ensures (Rests (width :: stack) agreed) (liftM (push (.store kind slot)) : Compiling Unit)
      fun _ => Rests stack agreed := ensures_lift fun _ _ _ h hstore => h.store hstore

theorem ensures_constInt (value : Int32) :
    Ensures (Rests stack agreed) (liftM (Builder.constInt value) : Compiling Unit)
      fun _ => Rests (1 :: stack) agreed := fun c u c' hc h => by
  obtain ⟨B, hB, rfl⟩ := lift_eq_ok.1 h
  exact hc.constInt hB

theorem ensures_load (kind : SlotKind) (slot : UInt16) :
    Ensures (Rests stack agreed) (liftM (push (.load kind slot)) : Compiling Unit)
      fun _ => Rests (kind.width :: stack) agreed := ensures_lift fun _ _ _ h hload => h.load hload

theorem ensures_value (operand : Expr) : Ensures (Rests stack agreed) (value operand)
    fun type => Rests (type.width :: stack) agreed := fun _ _ _ hc h => hc.expr (Host.value_eq_ok h)

theorem ensures_discardValue (operand : Expr) {next : PUnit → Compiling β} {last : β → Compiler → Prop}
    (hn : ∀ width u, Ensures (Rests (width :: stack) agreed) (next u) last) :
    Ensures (Rests stack agreed) (discard (value operand) >>= next) last := fun c b c' hc h => by
  obtain ⟨type, c₁, hvalue, h⟩ := Host.value_bind_eq_ok h
  exact hn type.width ⟨⟩ _ _ _ (hc.expr hvalue) h

/-- A label is handed out, to be reached with the given stack. -/
theorem ensures_fresh {next : Label → Compiling β} (widths : List Nat)
    (hn : ∀ label more, agreed.Within more → more label = some widths →
      Ensures (Rests stack more) (next label) fun _ => Rests others more) :
    Ensures (Rests stack agreed) ((liftM fresh : Compiling Label) >>= next) fun _ => Rests others agreed := by
  intro c b c' hc h
  obtain ⟨label, B, hB, h⟩ := lift_bind_eq_ok.1 h
  obtain ⟨rfl, rfl⟩ := Builder.fresh_eq_ok.1 hB
  have within : agreed.Within (Function.update agreed c.builder.labels.fresh.1 (some widths)) := fun l ws ha => by
    rw [Function.update_of_ne]
    · exact ha
    · rintro rfl
      exact absurd (hc.known _ ws ha) (Nat.lt_irrefl _)
  have started : Rests stack (Function.update agreed c.builder.labels.fresh.1 (some widths))
      { c with builder := { c.builder with labels := c.builder.labels.fresh.2 } } := Builder.Rests.fresh hc widths
  have rested := hn _ _ within (Function.update_self _ _ _) _ _ _ started h
  exact ⟨rested.toLined.forget within, rested.holds⟩

theorem ensures_branch {branch : Branch Label} {popped : List Nat} (taken : List Nat)
    (shifts : ∀ returnType, Shifts (branch.verify returnType) popped []) (hlength : taken.length = popped.length)
    (targets : branch.jumpTargets = [target]) (agrees : agreed target = some stack) :
    Ensures (Rests (taken ++ stack) agreed) (liftM (pushBranch branch) : Compiling Unit) fun _ => Rests stack agreed :=
  ensures_lift fun _ _ _ h hpush => .branch taken hpush shifts hlength
    (by rw [targets]; exact List.forall_mem_singleton.2 agrees) h

theorem keeps_placeIfReachable_rests (agrees : agreed target = some stack) :
    Keeps (Rests stack agreed) (placeIfReachable target) := fun c u c' hc h => by
  rcases Host.placeIfReachable_eq_ok h with ⟨rfl, -⟩ | ⟨B, hB, rfl⟩
  · exact hc
  · exact Builder.Rests.place hc agrees hB

theorem ensures_gotoIfReachable (agrees : agreed target = some stack) :
    Ensures (Rests stack agreed) (gotoIfReachable target) fun _ => Rests others agreed := fun c u c' hc h => by
  have hended := frame_gotoIfReachable h
  rcases Host.gotoIfReachable_cases h with ⟨rfl, -⟩ | ⟨B, hB, rfl⟩
  · exact .dead hc.toLined hended
  · exact Builder.Rests.goto hc agrees hB

theorem keeps_junction_rests {neutral jumpIf isEmpty : Bool} {each : Compiling Unit} {lastOf : Label → Compiling Unit}
    (agrees : agreed target = some stack) (heach : Keeps (Rests stack agreed) each)
    (hlast : ∀ skip more, agreed.Within more → more skip = some stack → Keeps (Rests stack more) (lastOf skip)) :
    Keeps (Rests stack agreed) (junction neutral jumpIf target isEmpty each lastOf) := by
  have jumps : Keeps (Rests stack agreed) (liftM (pushBranch (.goto target)) : Compiling Unit) :=
    ensures_branch [] (fun _ => .pure _) rfl rfl agrees
  refine .ite (.ite jumps (.pure _)) (.ite heach ?_)
  exact ensures_fresh stack fun skip more within hskip =>
    .bind (hlast skip more within hskip) fun _ => keeps_placeIfReachable_rests hskip

mutual

theorem keeps_cond_rests (stack : List Nat) :
    ∀ (agreed : Agreement) (jumpIf : Bool) (target : Label) (condition : Cond),
      agreed target = some stack → Keeps (Rests stack agreed) (cond jumpIf target condition)
  | agreed, jumpIf, target, .isNull operand, agrees => by
    rw [cond]
    exact ensures_discardValue operand fun width _ =>
      ensures_branch [width] (fun _ => Branch.shifts_ifNull _ _) rfl rfl agrees
  | agreed, jumpIf, target, .notNull operand, agrees => by
    rw [cond]
    exact ensures_discardValue operand fun width _ =>
      ensures_branch [width] (fun _ => Branch.shifts_ifNull _ _) rfl rfl agrees
  | agreed, jumpIf, target, .isTrue operand, agrees => by
    rw [cond]
    exact ensures_discardValue operand fun width _ =>
      ensures_branch [width] (fun _ => Branch.shifts_ifZero _ _) rfl rfl agrees
  | agreed, jumpIf, target, .isFalse operand, agrees => by
    rw [cond]
    exact ensures_discardValue operand fun width _ =>
      ensures_branch [width] (fun _ => Branch.shifts_ifZero _ _) rfl rfl agrees
  | agreed, jumpIf, target, .compare comparison a b, agrees => by
    rw [cond]
    exact ensures_discardValue a fun first _ => ensures_discardValue b fun second _ =>
      ensures_branch [second, first] (fun _ => Branch.shifts_ifInts _ _) rfl rfl agrees
  | agreed, jumpIf, target, .not condition, agrees => by
    rw [cond]
    exact keeps_cond_rests stack agreed (!jumpIf) target condition agrees
  | agreed, jumpIf, target, .all conditions, agrees => by
    rw [cond]
    exact keeps_junction_rests agrees (keeps_each_rests stack agreed jumpIf target conditions agrees)
      fun skip more within hskip =>
        keeps_lastOf_rests stack more jumpIf target skip conditions (within _ _ agrees) hskip
  | agreed, jumpIf, target, .any conditions, agrees => by
    rw [cond]
    exact keeps_junction_rests agrees (keeps_each_rests stack agreed jumpIf target conditions agrees)
      fun skip more within hskip =>
        keeps_lastOf_rests stack more jumpIf target skip conditions (within _ _ agrees) hskip

theorem keeps_each_rests (stack : List Nat) : ∀ (agreed : Agreement) (jumpIf : Bool) (target : Label)
    (conditions : List Cond), agreed target = some stack → Keeps (Rests stack agreed) (each jumpIf target conditions)
  | agreed, jumpIf, target, [], _ => by
    rw [each]
    exact .pure _
  | agreed, jumpIf, target, first :: rest, agrees => by
    rw [each]
    exact .bind (keeps_cond_rests stack agreed jumpIf target first agrees) fun _ =>
      keeps_each_rests stack agreed jumpIf target rest agrees

theorem keeps_lastOf_rests (stack : List Nat) : ∀ (agreed : Agreement) (jumpIf : Bool) (target skip : Label)
    (conditions : List Cond), agreed target = some stack → agreed skip = some stack →
      Keeps (Rests stack agreed) (lastOf jumpIf target skip conditions)
  | agreed, jumpIf, target, skip, [], _, _ => by
    rw [lastOf]
    exact .pure _
  | agreed, jumpIf, target, skip, [last], agrees, _ => by
    rw [lastOf]
    exact keeps_cond_rests stack agreed jumpIf target last agrees
  | agreed, jumpIf, target, skip, first :: second :: rest, agrees, hskip => by
    rw [lastOf]
    · exact .bind (keeps_cond_rests stack agreed (!jumpIf) skip first hskip) fun _ =>
        keeps_lastOf_rests stack agreed jumpIf target skip (second :: rest) agrees hskip
    · simp

end

/-- Both ways to the end leave one slot more. -/
theorem ensures_condValue (condition : Cond) :
    Ensures (Rests stack agreed) (condValue condition) fun _ => Rests (1 :: stack) agreed := by
  refine ensures_fresh stack fun zero more within hzero => ensures_fresh (1 :: stack) fun join all within' hjoin =>
    .bind (keeps_cond_rests stack all false zero condition (within' _ _ hzero)) fun _ c u c' hc h => ?_
  obtain ⟨c₁, hrested, h⟩ : ∃ c₁ : Compiler, (c₁.builder.frame = none ∧ c₁.Rests stack all) ∧ (do
      if ← isJumpedTo zero then
        place zero
        Builder.constInt 0
      placeIfReachable join : Compiling Unit) c₁ = .ok u c' := by
    rw [isReachable_bind_eq_ok] at h
    cases hr : c.builder.isReachable with
    | true =>
      rw [hr] at h
      obtain ⟨_, c₁, hone, h⟩ := bind_eq_ok.1 h
      obtain ⟨_, B, hB, h⟩ := lift_bind_eq_ok.1 h
      refine ⟨_, ⟨?_, Builder.Rests.goto (ensures_constInt 1 _ _ _ hc hone) hjoin hB⟩, h⟩
      obtain ⟨_, _, D, -, -, -, rfl⟩ := pushBranch_eq_ok hB
      exact append_frame _ _ _
    | false =>
      rw [hr] at h
      exact ⟨c, ⟨Option.isSome_eq_false_iff.1 hr |> Option.isNone_iff_eq_none.1, hc⟩, h⟩
  obtain ⟨hended, hrested⟩ := hrested
  rw [isJumpedTo_bind_eq_ok] at h
  split at h
  · obtain ⟨_, B, hB, h⟩ := lift_bind_eq_ok.1 h
    obtain ⟨_, c₃, hzero', h⟩ := bind_eq_ok.1 h
    have placed : Rests stack all { c₁ with builder := B } := Builder.Rests.place hrested (within' _ _ hzero) hB
    exact keeps_placeIfReachable_rests hjoin _ _ _ (ensures_constInt 0 _ _ _ placed hzero') h
  · have dead : Rests (1 :: stack) all c₁ := Builder.Rests.dead hrested.toLined hended
    exact keeps_placeIfReachable_rests hjoin _ _ _ dead h

theorem ensures_push {insn : Insn} {popped pushed : List Nat} (taken : List Nat) (hscripted : insn.isScripted = true)
    (shifts : ∀ pool thisClass allocation, Shifts (insn.verify pool thisClass allocation) popped pushed)
    (hlength : taken.length = popped.length) :
    Ensures (Rests (taken ++ stack) agreed) (liftM (push insn) : Compiling Unit)
      fun _ => Rests (pushed ++ stack) agreed :=
  ensures_lift fun B _ _ h hpush => .push taken (Insn.ne_new hscripted) hpush (shifts B.pool) hlength h

theorem ensures_place (agrees : agreed target = some stack) :
    Ensures (Rests stack agreed) (liftM (place target) : Compiling Unit) fun _ => Rests stack agreed :=
  ensures_lift fun _ _ _ h hplace => h.place agrees hplace

theorem ensures_bind (name : String) (type : FieldType) (width : Nat) :
    Ensures (Rests (width :: stack) agreed) (Compiler.bind name type) fun _ => Rests stack agreed :=
  .bind (keeps_allocate_rests type) fun slot => .bind (ensures_store (SlotKind.ofFieldType type) slot width) fun _ =>
    keeps_declare_rests name slot type

theorem ensures_allOf (result : String) (array : Expr) (element : String) (test : Cond) :
    Ensures (Rests [] agreed) (allOf result array element test) fun _ => Rests [] agreed := by
  have loaded {stack : List Nat} {agreed : Agreement} (kind : SlotKind) (hwidth : kind.width = 1) (slot : UInt16) :
      Ensures (Rests stack agreed) (liftM (push (.load kind slot)) : Compiling Unit)
        fun _ => Rests (1 :: stack) agreed :=
    hwidth ▸ ensures_load kind slot
  refine .bind (ensures_value array) fun arrayType => ?_
  split
  · exact .throw _
  · next type _ =>
    refine .bind (keeps_allocate_rests _) fun arraySlot => .bind (ensures_store _ _ _) fun _ =>
      .bind (keeps_allocate_rests _) fun indexSlot => .bind (ensures_constInt _) fun _ =>
      .bind (ensures_store _ _ _) fun _ => .bind (keeps_allocate_rests _) fun resultSlot =>
      .bind (ensures_constInt _) fun _ => .bind (ensures_store _ _ _) fun _ =>
      .bind (keeps_allocate_rests _) fun elementSlot => .bind (keeps_declare_rests _ _ _) fun _ =>
      .bind (keeps_declare_rests _ _ _) fun _ => ensures_fresh [] fun head more within hhead =>
      ensures_fresh [] fun exit all within' hexit => ?_
    -- The head of the loop, the test with the result so far below it, and what is done with its value.
    exact .bind (ensures_place (within' _ _ hhead)) fun _ => .bind (loaded .int rfl _) fun _ =>
      .bind (loaded .reference rfl _) fun _ =>
      .bind (ensures_push [1] rfl (fun _ _ _ => Insn.shifts_arrayLength) rfl) fun _ =>
      .bind (ensures_branch [1, 1] (fun _ => Branch.shifts_ifInts _ _) rfl rfl hexit) fun _ =>
      .bind (loaded .reference rfl _) fun _ => .bind (loaded .int rfl _) fun _ =>
      .bind (ensures_push [1, 1] rfl (fun _ _ _ => Insn.shifts_arrayLoad _) rfl) fun _ =>
      .bind (ensures_store _ _ _) fun _ => .bind (loaded .int rfl _) fun _ => .bind (ensures_condValue test) fun _ =>
      .bind (ensures_push [1, 1] rfl (fun _ _ _ => Insn.shifts_bitwise _) rfl) fun _ =>
      .bind (ensures_store _ _ _) fun _ => .bind (ensures_lift fun _ _ _ h hpush => h.increment hpush) fun _ =>
      .bind (ensures_lift fun _ _ _ h hpush => h.goto (within' _ _ hhead) hpush) fun _ => ensures_place hexit

/-- Control does not arrive behind a return. -/
theorem ensures_leave (result : Option Expr) :
    Ensures (Rests stack agreed) (leave result) fun _ => Rests others agreed := by
  have left {stack : List Nat} : Ensures (Rests stack agreed) (liftM Builder.leave : Compiling Unit)
      fun _ => Rests others agreed := ensures_lift fun _ _ _ h hleave => h.leave hleave
  refine .bind (keeps_of_builder fun _ _ _ h => ?_) fun shape => ?_
  · cases h
    rfl
  · extract_lets expected expectedText
    split
    · split
      · exact .refuse
      · exact left
    · refine .bind (ensures_value _) fun found => ?_
      split
      · exact .refuse
      · exact left

theorem ensures_caught (catchType binding : Option String) :
    Ensures (Rests [1] agreed) (caught catchType binding) fun _ => Rests [] agreed := by
  cases binding with
  | none => exact ensures_lift fun _ _ _ h hpop => h.pop hpop
  | some name =>
    cases catchType with
    | none => exact ensures_bind name _ 1
    | some found =>
      refine .bind (?_ : Keeps (Rests [1] agreed) (classType found)) fun type => ensures_bind name type 1
      unfold classType
      split
      · exact .pure _
      · exact .throw _

/-- The handler is entered with what is caught, which is gone behind the first of its statements. -/
theorem keeps_handling_rests {after : Label} (agrees : agreed after = some []) (start : Label)
    (catchType binding : Option String) : Keeps (Rests [] agreed) (handling start after catchType binding) := by
  intro c u c' hc h
  obtain ⟨⟨label, frame⟩, B, hB, h⟩ := lift_bind_eq_ok.1 h
  obtain ⟨_, c₂, hgoto, h⟩ := bind_eq_ok.1 h
  obtain ⟨_, D, hD, hcaught⟩ := lift_bind_eq_ok.1 h
  obtain ⟨ended, hnone, known, hwidths⟩ := Builder.Rests.endTry hc hB
  have left : Rests [] agreed { c with builder := B } := ended
  have gone : c₂.Rests [] agreed := ensures_gotoIfReachable agrees _ _ _ left hgoto
  have hallocated : B.labels.allocated ≤ c₂.builder.labels.allocated :=
    (emits_gotoIfReachable after { c with builder := B } _ _ (List.forall_mem_singleton.2 (ended.known _ _ agrees))
      hgoto).run.allocated_le
  have entered : Rests frame.widths agreed { c₂ with builder := D } :=
    Builder.Rests.placeWith gone (Nat.lt_of_lt_of_le known hallocated) (fun ws ha => nomatch hnone.symm.trans ha) hD
  rw [hwidths] at entered
  exact ensures_caught catchType binding _ _ _ entered hcaught

mutual

theorem keeps_stmt_rests : ∀ (agreed : Agreement) (statement : Stmt),
    Ensures (Rests [] agreed) (stmt statement) fun _ => Rests [] agreed
  | agreed, .declare name descriptor initial => by
    rw [stmt]
    exact .bind (keeps_fieldType_rests descriptor) fun type => ensures_discardValue initial fun width _ =>
      ensures_bind name type width
  | agreed, .assign name assigned => by
    rw [stmt]
    exact .bind (keeps_lookUp_rests name) fun _ => ensures_discardValue assigned fun width _ => ensures_store _ _ width
  | agreed, .setArgument index assigned => by
    rw [stmt]
    exact .bind (keeps_argument_rests index) fun _ => ensures_discardValue assigned fun width _ =>
      ensures_store _ _ width
  | agreed, .eval expression => by
    rw [stmt]
    refine .bind (fun _ _ _ hc h => Rests.expr hc h) fun type => ?_
    cases type with
    | none => exact Keeps.pure _
    | some type => exact ensures_lift fun _ _ _ h hpop => h.pop hpop
  | agreed, .branch condition whenTrue whenFalse => by
    rw [stmt]
    refine ensures_fresh [] fun otherwise more within hotherwise =>
      .bind (keeps_cond_rests [] more false otherwise condition hotherwise) fun _ =>
      .bind (keeps_block_rests more whenTrue) fun _ => ?_
    split
    · exact keeps_placeIfReachable_rests hotherwise
    · exact ensures_fresh [] fun done all within' hdone => .bind (ensures_gotoIfReachable hdone) fun _ =>
        .bind (keeps_placeIfReachable_rests (within' _ _ hotherwise)) fun _ =>
        .bind (keeps_block_rests all whenFalse) fun _ => keeps_placeIfReachable_rests hdone
  | agreed, .loop condition body => by
    rw [stmt]
    exact ensures_fresh [] fun head more within hhead => ensures_fresh [] fun exit all within' hexit =>
      .bind (ensures_place (within' _ _ hhead)) fun _ =>
      .bind (keeps_cond_rests [] all false exit condition hexit) fun _ => .bind (keeps_block_rests all body) fun _ =>
      .bind (ensures_gotoIfReachable (within' _ _ hhead)) fun _ => keeps_placeIfReachable_rests hexit
  | agreed, .increment name amount => by
    rw [stmt]
    refine .bind (keeps_lookUp_rests name) fun found => ?_
    dsimp only
    split
    · exact .refuse
    · exact ensures_lift fun _ _ _ h hpush => h.increment hpush
  | agreed, .allOf result array element test => by
    rw [stmt]
    exact ensures_allOf result array element test
  | agreed, .tryCatch body catchType binding handler => by
    rw [stmt_tryCatch]
    split
    · exact .refuse
    · exact ensures_fresh [] fun after more within hafter =>
        .bind (ensures_lift fun _ _ _ h hbegin => h.beginTry hbegin) fun start =>
        .bind (keeps_block_rests more body) fun _ =>
        .bind (keeps_handling_rests hafter start catchType binding) fun _ =>
        .bind (keeps_block_rests more handler) fun _ => keeps_placeIfReachable_rests hafter
  | agreed, .leave result => by
    rw [stmt]
    exact ensures_leave result

theorem keeps_block_rests : ∀ (agreed : Agreement) (statements : List Stmt),
    Ensures (Rests [] agreed) (block statements) fun _ => Rests [] agreed
  | agreed, [] => by
    rw [block]
    exact Keeps.pure _
  | agreed, first :: rest => by
    rw [block]
    exact .bind (keeps_stmt_rests agreed first) fun _ => keeps_block_rests agreed rest

end

end Compiler

namespace PrologueGuard

variable {entry : EditFrame} {resume : Label}

/-- Guards go on to their label with an empty stack. -/
theorem ensures_chain (hentry : entry.widths = []) : ∀ (agreed : Agreement) (guards : List Guard),
    agreed resume = some [] → Ensures (Compiler.Rests [] agreed) (chain entry resume guards) fun _ =>
      Compiler.Rests [] agreed
  | agreed, [], _ => Keeps.pure _
  | agreed, [guard], agrees => .bind (keeps_cond_rests [] agreed false resume guard.condition agrees) fun _ =>
      .bind (keeps_block_rests agreed guard.tail) fun _ => ensures_gotoIfReachable agrees
  | agreed, guard :: second :: rest, agrees => ensures_fresh [] fun next more within hnext =>
      .bind (keeps_cond_rests [] more false next guard.condition hnext) fun _ =>
      .bind (keeps_block_rests more guard.tail) fun _ => .bind (ensures_gotoIfReachable (within _ _ agrees)) fun _ =>
      .bind (Keeps.bind .get fun _ => .pure _) fun jumped => by
        have followed : Ensures (Compiler.Rests [] more) (do
            Builder.placeWith next entry
            chain entry resume (second :: rest) : Compiling Unit) fun _ => Compiler.Rests [] more :=
          .bind (ensures_lift fun B _ C h hplace => hentry ▸ h.placeWith (h.known _ _ hnext)
            (fun ws hw => hentry.trans (Option.some.inj (hnext.symm.trans hw))) hplace) fun _ =>
            ensures_chain hentry more (second :: rest) (within _ _ agrees)
        split
        · exact followed
        · exact Keeps.pure _

end PrologueGuard

end ClassWeave
