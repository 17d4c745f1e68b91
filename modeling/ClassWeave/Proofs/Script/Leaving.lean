import ClassWeave.Patch.Strategy
import ClassWeave.Proofs.Code.Building
import ClassWeave.Proofs.Script.Composing

/-!
What compiling leaves of the pool. Code reaches the pool only by interning, so whatever interning keeps of
it is kept by compiling, and by every strategy, also where they refuse.
-/

namespace ClassWeave

variable {holds : ConstantPool → Prop}

namespace Builder

/-- The builder has a pool of the kind. -/
def Pooled (holds : ConstantPool → Prop) (B : Builder) : Prop := holds B.pool

variable {B : Builder} {label : Label}

theorem Pooled.congr {C : Builder} (h : B.Pooled holds) (hp : C.pool = B.pool) : C.Pooled holds := by
  unfold Pooled
  rw [hp]
  exact h

theorem Pooled.append (h : B.Pooled holds) (node : Node) (pending : Option Label) :
    (B.append node pending).Pooled holds := h.congr (append_pool B node pending)

theorem Pooled.require (h : B.Pooled holds) (label : Label) : (B.require label).Pooled holds :=
  h.congr (require_pool B label)

theorem leaves_interning {α : Type} {step : Interning α} (h : Leaves holds step) :
    Leaves (Pooled holds) (interning step) := by
  intro B hB
  have hpool : holds (stateAfter step B.pool) := h B.pool hB
  unfold Pooled stateAfter interning at *
  cases hstep : step B.pool <;> simpa only [hstep] using hpool

theorem leaves_fresh : Leaves (Pooled holds) fresh := fun _ h => h

theorem leaves_jumpTo (target : Label) (frame : EditFrame) :
    Leaves (Pooled holds) (jumpTo target frame) := by
  refine .bind (.modify fun B h => h.require target) fun _ => .get fun B h => ?_
  split
  · exact .ite .refuse (.set h)
  · split
    · exact .ite (.pure _) (.throw _)
    · split
      · exact .set h
      · exact .throw _

theorem leaves_place (label : Label) : Leaves (Pooled holds) (place label) := by
  refine .get fun B h => .ite .refuse ?_
  have placed (frame : EditFrame) : Pooled holds
      ({ (if B.isReachable then B else B.require label).setFrame label frame with frame := some frame }.append
        (.label label) (some label)) := by
    apply Pooled.append
    show holds (if B.isReachable then B else B.require label).pool
    split
    · exact h
    · exact h.require label
  dsimp only
  split
  · exact .bind (.pure _) fun frame => .set (placed frame)
  · split
    · exact .bind (.pure _) fun frame => .set (placed frame)
    · exact .bind (.throw _) fun frame => .set (placed frame)
  · exact .bind (.pure _) fun frame => .set (placed frame)
  · exact .bind (.throw _) fun frame => .set (placed frame)

theorem leaves_placeKnown (label : Label) : Leaves (Pooled holds) (placeKnown label) :=
  .get fun _ h => .ite .refuse (.set (h.append _ _))

theorem leaves_placeWith (label : Label) (frame : EditFrame) :
    Leaves (Pooled holds) (placeWith label frame) := by
  refine .get fun B h => .bind (.forIn (fun arriving _ => ?_) _ _) fun _ => ?_
  · exact .ite (.pure _) (.bind (.throw _) fun _ => .pure _)
  · have hframed : Pooled holds { (B.require label).setFrame label frame with frame := some frame } :=
      h.require label
    exact .bind (.set hframed) fun _ => leaves_placeKnown label

theorem leaves_allocation (insn : Insn) : Leaves (Pooled holds) (allocation insn) := by
  refine .get fun B h => ?_
  split
  · exact .bind leaves_fresh fun _ => .bind (leaves_place _) fun _ => .pure _
  · exact .pure _

theorem leaves_push (insn : Insn) : Leaves (Pooled holds) (push insn) := by
  refine .bind (leaves_allocation insn) fun allocated => .get fun B h => ?_
  split
  · exact .throw _
  · split
    · exact .throw _
    · next frame _ =>
      have hframed : Pooled holds { B with frame := some frame } := h
      exact .set (hframed.append _ _)

theorem leaves_pushBranch (branch : Branch Label) : Leaves (Pooled holds) (pushBranch branch) := by
  refine .get fun B h => ?_
  split
  · exact .throw _
  · refine .bind (.set h) fun _ => ?_
    split
    · exact .throw _
    · next frame _ =>
      have jumped : Leaves (Pooled holds) (branch.jumpTargets.forM (jumpTo · frame)) :=
        .forM (fun target => leaves_jumpTo target frame) _
      refine .bind jumped fun _ => .modify fun C hC => ?_
      have hframed : Pooled holds { C with frame := if branch.fallsThrough then some frame else none } := hC
      exact hframed.append _ _

theorem leaves_beginTry : Leaves (Pooled holds) beginTry := by
  refine .get fun B h => ?_
  split
  · exact .throw _
  · exact .bind leaves_fresh fun _ => .bind (leaves_place _) fun _ => .bind (.modify fun _ hC => hC) fun _ =>
      .pure _

theorem leaves_closeRegion (start stop : Label) (catchType : Option String) :
    Leaves (Pooled holds) (closeRegion start stop catchType) := by
  refine .get fun B h => ?_
  split
  · exact .throw _
  · have added (handler : Handler) : Leaves (Pooled holds) (addHandler handler) :=
      .modify fun C hC => hC.require handler.handler
    exact .bind (.modify fun _ hC => hC) fun _ => .bind leaves_fresh fun _ => .bind (added _) fun _ =>
      .bind (.modify fun _ hC => hC) fun _ => .pure _

theorem leaves_endTry (start : Label) (catchType : Option String) :
    Leaves (Pooled holds) (endTry start catchType) :=
  .bind leaves_fresh fun stop => .get fun _ _ => .ite
    (.bind (leaves_place stop) fun _ => leaves_closeRegion start stop catchType)
    (.bind (leaves_placeKnown stop) fun _ => leaves_closeRegion start stop catchType)

theorem leaves_pop : Leaves (Pooled holds) pop := by
  refine .get fun _ _ => ?_
  split
  · exact leaves_push _
  · exact leaves_push _

theorem leaves_leave : Leaves (Pooled holds) leave := .get fun _ _ => leaves_pushBranch _

theorem composes_leaves (interns : KeptByInterning holds) : Composes fun _ => Leaves (Pooled holds) where
  pure := .pure
  throw := .throw
  bind := .bind
  intern constant hdecoded := leaves_interning (interns constant hdecoded)
  push insn _ := leaves_push insn

end Builder

namespace Compiler

open Builder

variable {α : Type}

/-- The compiler has a pool of the kind. -/
def Pooled (holds : ConstantPool → Prop) (c : Compiler) : Prop := holds c.builder.pool

theorem leaves_lift {step : Building α} (h : Leaves (Builder.Pooled holds) step) :
    Leaves (Pooled holds) (liftM step : Compiling α) := by
  intro c hc
  have hbuilder : (stateAfter step c.builder).Pooled holds := h c.builder hc
  change Pooled holds (stateAfter (lift step) c)
  unfold Pooled Builder.Pooled stateAfter lift at *
  cases hstep : step c.builder <;> simpa only [hstep] using hbuilder

theorem composesOpen_leaves (interns : KeptByInterning holds) :
    ComposesOpen (fun _ _ => True) (fun _ => Leaves (Builder.Pooled holds)) fun _ => Leaves (Pooled holds) where
  building := Builder.composes_leaves interns
  lift := leaves_lift
  pure := .pure
  throw := .throw
  bind := .bind
  shape := .get fun _ _ => .pure _
  argument index _ _ hn := by
    refine .bind (.bind (.get fun _ _ => .pure _) fun shape => ?_) fun v => hn v.1 v.2 trivial
    split
    · exact .pure _
    · exact .throw _
  lookUp name _ _ hn := by
    refine .bind (.get fun _ _ => ?_) fun v => hn v.1 v.2 trivial
    split
    · exact .pure _
    · exact .throw _
  store slot type _ := leaves_push _
  fresh := leaves_fresh
  place := leaves_place
  pushBranch := leaves_pushBranch
  beginTry := leaves_beginTry
  pop := leaves_pop
  returning := leaves_leave
  isReachable := .get fun _ _ => .pure _
  isJumpedTo label := .get fun _ _ => .pure _
  allocate type _ _ hn := .bind (.get fun _ h => .ite .refuse (.bind (.set h) fun _ => .pure _))
    fun slot => hn slot trivial
  declare name slot type _ := .modify fun _ h => h

theorem composes_leaves (interns : KeptByInterning holds) :
    Composes (fun _ _ => True) (fun _ => Leaves (Builder.Pooled holds)) fun _ => Leaves (Pooled holds) where
  toComposesOpen := composesOpen_leaves interns
  handling := (composesOpen_leaves interns).handling leaves_endTry leaves_placeWith

end Compiler

end ClassWeave
