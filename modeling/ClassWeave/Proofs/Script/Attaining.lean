import ClassWeave.Proofs.Code.Flowing
import ClassWeave.Proofs.Code.Leading
import ClassWeave.Proofs.Script.Climbing

/-!
The bounds of a builder are no larger than its code needs. The bound on the locals ends with the parameters or with a
local that the code stores to, and the bound on the stack is its height at some point that control gets to.
-/

namespace ClassWeave

open EditFrame

namespace Builder

variable {B C D : Builder} {entry frame : EditFrame} {base : Nat}

/-- A bound that is raised is raised to the frame that the builder has then. -/
structure Raises (B C : Builder) : Prop where
  stack_le : B.maxStack ≤ C.maxStack
  stack : C.maxStack = B.maxStack ∨ ∃ frame, C.frame = some frame ∧ C.maxStack = UInt16.ofNat frame.stackSlots
  locals : C.maxLocals = B.maxLocals ∨ ∃ frame, C.frame = some frame ∧ C.maxLocals = UInt16.ofNat frame.locals.length

namespace Raises

theorem of_eq (stack : C.maxStack = B.maxStack) (locals : C.maxLocals = B.maxLocals) : Raises B C :=
  ⟨stack ▸ UInt16.le_refl _, .inl stack, .inl locals⟩

/-- A node at the end raises the bounds to the frame behind it, or leaves them. -/
theorem append (stack : D.maxStack = B.maxStack) (locals : D.maxLocals = B.maxLocals) (node : Node)
    (pending : Option Label) : Raises B (D.append node pending) := by
  refine ⟨stack ▸ (maxStack_append D node pending).1, ?_, ?_⟩
  · rw [append_frame, ← stack]
    unfold Builder.append observe
    cases hf : D.frame with
    | none => exact .inl rfl
    | some frame =>
      dsimp only
      split
      · exact .inr ⟨frame, rfl, rfl⟩
      · exact .inl rfl
  · rw [append_frame, ← locals]
    unfold Builder.append observe
    cases hf : D.frame with
    | none => exact .inl rfl
    | some frame =>
      dsimp only
      split
      · exact .inr ⟨frame, rfl, rfl⟩
      · exact .inl rfl

theorem placed (B : Builder) (label : Label) (frame : EditFrame) : Raises B (B.placed label frame) := by
  refine append ?_ ?_ _ _
  · unfold setFrame
    split <;> simp
  · unfold setFrame
    split <;> simp

end Raises

theorem Jumps.bounds_eq {targets : List Label} (h : Jumps frame targets B C) :
    C.maxStack = B.maxStack ∧ C.maxLocals = B.maxLocals := by
  induction h with
  | nil => exact ⟨rfl, rfl⟩
  | cons first _ ih =>
    obtain ⟨stack, locals⟩ := ih
    rw [stack, locals]
    cases first <;> simp [setFrame]

theorem Step.raises (h : Step B C) : Raises B C := by
  cases h with
  | intern | fresh => exact .of_eq rfl rfl
  | @insn insn before after =>
    have stack : { B with frame := some after }.maxStack = B.maxStack := rfl
    exact .append stack rfl _ _
  | stop =>
    have stack : { B with labels := B.labels.fresh.2 }.maxStack = B.maxStack := rfl
    exact .append stack rfl _ _
  | @branch branch before after C _ _ _ jumps =>
    have stack : { C with frame := if branch.fallsThrough then some after else none }.maxStack = B.maxStack :=
      jumps.bounds_eq.1
    exact .append stack jumps.bounds_eq.2 _ _
  | place => exact .placed _ _ _
  | enter =>
    have placed := Raises.placed { B with labels := B.labels.fresh.2 } B.labels.fresh.1
    exact ⟨(placed _).stack_le, (placed _).stack, (placed _).locals⟩
  | leave => exact .of_eq (by unfold left setFrame; simp) (by unfold left setFrame; simp)

/-- Labels keep their heights as a builder goes on. -/
theorem Accounts.levels (h : B.Accounts entry) (hs : Step B C) : Levels B C := by
  cases hs with
  | intern | fresh => exact .of_eq rfl
  | insn | stop => exact .of_eq (append_labelFrames _ _ _)
  | @branch branch before after C reachable typed _ jumps =>
    have noted : { B with frame := none }.Noted entry := ⟨h.caught, h.entered, h.framed, h.regions, h.accesses⟩
    obtain ⟨-, -, -, levels, -⟩ := noted.jumps (h.sits_branch reachable typed) jumps
    refine ⟨fun label height hl => ?_, fun label hp hl => ?_⟩
    · rw [level_noted]
      exact levels.kept label height hl
    · rw [level_noted]
      exact levels.unset label hp hl
  | @place label frame _ ahead arrives =>
    exact (Levels.note (find?_placed B label frame) ahead (h.arrival arrives).2.1).1
  | @enter current frame _ ahead arrives =>
    obtain ⟨levels, -⟩ := @Levels.note { B with labels := B.labels.fresh.2 } _ _ _
      (find?_placed _ B.labels.fresh.1 frame) ahead (h.arrival arrives).2.1
    exact ⟨levels.kept, levels.unset⟩
  | @leave start stop catchType known outer =>
    refine (Levels.note (find?_left B start stop catchType known outer) h.unused.1 fun k hk => ?_).1
    rw [h.unused.2] at hk
    cases hk

theorem Bounded.step {slack : Nat} (h : B.Bounded base slack) (hs : Step B C)
    (scripted : ∀ node ∈ C.nodes, node.Scripted) : C.Bounded base (slack + 1) := by
  cases hs with
  | intern => exact (h.withPool _).mono (Nat.le_succ _)
  | fresh => exact (h.withLabels _).mono (Nat.le_succ _)
  | @insn insn before after reachable typed =>
    have hinsn : (Node.insn insn).Scripted := scripted _ (append_nodes _ _ _ ▸ List.mem_cons_self)
    have hscripted : insn.isScripted = true := hinsn.elim Insn.isScripted_of_isOperation And.left
    exact (h.mono (Nat.le_add_right _ 2)).insn hscripted reachable typed
  | branch reachable typed _ jumps => exact (h.branch reachable typed jumps).mono (Nat.le_succ _)
  | place _ _ arrives => exact (h.placed arrives).mono (Nat.le_succ _)
  | stop unreachable => exact (h.stopped unreachable).mono (Nat.le_succ _)
  | enter reachable _ arrives => exact (h.enter reachable arrives).mono (Nat.le_succ _)
  | leave _ _ inside => exact (h.leave inside).1

/-- The bounds are reached: the stack has the height of its bound at some point that control gets to, and the bound on
the locals ends with those of the start or with one that the code accesses. -/
structure Attains (entry : EditFrame) (B : Builder) : Prop where
  stack : ∃ nodes height, nodes <:+ B.nodes ∧ Node.Leads B.handlers nodes true ∧
    Climbs B.pool B.level entry.stackSlots B.maxStack nodes (some height) ∧ B.maxStack = UInt16.ofNat height
  locals : B.maxLocals.toNat ≤ Node.reach entry.locals.length B.nodes

namespace Attains

theorem start (pool : ConstantPool) (labels : LabelSupply) (shape : MethodShape) (entry : EditFrame) :
    (start pool labels shape entry).Attains entry where
  stack := ⟨[], _, List.suffix_refl _, .start, .start (UInt16.le_refl _), rfl⟩
  locals := Nat.mod_le _ _

theorem step {slack : Nat} (h : B.Attains entry) (hs : Step B C) (accounts : B.Accounts entry)
    (later : C.Accounts entry) (live : C.Live) (bounded : C.Bounded entry.locals.length slack) : C.Attains entry := by
  have raises := hs.raises
  refine ⟨?_, ?_⟩
  · rcases raises.stack with hsame | ⟨frame, hf, hraised⟩
    · obtain ⟨nodes, height, hsuffix, leads, climbs, hmax⟩ := h.stack
      have levels := accounts.levels hs
      refine ⟨nodes, height, hsuffix.trans hs.nodes_suffix, leads.mono hs.handlers_suffix.subset, ?_, hsame.trans hmax⟩
      exact climbs.mono hs.pool_le raises.stack_le levels.kept fun l hm =>
        levels.unset l ((isPlaced_iff B l).2 (hsuffix.subset hm))
    · have leads := live.leads
      have climbs := later.climbs
      rw [isReachable, hf] at leads
      rw [hf] at climbs
      exact ⟨C.nodes, frame.stackSlots, List.suffix_refl _, leads, climbs, hraised⟩
  · rcases raises.locals with hsame | ⟨frame, hf, hraised⟩
    · rw [hsame]
      exact Nat.le_trans h.locals (Node.reach_le_of_suffix hs.nodes_suffix)
    · rw [hraised]
      exact Nat.le_trans (Nat.mod_le _ _) (bounded.current frame hf).locals

/-- As no step raises a bound above what the code needs then, the bounds are reached after any number of steps. -/
theorem run {slack : Nat} (h : B.Attains entry) (hr : Run B C) (accounts : B.Accounts entry) (live : B.Live)
    (bounded : B.Bounded entry.locals.length slack) (scripted : ∀ node ∈ C.nodes, node.Scripted) : C.Attains entry := by
  -- The frames along the way are bounded as well, with more handlers each time.
  have along : ∃ slack, C.Bounded entry.locals.length slack ∧ C.Attains entry := by
    induction hr with
    | refl => exact ⟨slack, bounded, h⟩
    | tail run step ih =>
      have earlier := fun node hm => scripted node (step.nodes_suffix.subset hm)
      obtain ⟨slack, bounded, h⟩ := ih earlier
      have before := accounts.run run earlier
      have further := bounded.step step scripted
      exact ⟨slack + 1, further, h.step step before (before.step step scripted) ((live.run run).step step) further⟩
  obtain ⟨_, _, h⟩ := along
  exact h

end Attains

end Builder

end ClassWeave
