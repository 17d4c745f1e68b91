import ClassWeave.Proofs.Script.Climbing
import ClassWeave.Proofs.Script.Guarding

/-!
The bounds of compiled code. Scripts are compiled to instructions that leave values that can be used, and they
store in the slots of their variables, all of which are within reach of the bound on the locals. So the builder of
a script, of guards and of a handler has tracked all that its code does.
-/

namespace ClassWeave

open Compiler Builder

namespace Builder

variable {B C : Builder} {label : Label} {frame : EditFrame}

/-- The parameters have slots that can be told, and the code has instructions of scripts only. -/
structure Scripted (B : Builder) : Prop where
  few : B.shape.descriptor.parameterSlots (!B.shape.isStatic) ≤ 65535
  nodes : ∀ node ∈ B.nodes, node.Scripted

namespace Scripted

theorem congr (h : B.Scripted) (shape : C.shape = B.shape) (nodes : C.nodes = B.nodes) : C.Scripted :=
  ⟨shape ▸ h.few, nodes ▸ h.nodes⟩

theorem cons (h : B.Scripted) (node : Node) (hnode : node.Scripted) (shape : C.shape = B.shape)
    (nodes : C.nodes = node :: B.nodes) : C.Scripted :=
  ⟨shape ▸ h.few, nodes ▸ List.forall_mem_cons.2 ⟨hnode, h.nodes⟩⟩

theorem stops (h : B.Scripted) (hs : Stops B C) : C.Scripted := by
  refine h.cons (.label B.labels.fresh.1) trivial ?_ hs.nodes_eq
  cases hs with
  | reached => exact placed_shape _ _ _
  | unreached => exact append_shape _ _ _

theorem endTry {start : Label} {catchType : Option String} (h : B.Scripted)
    (hend : endTry start catchType B = .ok (label, frame) C) : C.Scripted := by
  obtain ⟨D, known, outer, stops, -, -, -, rfl⟩ := endTry_eq_ok hend
  exact (h.stops stops).congr (left_shape _ _ _ _ _ _) (left_nodes _ _ _ _ _ _)

theorem placeWith {u : Unit} (h : B.Scripted) (hplace : placeWith label frame B = .ok u C) : C.Scripted := by
  obtain ⟨-, -, rfl⟩ := placeWith_eq_ok hplace
  refine h.cons (.label label) trivial ?_ ?_
  · rw [append_shape]
    exact require_shape B label
  · rw [append_nodes]
    exact congrArg _ (require_nodes B label)

end Scripted

section Steps

theorem keeps_push_scripted {insn : Insn} (scripted : (Node.insn insn).Scripted) :
    Keeps Scripted (push insn) := fun B u C h hpush => by
  have hscripted : insn.isScripted = true := scripted.elim Insn.isScripted_of_isOperation And.left
  obtain ⟨before, after, -, -, rfl⟩ := push_eq_ok (Insn.ne_new hscripted) hpush
  exact h.cons _ scripted (append_shape _ _ _) (append_nodes _ _ _)

theorem keeps_pushBranch_scripted (branch : Branch Label) : Keeps Scripted (pushBranch branch) :=
    fun B u C h hpush => by
  obtain ⟨before, after, D, -, -, jumps, rfl⟩ := pushBranch_eq_ok hpush
  refine h.cons (.branch branch) trivial ?_ ?_
  · rw [append_shape, jumps.shape_eq]
  · rw [append_nodes, jumps.nodes_eq]

theorem keeps_fresh_scripted : Keeps Scripted fresh := fun B _ _ h hfresh => by
  obtain ⟨-, rfl⟩ := fresh_eq_ok.1 hfresh
  exact h.congr rfl rfl

theorem keeps_place_scripted (label : Label) : Keeps Scripted (place label) := fun B u C h hplace => by
  obtain ⟨-, frame, -, rfl⟩ := place_eq_ok hplace
  exact h.cons (.label label) trivial (placed_shape _ _ _) (placed_nodes _ _ _)

theorem keeps_beginTry_scripted : Keeps Scripted beginTry := fun B label C h hbegin => by
  obtain ⟨rfl, current, frame, -, -, -, rfl⟩ := beginTry_eq_ok hbegin
  refine h.cons (.label B.labels.fresh.1) trivial ?_ ?_
  · rw [opened_shape, placed_shape]
  · rw [opened_nodes, placed_nodes]

theorem keeps_pop_scripted : Keeps Scripted Builder.pop := .bind .get fun B => by
  split
  · exact keeps_push_scripted (.inl (by split <;> rfl))
  · exact keeps_push_scripted (.inl rfl)

theorem composes_scripted : Composes fun _ => Keeps (ε := ClassError) Scripted where
  pure := .pure
  throw := .throw
  bind := .bind
  intern _ _ B a C h hstep := by
    obtain ⟨pool, -, rfl⟩ := interning_eq_ok.1 hstep
    exact h.congr rfl rfl
  push _ operates := keeps_push_scripted (.inl operates)

end Steps

end Builder

namespace Compiler

/-- The slots of a type from one on can be told. -/
def Reaches (slot : UInt16) (type : FieldType) : Prop := slot.toNat + type.width ≤ 65535

/-- The code has instructions of scripts only, and the variables have slots that can be told. -/
structure Scripted (c : Compiler) : Prop where
  builder : c.builder.Scripted
  scope : ∀ v ∈ c.scope, Reaches v.2.1 v.2.2

theorem composes_scripted : Composes Reaches (fun _ => Keeps (ε := ClassError) Builder.Scripted)
    fun _ => Keeps (ε := PatchError) Scripted := by
  have lift {α : Type} {step : Building α} (h : Keeps Builder.Scripted step) :
      Keeps Scripted (liftM step : Compiling α) := fun c a c' hc hstep => by
    obtain ⟨B, hB, rfl⟩ := lift_eq_ok.1 hstep
    exact ⟨h _ _ _ hc.builder hB, hc.scope⟩
  have hopen : ComposesOpen Reaches (fun _ => Keeps (ε := ClassError) Builder.Scripted)
      fun _ => Keeps (ε := PatchError) Scripted :=
    { building := Builder.composes_scripted
      lift := lift
      pure := .pure
      throw := .throw
      bind := .bind
      shape := .bind .get fun _ => .pure _
      argument := fun index _ _ hn => .andThen (fun v => Reaches v.1 v.2) (fun c v c' hc h => by
        obtain ⟨hfound, rfl⟩ := Host.argument_eq_ok h
        have := MethodShape.parameterSlot?_le hc.builder.few hfound
        exact ⟨hc, by have := c'.builder.shape.parameterSlots.toNat_lt; unfold Reaches; omega⟩)
        fun v hv => hn v.1 v.2 hv
      lookUp := fun name _ _ hn => .andThen (fun v => Reaches v.1 v.2) (fun c v c' hc h => by
        obtain ⟨rfl, number, -, hslot⟩ := lookUp_eq_ok h
        obtain ⟨entry, hm, rfl⟩ := List.mem_map.1 (List.mem_of_getElem? hslot)
        exact ⟨hc, hc.scope entry (List.mem_reverse.1 hm)⟩)
        fun v hv => hn v.1 v.2 hv
      store := fun slot type fits => keeps_push_scripted (.inr ⟨rfl, by
        rw [Insn.slots_of_access rfl]
        exact (Host.width_kindOf type).symm ▸ fits⟩)
      fresh := keeps_fresh_scripted
      place := keeps_place_scripted
      pushBranch := keeps_pushBranch_scripted
      beginTry := keeps_beginTry_scripted
      pop := keeps_pop_scripted
      returning := .bind .get fun _ => keeps_pushBranch_scripted _
      isReachable := .bind .get fun _ => .pure _
      isJumpedTo := fun _ => .bind .get fun _ => .pure _
      allocate := fun type _ _ hn => .andThen (Reaches · type) (fun c slot c' hc h => by
        obtain ⟨rfl, next, hnext, rfl⟩ := allocate_eq_ok h
        exact ⟨⟨hc.builder, hc.scope⟩, by have := next.toNat_lt; unfold Reaches; omega⟩) fun slot fits => hn slot fits
      declare := fun name slot type fits c u c' hc h => by
        cases h
        exact ⟨hc.builder, List.forall_mem_cons.2 ⟨fits, hc.scope⟩⟩ }
  exact ⟨hopen, hopen.handling (fun _ _ _ _ _ h hend => h.endTry hend) fun _ _ _ _ _ h hplace => h.placeWith hplace⟩

theorem Scripted.start (pool : ConstantPool) (labels : LabelSupply) {shape : MethodShape} (entry : EditFrame)
    (few : shape.descriptor.parameterSlots (!shape.isStatic) ≤ 65535) :
    (Compiler.start (.start pool labels shape entry) 0).Scripted := ⟨⟨few, nofun⟩, nofun⟩

end Compiler

namespace PrologueGuard

variable {entry : EditFrame} {resume : Label}

theorem keeps_chain_scripted (entry : EditFrame) (resume : Label) :
    ∀ guards : List Guard, Keeps Compiler.Scripted (chain entry resume guards)
  | [] => .pure _
  | [guard] => .bind (composes_scripted.cond false resume guard.condition) fun _ =>
      .bind (composes_scripted.block guard.tail) fun _ => composes_scripted.gotoIfReachable resume
  | guard :: second :: rest => composes_scripted.labelled fun next =>
      .bind (composes_scripted.cond false next guard.condition) fun _ =>
      .bind (composes_scripted.block guard.tail) fun _ => .bind (composes_scripted.gotoIfReachable resume) fun _ =>
      .bind (composes_scripted.isJumpedTo next) fun _ => .ite
        (.bind (composes_scripted.lift fun _ _ _ h hplace => h.placeWith hplace) fun _ =>
          keeps_chain_scripted entry resume (second :: rest)) (.pure _)

/-- Each guard starts with the frame of the method. -/
theorem accounts_chain (usable : entry.Usable) : ∀ {guards : List Guard} {c c' : Compiler} {u : Unit},
    resume.number < c.builder.labels.allocated → c.Scripted → c.builder.Accounts entry →
      chain entry resume guards c = .ok u c' → c'.builder.Accounts entry
  | [], c, c', u, known, scripted, accounts, h => by
    obtain ⟨-, rfl⟩ := pure_eq_ok.1 h
    exact accounts
  | [guard], c, c', u, known, scripted, accounts, h => by
    have hemits : Emits [resume] (chain entry resume [guard]) :=
      .bind (emits_cond false resume guard.condition) fun _ =>
        .bind (.mono (List.nil_subset _) (emits_block guard.tail)) fun _ => emits_gotoIfReachable resume
    have hend := keeps_chain_scripted entry resume [guard] _ _ _ scripted h
    exact accounts.run (hemits c u c' (List.forall_mem_singleton.2 known) h).run hend.builder.nodes
  | guard :: second :: rest, c, c', u, known, scripted, accounts, h => by
    obtain ⟨next, c₁, hnext, h⟩ := bind_eq_ok.1 h
    obtain ⟨hlt, hfresh⟩ := fresh_eq_ok [next, resume] hnext
    obtain ⟨_, c₂, hcond, h⟩ := bind_eq_ok.1 h
    obtain ⟨_, c₃, hblock, h⟩ := bind_eq_ok.1 h
    obtain ⟨_, c₄, hgoto, h⟩ := bind_eq_ok.1 h
    have h₂ := (emits_cond false next guard.condition).extends_of_one [next, resume] hlt List.mem_cons_self hcond
    have h₃ := (emits_block guard.tail).extends_of_nil [next, resume] hblock
    have known₃ := h₃.allocated_lt (h₂.allocated_lt (hfresh.allocated_lt known))
    have h₄ := (emits_gotoIfReachable resume).extends_of_one [next, resume] known₃
      (List.mem_cons_of_mem _ List.mem_cons_self) hgoto
    have scripted₁ := composes_scripted.lift composes_scripted.fresh _ _ _ scripted hnext
    have scripted₂ := composes_scripted.cond _ _ _ _ _ _ scripted₁ hcond
    have scripted₃ := composes_scripted.block _ _ _ _ scripted₂ hblock
    have scripted₄ := composes_scripted.gotoIfReachable _ _ _ _ scripted₃ hgoto
    have accounts₄ := accounts.run ((hfresh.trans h₂).trans (h₃.trans h₄)).run scripted₄.builder.nodes
    rw [isJumpedTo_bind_eq_ok] at h
    split at h
    · obtain ⟨_, B, hB, h⟩ := lift_bind_eq_ok.1 h
      have hnext := h₄.allocated_lt (h₃.allocated_lt (h₂.allocated_lt hlt))
      have accounts₅ := accounts₄.placeWith hnext ⟨accounts₄.entered, usable⟩ hB
      obtain ⟨grows, -, -⟩ := grows_placeWith [resume] hnext hB
      have scripted₅ : Compiler.Scripted { c₄ with builder := B } := ⟨scripted₄.builder.placeWith hB, scripted₄.scope⟩
      exact accounts_chain usable (Nat.lt_of_lt_of_le (h₄.allocated_lt known₃) grows.labels) scripted₅ accounts₅ h
    · obtain ⟨-, rfl⟩ := pure_eq_ok.1 h
      exact accounts₄

end PrologueGuard

namespace WrapGuard

theorem keeps_log_scripted (log : LogCall) : Keeps Compiler.Scripted log.push := by
  have called : Keeps Compiler.Scripted (Builder.invoke .static log.owner log.name log.descriptor : Compiling Unit) :=
    composes_scripted.lift (composes_scripted.building.invoke _ _ _ _)
  unfold LogCall.push
  split
  · exact .bind (.throw _) fun _ => called
  · exact .bind (composes_scripted.lift composes_scripted.pop) fun _ => called
  · exact called
  · exact .bind (.throw _) fun _ => called

theorem keeps_fallback_scripted (fallback : Fallback) (returnType : Option FieldType) :
    Keeps Builder.Scripted (fallback.push returnType) := by
  have composes := Builder.composes_scripted
  unfold Fallback.push
  split
  · exact .pure _
  · exact composes.zero _
  · exact composes.constInt _
  · exact composes.constInt _
  · exact composes.constLong _
  · exact composes.constString _

/-- The handler is entered with what it catches, and leaves the method. -/
theorem accounts_tail {guard : WrapGuard} {labels labels' : LabelSupply} {shape : MethodShape}
    {pool pool' : ConstantPool} {label : Label} {fragment : Fragment}
    (few : shape.descriptor.parameterSlots (!shape.isStatic) ≤ 65535)
    (h : guard.tail labels shape pool = .ok (label, fragment, labels') pool') :
    ∃ B : Builder, B.Accounts ⟨[], [caughtType guard.catchType]⟩ ∧ B.frame = none ∧ pool' = B.pool ∧
      fragment = B.finish := by
  obtain ⟨⟨_, compiler⟩, _, hbuild, h⟩ := bind_eq_ok.1 h
  obtain ⟨he, rfl⟩ := pure_eq_ok.1 h
  cases he
  obtain ⟨hstep, rfl⟩ := Replacement.build_eq_ok hbuild
  obtain ⟨first, c₁, hfirst, hstep⟩ := bind_eq_ok.1 hstep
  obtain ⟨_, B, hB, hstep⟩ := lift_bind_eq_ok.1 hstep
  obtain ⟨known, hfresh⟩ := fresh_eq_ok [] hfirst
  have usable : EditFrame.Usable ⟨[], [caughtType guard.catchType]⟩ := usable_caught guard.catchType
  have started : (start pool labels shape ⟨[], [caughtType guard.catchType]⟩).Accounts
      ⟨[], [caughtType guard.catchType]⟩ :=
    .start pool labels shape (Nat.zero_le _) (by simp [EditFrame.promises]) usable
  have scripted₁ := composes_scripted.lift composes_scripted.fresh _ _ _
    (Scripted.start pool labels ⟨[], [caughtType guard.catchType]⟩ few) hfirst
  have accounts₁ := started.run hfresh.run scripted₁.builder.nodes
  have accounts : B.Accounts ⟨[], [caughtType guard.catchType]⟩ :=
    accounts₁.placeWith known ⟨accounts₁.entered, usable⟩ hB
  have scripted : Compiler.Scripted { c₁ with builder := B } := ⟨scripted₁.builder.placeWith hB, scripted₁.scope⟩
  -- Whatever is logged, the value that the method falls back to and the return come behind it.
  have ending : ∀ c₃, c₃.Scripted → Run B c₃.builder → (do
      guard.fallback.push (← Compiler.shape).returnType
      Builder.leave
      return first : Compiling Label) c₃ = .ok label compiler →
      compiler.builder.Accounts ⟨[], [caughtType guard.catchType]⟩ ∧ compiler.builder.frame = none := by
    intro c₃ scripted₃ run h
    obtain ⟨shape, c₄, hshape, h⟩ := bind_eq_ok.1 h
    obtain ⟨_, c₅, hpush, h⟩ := bind_eq_ok.1 h
    obtain ⟨_, c₆, hleave, h⟩ := bind_eq_ok.1 h
    obtain ⟨-, rfl⟩ := pure_eq_ok.1 h
    have scripted₄ := composes_scripted.shape _ _ _ scripted₃ hshape
    have scripted₅ := composes_scripted.lift (keeps_fallback_scripted _ _) _ _ _ scripted₄ hpush
    have scripted₆ := composes_scripted.lift composes_scripted.returning _ _ _ scripted₅ hleave
    have hvalue := (emits_shape.extends_of_nil [] hshape).trans
      ((Emits.lift (adds_fallback guard.fallback shape.returnType)).extends_of_nil [] hpush)
    have hreturn := (Emits.lift Adds.leave).extends_of_nil [] hleave
    refine ⟨accounts.run (run.trans (hvalue.trans hreturn).run) scripted₆.builder.nodes, ?_⟩
    obtain ⟨C, hC, rfl⟩ := lift_eq_ok.1 hleave
    have hbranch : pushBranch (.returnFor c₅.builder.shape.returnType) c₅.builder = .ok _ C := hC
    obtain ⟨_, _, D, -, -, -, rfl⟩ := pushBranch_eq_ok hbranch
    exact append_frame _ _ _
  have hend : compiler.builder.Accounts ⟨[], [caughtType guard.catchType]⟩ ∧ compiler.builder.frame = none := by
    cases hlog : guard.log with
    | none =>
      rw [hlog] at hstep
      obtain ⟨_, c₃, hpop, hstep⟩ := bind_eq_ok.1 hstep
      have popped := (Emits.lift Adds.pop).extends_of_nil [] hpop
      exact ending c₃ (composes_scripted.lift composes_scripted.pop _ _ _ scripted hpop) popped.run hstep
    | some log =>
      rw [hlog] at hstep
      obtain ⟨_, c₃, hcall, hstep⟩ := bind_eq_ok.1 hstep
      have called := (emits_log log).extends_of_nil [] hcall
      exact ending c₃ (keeps_log_scripted log _ _ _ scripted hcall) called.run hstep
  exact ⟨compiler.builder, hend.1, hend.2, rfl, rfl⟩

end WrapGuard

end ClassWeave
