import ClassWeave.Proofs.Code.Leading
import ClassWeave.Proofs.Code.Rereading
import ClassWeave.Proofs.Patch.Patched
import ClassWeave.Proofs.Script.Compiled

/-!
Patched bodies can be read again. Code that is put in front of a body or behind it has no table of
targets, and its jumps stay inside, unless it is put in front of a body without instructions.
-/

namespace ClassWeave

namespace Builder

variable {B C D : Builder} {label : Label} {frame : EditFrame} {targets : List Label}

/-- The labels fit together, no branch has a table of targets, and if control does not get to the end then it
has branched. -/
structure Tidy (B : Builder) : Prop where
  bookkept : Bookkept B
  plain : ∀ branch : Branch Label, .branch branch ∈ B.nodes → branch.isTable = false
  ended : B.frame = none → ∃ branch : Branch Label, .branch branch ∈ B.nodes

theorem Step.plain (h : Step B C)
    (hp : ∀ branch : Branch Label, .branch branch ∈ B.nodes → branch.isTable = false) :
    ∀ branch : Branch Label, .branch branch ∈ C.nodes → branch.isTable = false := by
  have other : ∀ {node : Node}, (∀ branch, node ≠ .branch branch) →
      ∀ branch : Branch Label, .branch branch ∈ node :: B.nodes → branch.isTable = false :=
    fun hne branch hm => hp branch ((List.mem_cons.1 hm).resolve_left (Ne.symm (hne branch)))
  cases h with
  | intern => exact hp
  | fresh => exact hp
  | insn => rw [append_nodes]; exact other (by simp)
  | branch _ _ _ jumps plain =>
    rw [append_nodes, jumps.nodes_eq]
    intro branch hm
    rcases List.mem_cons.1 hm with he | hm
    · cases he
      exact plain
    · exact hp branch hm
  | place => rw [placed_nodes]; exact other (by simp)
  | stop => rw [append_nodes]; exact other (by simp)
  | enter => rw [opened_nodes, placed_nodes]; exact other (by simp)
  | leave => rw [left_nodes]; exact hp

theorem Step.ended (h : Step B C) (he : B.frame = none → ∃ branch : Branch Label, .branch branch ∈ B.nodes)
    (hend : C.frame = none) : ∃ branch : Branch Label, .branch branch ∈ C.nodes := by
  cases h with
  | intern => exact he hend
  | fresh => exact he hend
  | insn reachable => rw [append_frame] at hend; cases hend
  | branch => exact ⟨_, append_nodes _ _ _ ▸ List.mem_cons_self⟩
  | place => rw [placed_frame] at hend; cases hend
  | stop unreachable =>
    rw [append_nodes]
    exact (he unreachable).imp fun _ => List.mem_cons_of_mem _
  | enter => rw [opened_frame, placed_frame] at hend; cases hend
  | leave =>
    rw [left_frame] at hend
    rw [left_nodes]
    exact he hend

theorem Tidy.run (h : Tidy B) (hr : Run B C) : Tidy C := by
  induction hr with
  | refl => exact h
  | tail _ step ih => exact ⟨ih.bookkept.step step, step.plain ih.plain, step.ended ih.ended⟩

theorem tidy_start (pool : ConstantPool) (labels : LabelSupply) (shape : MethodShape)
    (entry : EditFrame) : Tidy (start pool labels shape entry) where
  bookkept := ⟨List.nodup_nil, .nil, by simp [isPlaced, start], by simp [start], by simp [start],
    by simp [start], by simp [start]⟩
  plain := by simp [start]
  ended := by simp [start]

/-- What is put behind code keeps the labels together, and leaves open at most the targets. -/
structure Grows (targets : List Label) (B C : Builder) : Prop where
  pool : B.pool ≤ C.pool
  labels : B.labels.allocated ≤ C.labels.allocated
  handlers : B.handlers <:+ C.handlers
  tidy : Tidy B → Tidy C
  opens : ∀ label, Open C label → Open B label ∨ label ∈ targets

namespace Grows

theorem refl (targets : List Label) (B : Builder) : Grows targets B B :=
  ⟨ConstantPool.le_refl _, Nat.le_refl _, List.suffix_refl _, id, fun _ => .inl⟩

theorem trans (h : Grows targets B C) (h' : Grows targets C D) : Grows targets B D :=
  ⟨ConstantPool.le_trans h.pool h'.pool, Nat.le_trans h.labels h'.labels, h.handlers.trans h'.handlers,
    h'.tidy ∘ h.tidy, fun label hl => (h'.opens label hl).elim (h.opens label) .inr⟩

end Grows

theorem Extends.grows (h : Extends targets B C) : Grows targets B C :=
  ⟨h.run.pool_le, h.run.allocated_le, h.run.handlers_suffix, fun hk => hk.run h.run, h.opens⟩

/-- A label that is put with a given frame is open no more. -/
theorem grows_placeWith (targets : List Label) {u : Unit} (known : label.number < B.labels.allocated)
    (h : placeWith label frame B = .ok u C) :
    Grows targets B C ∧ ¬Open C label ∧ ∀ l, Open C l → Open B l := by
  obtain ⟨ahead, -, rfl⟩ := placeWith_eq_ok h
  have hnodes : (({ (B.require label).setFrame label frame with frame := some frame }).append
      (.label label) (some label)).nodes = .label label :: B.nodes := by
    rw [append_nodes]
    exact congrArg _ (require_nodes B label)
  have hopen : ∀ l, Open (({ (B.require label).setFrame label frame with
      frame := some frame }).append (.label label) (some label)) l → l ≠ label ∧ Open B l := by
    rintro l ⟨hframed, hplaced⟩
    obtain ⟨hne, hplaced⟩ := (isPlaced_cons hnodes).1 hplaced
    have hne : l ≠ label := fun he => hne (congrArg Node.label he.symm)
    rw [append_labelFrames] at hframed
    have hfound := find?_setFrame (B.require label) label frame l
    rw [if_neg hne, require_labelFrames] at hfound
    exact ⟨hne, (congrArg Option.isSome hfound).symm.trans hframed, hplaced⟩
  refine ⟨⟨?_, ?_, ?_, fun hk => ⟨?_, ?_, ?_⟩, fun l hl => .inl (hopen l hl).2⟩,
    fun hl => (hopen label hl).1 rfl, fun l hl => (hopen l hl).2⟩
  · rw [append_pool]
    exact (require_pool B label).symm ▸ ConstantPool.le_refl _
  · rw [append_labels]
    exact Nat.le_of_eq (congrArg LabelSupply.allocated (require_labels B label)).symm
  · rw [append_handlers]
    exact (require_handlers B label).symm ▸ List.suffix_refl _
  · have noted : Bookkept { (B.require label).setFrame label frame with frame := some frame } :=
      (hk.bookkept.note known frame).congr rfl rfl rfl rfl rfl
    refine noted.append _ _ ?_ (by simp)
    rintro l ⟨⟩
    refine ⟨(isPlaced_congr (require_nodes B label)).trans ahead, ?_⟩
    change label.number < (B.require label).labels.allocated
    rwa [require_labels]
  · rw [hnodes]
    exact fun branch hm => hk.plain branch ((List.mem_cons.1 hm).resolve_left (by simp))
  · intro hend
    rw [append_frame] at hend
    cases hend

/-- In code that leaves no label open, all that is jumped to is there. -/
theorem Tidy.target_mem (h : Tidy B) (hclosed : ∀ l, ¬Open B l) {branch : Branch Label}
    (hm : .branch branch ∈ B.nodes) {target : Label} (ht : target ∈ branch.jumpTargets) :
    .label target ∈ B.nodes := by
  have hframed := h.bookkept.needed target (h.bookkept.targets branch hm target ht)
  rw [← isPlaced_iff]
  by_contra hp
  exact hclosed target ⟨hframed, by simpa using hp⟩

end Builder

open Builder Compiler

theorem Compiler.frame_gotoIfReachable {label : Label} {c c' : Compiler} {u : Unit}
    (h : gotoIfReachable label c = .ok u c') : c'.builder.frame = none := by
  unfold gotoIfReachable at h
  rw [isReachable_bind_eq_ok] at h
  split at h
  · obtain ⟨B, hB, rfl⟩ := lift_eq_ok.1 h
    obtain ⟨before, after, D, -, -, -, rfl⟩ := pushBranch_eq_ok hB
    exact append_frame _ _ _
  · next hnot =>
    obtain ⟨-, rfl⟩ := pure_eq_ok.1 h
    exact Option.not_isSome_iff_eq_none.1 hnot

namespace PrologueGuard

/-- Guards leave open at most the label that they go on to. -/
theorem grows_chain {entry : EditFrame} {resume : Label} :
    ∀ {guards : List Guard} {c c' : Compiler} {u : Unit},
      resume.number < c.builder.labels.allocated → chain entry resume guards c = .ok u c' →
      Grows [resume] c.builder c'.builder
  | [], c, c', u, known, h => by
    obtain ⟨-, rfl⟩ := pure_eq_ok.1 h
    exact .refl _ _
  | [guard], c, c', u, known, h => by
    have hemits : Emits [resume] (chain entry resume [guard]) :=
      .bind (emits_cond false resume guard.condition) fun _ =>
        .bind (.mono (List.nil_subset _) (emits_block guard.tail)) fun _ =>
          emits_gotoIfReachable resume
    exact (hemits c u c' (List.forall_mem_singleton.2 known) h).grows
  | guard :: second :: rest, c, c', u, known, h => by
    obtain ⟨next, c₁, hnext, h⟩ := bind_eq_ok.1 h
    obtain ⟨hlt, hfresh⟩ := fresh_eq_ok [next, resume] hnext
    obtain ⟨_, c₂, hcond, h⟩ := bind_eq_ok.1 h
    obtain ⟨_, c₃, hblock, h⟩ := bind_eq_ok.1 h
    obtain ⟨_, c₄, hgoto, h⟩ := bind_eq_ok.1 h
    have hknown := hfresh.allocated_lt known
    have h₂ := (emits_cond false next guard.condition).extends_of_one [next, resume] hlt
      List.mem_cons_self hcond
    have h₃ := (emits_block guard.tail).extends_of_nil [next, resume] hblock
    have h₄ := (emits_gotoIfReachable resume).extends_of_one [next, resume]
      (h₃.allocated_lt (h₂.allocated_lt hknown)) (List.mem_cons_of_mem _ List.mem_cons_self) hgoto
    have hall := ((hfresh.trans h₂).trans (h₃.trans h₄)).grows
    rw [isJumpedTo_bind_eq_ok] at h
    -- Unless the next guard is jumped to, its label has no frame and so is not open.
    have hopens : ∀ {D : Builder}, (∀ l, Open D l → Open c₄.builder l) → ¬Open D next →
        ∀ l, Open D l → Open c.builder l ∨ l ∈ [resume] := by
      intro D hsub hclosed l hl
      rcases hall.opens l (hsub l hl) with ho | hm
      · exact .inl ho
      · rcases List.mem_cons.1 hm with rfl | hm
        · exact absurd hl hclosed
        · exact .inr hm
    split at h
    · obtain ⟨_, B, hB, h⟩ := lift_bind_eq_ok.1 h
      obtain ⟨hgrows, hclosed, hsub⟩ := grows_placeWith [resume]
        (h₄.allocated_lt (h₃.allocated_lt (h₂.allocated_lt hlt))) hB
      have hhere : Grows [resume] c.builder B :=
        ⟨ConstantPool.le_trans hall.pool hgrows.pool, Nat.le_trans hall.labels hgrows.labels,
          hall.handlers.trans hgrows.handlers, hgrows.tidy ∘ hall.tidy, hopens hsub hclosed⟩
      exact hhere.trans (grows_chain (Nat.lt_of_lt_of_le known hhere.labels) h)
    · next hnot =>
      obtain ⟨-, rfl⟩ := pure_eq_ok.1 h
      exact ⟨hall.pool, hall.labels, hall.handlers, hall.tidy, hopens (fun _ => id) fun hl => hnot hl.1⟩

/-- Guards go on to their label by a jump only. -/
theorem frame_chain {entry : EditFrame} {resume : Label} :
    ∀ {guards : List Guard} {c c' : Compiler} {u : Unit}, guards ≠ [] →
      chain entry resume guards c = .ok u c' → c'.builder.frame = none
  | [], c, c', u, hsome, h => (hsome rfl).elim
  | [guard], c, c', u, hsome, h => by
    obtain ⟨_, c₁, -, h⟩ := bind_eq_ok.1 h
    obtain ⟨_, c₂, -, hgoto⟩ := bind_eq_ok.1 h
    exact frame_gotoIfReachable hgoto
  | guard :: second :: rest, c, c', u, hsome, h => by
    obtain ⟨next, c₁, -, h⟩ := bind_eq_ok.1 h
    obtain ⟨_, c₂, -, h⟩ := bind_eq_ok.1 h
    obtain ⟨_, c₃, -, h⟩ := bind_eq_ok.1 h
    obtain ⟨_, c₄, hgoto, h⟩ := bind_eq_ok.1 h
    rw [isJumpedTo_bind_eq_ok] at h
    split at h
    · obtain ⟨_, c₅, -, h⟩ := bind_eq_ok.1 h
      exact frame_chain (List.cons_ne_nil second rest) h
    · obtain ⟨-, rfl⟩ := pure_eq_ok.1 h
      exact frame_gotoIfReachable hgoto

/-- How the code of guards is compiled. -/
structure Built (guard : PrologueGuard) (old : MethodBody) (pool : ConstantPool) (resume : Label)
    (opened chained : Compiler) (builder : Builder) : Prop where
  opens : (liftM fresh : Compiling Label)
    (Compiler.start (.start pool old.labels old.shape old.shape.entryFrame) 0) = .ok resume opened
  chains : chain old.shape.entryFrame resume guard.guards opened = .ok () chained
  ends : placeWith resume (resumeFrame old) chained.builder = .ok () builder

/-- All that the code of guards jumps to is in it. -/
theorem Built.closed {guard : PrologueGuard} {old : MethodBody} {pool : ConstantPool} {resume : Label}
    {opened chained : Compiler} {builder : Builder} (h : guard.Built old pool resume opened chained builder) :
    pool ≤ builder.pool ∧ Tidy builder ∧ ∀ l, ¬Open builder l := by
  obtain ⟨known, hfresh⟩ := fresh_eq_ok [] h.opens
  have hguards := grows_chain known h.chains
  obtain ⟨hend, hclosed, hsub⟩ := grows_placeWith [resume] (Nat.lt_of_lt_of_le known hguards.labels) h.ends
  have hall := (hfresh.mono (List.nil_subset [resume])).grows.trans (hguards.trans hend)
  refine ⟨hall.pool, hall.tidy (tidy_start _ _ _ _), fun l hl => ?_⟩
  rcases hall.opens l hl with ho | hm
  · cases ho.1
  · exact hclosed (List.mem_singleton.1 hm ▸ hl)

theorem built_of_code {guard : PrologueGuard} {old : MethodBody} {pool pool' : ConstantPool}
    {fragment : Fragment} {labels : LabelSupply} (h : guard.code old pool = .ok (fragment, labels) pool') :
    ∃ resume opened chained builder, guard.Built old pool resume opened chained builder ∧
      fragment = builder.finish ∧ pool' = builder.pool := by
  obtain ⟨⟨_, compiler⟩, _, hbuild, h⟩ := bind_eq_ok.1 h
  obtain ⟨he, rfl⟩ := pure_eq_ok.1 h
  cases he
  obtain ⟨hstep, rfl⟩ := Replacement.build_eq_ok hbuild
  obtain ⟨resume, opened, hfresh, hstep⟩ := bind_eq_ok.1 hstep
  obtain ⟨_, chained, hchain, hstep⟩ := bind_eq_ok.1 hstep
  obtain ⟨B, hB, rfl⟩ := lift_eq_ok.1 hstep
  exact ⟨resume, opened, chained, B, ⟨hfresh, hchain, hB⟩, rfl, rfl⟩

/-- There is a branch in the code of guards, and none with a table of targets. -/
theorem branches_of_code {guard : PrologueGuard} {old : MethodBody} {pool pool' : ConstantPool}
    {code : Fragment} {labels : LabelSupply} (hsome : guard.guards ≠ [])
    (h : guard.code old pool = .ok (code, labels) pool') :
    (∃ branch : Branch Label, .branch branch ∈ code.nodes) ∧
      ∀ branch : Branch Label, .branch branch ∈ code.nodes → branch.isTable = false := by
  obtain ⟨resume, opened, chained, builder, built, rfl, rfl⟩ := built_of_code h
  obtain ⟨-, tidy, -⟩ := built.closed
  obtain ⟨known, hfresh⟩ := fresh_eq_ok [] built.opens
  have openedTidy : Tidy opened.builder := hfresh.grows.tidy (tidy_start _ _ _ _)
  have chainedTidy : Tidy chained.builder := (grows_chain known built.chains).tidy openedTidy
  obtain ⟨branch, hm⟩ := chainedTidy.ended (frame_chain hsome built.chains)
  obtain ⟨-, -, hbuilder⟩ := placeWith_eq_ok built.ends
  refine ⟨⟨branch, List.mem_reverse.2 ?_⟩, fun branch hm => tidy.plain branch (List.mem_reverse.1 hm)⟩
  rw [hbuilder, append_nodes]
  apply List.mem_cons_of_mem
  change _ ∈ (chained.builder.require resume).nodes
  rwa [require_nodes]

end PrologueGuard

namespace WrapGuard

theorem adds_fallback (fallback : Fallback) (returnType : Option FieldType) :
    Adds [] (fallback.push returnType) := by
  unfold Fallback.push
  split
  · exact .pure _
  · next type =>
    refine .push fun index => ?_
    cases SlotKind.ofFieldType type <;> simp
  · exact .constInt _
  · exact .constInt _
  · exact .constLong _
  · exact .constString _

theorem emits_log (log : LogCall) : Emits [] log.push := by
  unfold LogCall.push
  have hinvoke : ∀ u : PUnit, Emits [] (do
      Builder.invoke .static log.owner log.name log.descriptor : Compiling Unit) := fun _ =>
    .lift (.invoke _ _ _ _)
  split
  · exact .bind (.throw _) hinvoke
  · exact .bind (.lift .pop) hinvoke
  · exact .bind (.pure PUnit.unit) hinvoke
  · exact .bind (.throw _) hinvoke

/-- The code of a handler ends with the instruction that leaves the method. -/
theorem tail_eq_ok {guard : WrapGuard} {labels labels' : LabelSupply} {shape : MethodShape}
    {pool pool' : ConstantPool} {label : Label} {fragment : Fragment}
    (h : guard.tail labels shape pool = .ok (label, fragment, labels') pool') :
    ∃ builder : Builder, pool ≤ pool' ∧ Tidy builder ∧ fragment = builder.finish ∧
      ∃ branch rest, builder.nodes = .branch branch :: rest := by
  obtain ⟨⟨_, compiler⟩, _, hbuild, h⟩ := bind_eq_ok.1 h
  obtain ⟨he, rfl⟩ := pure_eq_ok.1 h
  cases he
  obtain ⟨hstep, rfl⟩ := Replacement.build_eq_ok hbuild
  obtain ⟨first, c₁, hfirst, hstep⟩ := bind_eq_ok.1 hstep
  obtain ⟨_, B, hB, hstep⟩ := lift_bind_eq_ok.1 hstep
  obtain ⟨known, hfresh⟩ := fresh_eq_ok [] hfirst
  obtain ⟨hplaced, -⟩ := grows_placeWith [] known hB
  have hstart := hfresh.grows.trans hplaced
  -- Whatever is logged, the value that the method falls back to and the return come behind it.
  have ending : ∀ c, Grows [] B c.builder → (do
      guard.fallback.push (← Compiler.shape).returnType
      Builder.leave
      return first : Compiling Label) c = .ok label compiler →
      Tidy compiler.builder ∧ pool ≤ compiler.builder.pool ∧
        ∃ branch rest, compiler.builder.nodes = .branch branch :: rest := by
    intro c hc h
    obtain ⟨shape, c₃, hshape, h⟩ := bind_eq_ok.1 h
    obtain ⟨_, c₄, hpush, h⟩ := bind_eq_ok.1 h
    obtain ⟨_, c₅, hleave, h⟩ := bind_eq_ok.1 h
    obtain ⟨-, rfl⟩ := pure_eq_ok.1 h
    have hvalue := (emits_shape.extends_of_nil [] hshape).trans
      ((Emits.lift (adds_fallback guard.fallback shape.returnType)).extends_of_nil [] hpush)
    have hreturn := (Emits.lift Adds.leave).extends_of_nil [] hleave
    have hall := (hstart.trans hc).trans (hvalue.trans hreturn).grows
    refine ⟨hall.tidy (tidy_start _ _ _ _), hall.pool, ?_⟩
    obtain ⟨C, hC, rfl⟩ := lift_eq_ok.1 hleave
    have hbranch : pushBranch (.returnFor c₄.builder.shape.returnType) c₄.builder = .ok _ C := hC
    obtain ⟨_, _, D, -, -, -, rfl⟩ := pushBranch_eq_ok hbranch
    exact ⟨_, D.nodes, append_nodes _ _ _⟩
  have hend : Tidy compiler.builder ∧ pool ≤ compiler.builder.pool ∧
      ∃ branch rest, compiler.builder.nodes = .branch branch :: rest := by
    cases hlog : guard.log with
    | none =>
      rw [hlog] at hstep
      obtain ⟨_, c₂, hpop, hstep⟩ := bind_eq_ok.1 hstep
      exact ending c₂ ((Emits.lift Adds.pop).extends_of_nil [] hpop).grows hstep
    | some log =>
      rw [hlog] at hstep
      obtain ⟨_, c₂, hcall, hstep⟩ := bind_eq_ok.1 hstep
      exact ending c₂ ((emits_log log).extends_of_nil [] hcall).grows hstep
  exact ⟨compiler.builder, hend.2.1, hend.1, rfl, hend.2.2⟩

end WrapGuard

theorem Branch.sized_of_plain {T : Type} {branch : Branch T} (h : branch.isTable = false) :
    branch.Sized := by
  cases branch with
  | tableSwitch => cases h
  | _ => trivial

/-- Nodes in front of an instruction do not end the code. -/
theorem Builder.trailing_append {nodes : List Node} (h : ∃ node ∈ nodes, node.isLabel = false)
    (more : List Node) : trailing (nodes ++ more) = trailing nodes := by
  unfold trailing
  rw [List.takeWhile_append, if_neg]
  intro hall
  obtain ⟨node, hm, hl⟩ := h
  have hsame := (List.takeWhile_prefix Node.isLabel).eq_of_length hall
  have hlabel := List.mem_takeWhile_imp (hsame ▸ hm)
  rw [hl] at hlabel
  cases hlabel

namespace MethodBody

/-- How a patched body relates to the old one: with the tables of its switches intact. -/
structure Follows (old body : MethodBody) : Prop where
  shape : body.shape = old.shape
  sized : old.TablesSized → body.TablesSized

theorem labelAt_shape (body : MethodBody) (position : Nat) :
    (body.labelAt position).2.shape = body.shape := by
  unfold labelAt
  dsimp only
  split <;> rfl

/-- A new label among the nodes is no branch. -/
theorem branch_mem_labelAt {body : MethodBody} {position : Nat} {branch : Branch Label}
    (h : .branch branch ∈ (body.labelAt position).2.nodes) : .branch branch ∈ body.nodes := by
  unfold labelAt at h
  dsimp only at h
  split at h
  · exact h
  · rcases List.mem_append.1 h with hm | hm
    · exact List.mem_of_mem_take hm
    · exact List.mem_of_mem_drop ((List.mem_cons.1 hm).resolve_left (by simp))

theorem jumpsInside_of_last {body : MethodBody} {branch : Branch Label} {rest : List Node}
    (h : body.nodes.reverse = .branch branch :: rest) : body.JumpsInside := by
  intro _ _ target _
  rw [h]
  exact List.not_mem_nil

end MethodBody

/-- A handler around code is put behind it, and ends with a return. -/
theorem WrapGuard.follows_of_apply {guard : WrapGuard} {old : Option MethodBody} {body : MethodBody}
    {pool pool' : ConstantPool} (h : guard.apply old pool = .ok (.patched body) pool') :
    ∃ before, old = some before ∧ pool ≤ pool' ∧ before.Follows body ∧ body.JumpsInside := by
  obtain ⟨before, rfl, patches⟩ := patches_of_apply h
  obtain ⟨label, tail, labels, htail, rfl⟩ := patches.put
  obtain ⟨builder, hle, tidy, rfl, branch, rest, hlast⟩ := tail_eq_ok htail
  refine ⟨before, rfl, hle, ⟨before.labelAt_shape _, fun hsized other hm => ?_⟩,
    MethodBody.jumpsInside_of_last (?_ : List.reverse _ = .branch branch ::
      (rest ++ (before.labelAt before.firstInstruction).2.nodes.reverse))⟩
  · rcases List.mem_append.1 hm with hm | hm
    · exact hsized other (MethodBody.branch_mem_labelAt hm)
    · exact Branch.sized_of_plain (tidy.plain other (List.mem_reverse.1 hm))
  · change (_ ++ builder.nodes.reverse).reverse = _
    rw [List.reverse_append, List.reverse_reverse, hlast]
    rfl

/-- Guards are put in front of code, and go on to its first instruction. -/
theorem PrologueGuard.follows_of_apply {guard : PrologueGuard} {old : Option MethodBody}
    {body : MethodBody} {pool pool' : ConstantPool}
    (h : guard.apply old pool = .ok (.patched body) pool') :
    ∃ before, old = some before ∧ pool ≤ pool' ∧ before.Follows body ∧
      ((body.nodes.filterMap Node.label?).Nodup → before.instructionCount ≠ 0 → before.JumpsInside →
        body.JumpsInside) := by
  obtain ⟨before, rfl, patches⟩ := patches_of_apply h
  obtain ⟨code, labels, hcode, rfl⟩ := patches.put
  obtain ⟨resume, opened, chained, builder, built, rfl, rfl⟩ := built_of_code hcode
  obtain ⟨hle, tidy, closed⟩ := built.closed
  refine ⟨before, rfl, hle, ⟨rfl, fun hsized other hm => ?_⟩, fun hnodup hcount inside other hm target ht
    hend => ?_⟩
  · rcases List.mem_append.1 hm with hm | hm
    · exact Branch.sized_of_plain (tidy.plain other (List.mem_reverse.1 hm))
    · exact hsized other hm
  · have hbehind : ∃ node ∈ before.nodes.reverse, node.isLabel = false := by
      by_contra hnone
      refine hcount (List.countP_eq_zero.2 fun node hm hplain => hnone ⟨node, ?_⟩)
      exact ⟨List.mem_reverse.2 hm, by simpa using hplain⟩
    have hlast : target ∈ trailing before.nodes.reverse := by
      rwa [← trailing_append hbehind builder.finish.nodes.reverse, ← List.reverse_append]
    rcases List.mem_append.1 hm with hm | hm
    -- A label has one place, and what the guards jump to has it in front.
    · have hfront := tidy.target_mem closed (List.mem_reverse.1 hm) ht
      have hback := List.mem_reverse.1 (mem_of_mem_trailing hlast)
      have hunique : ((builder.nodes.reverse ++ before.nodes).filterMap Node.label?).Nodup := hnodup
      rw [List.filterMap_append, List.nodup_append] at hunique
      exact hunique.2.2 target (List.mem_filterMap.2 ⟨_, List.mem_reverse.2 hfront, rfl⟩) target
        (List.mem_filterMap.2 ⟨_, hback, rfl⟩) rfl
    · exact inside other hm target ht hlast

/-- The code of a script has no jump to its end, since it cannot be left there. -/
theorem Replacement.follows_of_apply {replacement : Replacement} {old : Option MethodBody}
    {body : MethodBody} {pool pool' : ConstantPool}
    (h : replacement.apply old pool = .ok (.patched body) pool') :
    ∃ before, old = some before ∧ pool ≤ pool' ∧ before.Follows body ∧ body.JumpsInside := by
  obtain ⟨before, builder, rfl, rfl, compiled⟩ := compiled_of_apply h
  have tidy := (tidy_start pool ⟨0⟩ before.shape before.shape.entryFrame).run compiled.run
  refine ⟨before, rfl, compiled.run.pool_le, ⟨compiled.shape, fun _ branch hm => ?_⟩,
    fun branch hm target ht hend => ?_⟩
  · rw [compiled.nodes, List.mem_reverse] at hm
    exact Branch.sized_of_plain (tidy.plain branch hm)
  · rw [compiled.nodes] at hm hend
    rw [List.reverse_reverse] at hend
    have hframed := tidy.bookkept.needed target
      (tidy.bookkept.targets branch (List.mem_reverse.1 hm) target ht)
    rw [compiled.sound.steady.dead compiled.ended target hend] at hframed
    cases hframed

namespace PatchStrategy

/-- Is code put in front of a body by this, rather than behind it or in its place? -/
def isPrologue : PatchStrategy → Bool
  | .prologue _ => true
  | _ => false

/-- A patched body is laid out around or in place of one that is there. -/
theorem follows_of_apply {strategy : PatchStrategy} {old : Option MethodBody} {body : MethodBody}
    {pool pool' : ConstantPool} (h : strategy.apply old pool = .ok (.patched body) pool') :
    ∃ before, old = some before ∧ pool ≤ pool' ∧ before.Follows body ∧
      ((body.nodes.filterMap Node.label?).Nodup → before.JumpsInside →
        (strategy.isPrologue = true → before.instructionCount ≠ 0) → body.JumpsInside) := by
  cases strategy with
  | wrap guard =>
    obtain ⟨before, he, hle, follows, inside⟩ := WrapGuard.follows_of_apply h
    exact ⟨before, he, hle, follows, fun _ _ _ => inside⟩
  | prologue guard =>
    obtain ⟨before, he, hle, follows, inside⟩ := PrologueGuard.follows_of_apply h
    exact ⟨before, he, hle, follows, fun hnodup hb hc => inside hnodup (hc rfl) hb⟩
  | replace replacement =>
    obtain ⟨before, he, hle, follows, inside⟩ := Replacement.follows_of_apply h
    exact ⟨before, he, hle, follows, fun _ _ _ => inside⟩

end PatchStrategy

end ClassWeave
