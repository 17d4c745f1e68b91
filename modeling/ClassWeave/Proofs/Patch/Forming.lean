import ClassWeave.Proofs.Patch.Settling
import ClassWeave.Proofs.Script.Renumbering

/-!
The form of a guard. The code of guards and of a handler is compiled again to the same code on a pool that has its
constants, and its canonical form depends on nothing but the declaration of the method.
-/

namespace ClassWeave

open Builder Compiler

variable {distance : Nat} {p q left left' : ConstantPool}

theorem Fallback.carries_push (fallback : Fallback) (returnType : Option FieldType) :
    Carries (Builder.moveUp distance) id (fallback.push returnType) (fallback.push returnType) := by
  have composes := @Builder.composes_carries distance
  unfold push
  split
  · exact .pure _
  · exact composes.zero _
  · exact composes.constInt _
  · exact composes.constInt _
  · exact composes.constLong _
  · exact composes.constString _

theorem LogCall.carries_push (log : LogCall) : Carries (Compiler.moveUp distance) id log.push log.push := by
  have invoked : Carries (Compiler.moveUp distance) id
      (liftM (Builder.invoke .static log.owner log.name log.descriptor) : Compiling Unit)
      (liftM (Builder.invoke .static log.owner log.name log.descriptor)) :=
    carries_lift (Builder.composes_carries.invoke _ _ _ _)
  unfold push
  split
  · exact .refuse
  · exact .bind (carries_lift carries_pop) fun _ => invoked
  · exact .bind (.pure PUnit.unit) fun _ => invoked
  · exact .refuse

theorem Fallback.settles_push (fallback : Fallback) (returnType : Option FieldType) :
    Builder.pooled.Settles (fallback.push returnType) := by
  have composes := Builder.composes_settles
  unfold push
  split
  · exact .pure _
  · exact composes.zero _
  · exact composes.constInt _
  · exact composes.constInt _
  · exact composes.constLong _
  · exact composes.constString _

theorem LogCall.settles_push (log : LogCall) : Compiler.pooled.Settles log.push := by
  have invoked : Compiler.pooled.Settles
      (liftM (Builder.invoke .static log.owner log.name log.descriptor) : Compiling Unit) :=
    settles_lift (Builder.composes_settles.invoke _ _ _ _)
  unfold push
  split
  · exact .bind (.throw _) fun _ => invoked
  · exact .bind (settles_lift settles_pop) fun _ => invoked
  · exact .bind (.pure PUnit.unit) fun _ => invoked
  · exact .bind (.throw _) fun _ => invoked

/-- A step that is run on labels that are moved up gives what it gives, moved up. -/
theorem Compiling.build_moveUp {α β : Type} {value : α → β} {step : Compiling α} {other : Compiling β}
    (carries : Carries (Compiler.moveUp distance) value step other) {labels : LabelSupply} {shape : MethodShape}
    {entry : EditFrame} {a : α} {c : Compiler} (h : step.build labels shape entry p = .ok (a, c) q) :
    other.build ⟨labels.allocated + distance⟩ shape entry p = .ok (value a, c.moveUp distance) q := by
  obtain ⟨hstep, rfl⟩ := Replacement.build_eq_ok h
  have hmoved := carries _ _ _ hstep
  change other (.start (.start p ⟨labels.allocated + distance⟩ shape entry) 0) = _ at hmoved
  unfold Compiling.build
  rw [hmoved]
  rfl

namespace WrapGuard

variable {guard : WrapGuard}

theorem carries_handler (guard : WrapGuard) :
    Carries (Compiler.moveUp distance) (Label.moveUp distance) guard.handler guard.handler := by
  have returned (label : Label) : Carries (Compiler.moveUp distance) (Label.moveUp distance) (do
      guard.fallback.push (← Compiler.shape).returnType
      Builder.leave
      return label : Compiling Label) (do
      guard.fallback.push (← Compiler.shape).returnType
      Builder.leave
      return label.moveUp distance) :=
    .bind composesExpr_carries.shape fun shape => .bind (carries_lift (guard.fallback.carries_push _)) fun _ =>
      .bind (carries_lift carries_leave) fun _ => .pure label
  refine .bind carries_freshLabel fun label => .bind (carries_lift (carries_placeWith label _)) fun _ => ?_
  dsimp only
  cases guard.log with
  | none => exact .bind (carries_lift carries_pop) fun _ => returned label
  | some log => exact .bind log.carries_push fun _ => returned label

theorem settles_handler (guard : WrapGuard) : Compiler.pooled.Settles guard.handler := by
  have composes := Compiler.composes_settles
  have returned (label : Label) : Compiler.pooled.Settles (do
      guard.fallback.push (← Compiler.shape).returnType
      Builder.leave
      return label : Compiling Label) :=
    .bind composes.shape fun shape => .bind (settles_lift (guard.fallback.settles_push _)) fun _ =>
      .bind (settles_lift settles_leave) fun _ => .pure label
  refine composes.labelled fun label =>
    .bind (settles_lift (.of_mirrors fun _ => mirrors_placeWith label _)) fun _ => ?_
  dsimp only
  cases guard.log with
  | none => exact .bind (settles_lift settles_pop) fun _ => returned label
  | some log => exact .bind log.settles_push fun _ => returned label

theorem settled_tail (guard : WrapGuard) (labels : LabelSupply) (shape : MethodShape) :
    Settled (guard.tail labels shape) :=
  settled_build guard.settles_handler (fun _ => .pure _) fun _ _ _ => rfl

theorem form_of_le {labels labels' used used' : LabelSupply} {shape : MethodShape} {label label' : Label}
    {tail tail' : Fragment} (hle : labels.allocated ≤ labels'.allocated)
    (h : guard.tail labels shape p = .ok (label, tail, used) left)
    (h' : guard.tail labels' shape p = .ok (label', tail', used') left') :
    left' = left ∧ CanonicalNode.ofNodes tail'.nodes = CanonicalNode.ofNodes tail.nodes := by
  obtain ⟨⟨first, c⟩, _, hbuild, h⟩ := bind_eq_ok.1 h
  obtain ⟨⟨first', c'⟩, _, hbuild', h'⟩ := bind_eq_ok.1 h'
  obtain ⟨he, rfl⟩ := pure_eq_ok.1 h
  obtain ⟨he', rfl⟩ := pure_eq_ok.1 h'
  cases he
  cases he'
  obtain ⟨distance, hdistance⟩ := Nat.exists_eq_add_of_le hle
  have hlabels : labels' = ⟨labels.allocated + distance⟩ := congrArg LabelSupply.mk hdistance
  have hmoved := Compiling.build_moveUp (@carries_handler distance guard) hbuild
  rw [← hlabels, hbuild'] at hmoved
  cases hmoved
  have hnodes : (c.moveUp distance).builder.finish.nodes = c.builder.finish.nodes.map (Node.moveUp distance) :=
    List.map_reverse.symm
  rw [hnodes, CanonicalNode.ofNodes_moveUp]
  exact ⟨rfl, rfl⟩

/-- The code of the handler has one form on a pool and leaves one pool, whatever labels the body has that it is
compiled for. -/
theorem form_eq {labels labels' used used' : LabelSupply} {shape : MethodShape} {label label' : Label}
    {tail tail' : Fragment} (h : guard.tail labels shape p = .ok (label, tail, used) left)
    (h' : guard.tail labels' shape p = .ok (label', tail', used') left') :
    left' = left ∧ CanonicalNode.ofNodes tail'.nodes = CanonicalNode.ofNodes tail.nodes := by
  rcases Nat.le_total labels.allocated labels'.allocated with hle | hle
  · exact form_of_le hle h h'
  · obtain ⟨hleft, hform⟩ := form_of_le hle h' h
    exact ⟨hleft.symm, hform.symm⟩

end WrapGuard

namespace PrologueGuard

variable {guard : PrologueGuard} {old other : MethodBody} {code code' : Fragment} {labels labels' : LabelSupply}

theorem carries_chain (entry : EditFrame) (resume : Label) : ∀ guards : List Guard,
    Carries (Compiler.moveUp distance) id (chain entry resume guards) (chain entry (resume.moveUp distance) guards)
  | [] => .pure _
  | [guard] => .bind (carries_cond false resume guard.condition) fun _ => .bind (carries_block guard.tail) fun _ =>
      carries_gotoIfReachable resume
  | guard :: second :: rest =>
    .bind carries_freshLabel fun next => .bind (carries_cond false next guard.condition) fun _ =>
      .bind (carries_block guard.tail) fun _ => .bind (carries_gotoIfReachable resume) fun _ =>
      .bind (carries_isJumpedTo next) fun _ => .ite .rfl (.bind (carries_lift (carries_placeWith next entry)) fun _ =>
        carries_chain entry resume (second :: rest)) (.pure _)

theorem settles_chain (entry : EditFrame) (resume : Label) :
    ∀ guards : List Guard, Compiler.pooled.Settles (chain entry resume guards)
  | [] => .pure _
  | [guard] => by
    have composes := Compiler.composes_settles
    exact .bind (composes.cond false resume guard.condition) fun _ =>
      .bind (composes.block guard.tail) fun _ => composes.gotoIfReachable resume
  | guard :: second :: rest => by
    have composes := Compiler.composes_settles
    exact composes.labelled fun next => .bind (composes.cond false next guard.condition) fun _ =>
      .bind (composes.block guard.tail) fun _ => .bind (composes.gotoIfReachable resume) fun _ =>
      .bind (composes.isJumpedTo next) fun _ =>
        composes.ite (.bind (settles_lift (.of_mirrors fun _ => mirrors_placeWith next entry)) fun _ =>
          settles_chain entry resume (second :: rest)) (.pure _)

theorem settled_code (guard : PrologueGuard) (old : MethodBody) : Settled (guard.code old) := by
  have compiled : Compiler.pooled.Settles (do
      let resume ← fresh
      chain old.shape.entryFrame resume guard.guards
      placeWith resume (resumeFrame old) : Compiling Unit) :=
    Compiler.composes_settles.labelled fun resume => .bind (settles_chain _ resume guard.guards) fun _ =>
      settles_lift (.of_mirrors fun _ => mirrors_placeWith resume _)
  exact settled_build compiled (fun _ => .pure _) fun _ _ _ => rfl

/-- The nodes of guards come from the chain, and end with the label that it goes on to. -/
theorem nodes_of_code (h : guard.code old p = .ok (code, labels) q) : ∃ resume opened chained,
    (liftM fresh : Compiling Label) (.start (.start p old.labels old.shape old.shape.entryFrame) 0) =
      .ok resume opened ∧
    chain old.shape.entryFrame resume guard.guards opened = .ok () chained ∧
    code.nodes = (.label resume :: chained.builder.nodes).reverse := by
  obtain ⟨resume, opened, chained, builder, built, rfl, -⟩ := built_of_code h
  obtain ⟨-, -, hbuilder⟩ := placeWith_eq_ok built.ends
  refine ⟨resume, opened, chained, built.opens, built.chains, ?_⟩
  change builder.nodes.reverse = _
  rw [hbuilder, append_nodes]
  exact congrArg (fun nodes => List.reverse (_ :: nodes)) (require_nodes _ _)

theorem form_of_le (hshape : other.shape = old.shape) (hle : old.labels.allocated ≤ other.labels.allocated)
    (h : guard.code old p = .ok (code, labels) left) (h' : guard.code other p = .ok (code', labels') left') :
    CanonicalNode.ofNodes code'.nodes = CanonicalNode.ofNodes code.nodes := by
  obtain ⟨resume, opened, chained, hopened, hchained, hnodes⟩ := nodes_of_code h
  obtain ⟨resume', opened', chained', hopened', hchained', hnodes'⟩ := nodes_of_code h'
  obtain ⟨distance, hdistance⟩ := Nat.exists_eq_add_of_le hle
  have hlabels : other.labels = ⟨old.labels.allocated + distance⟩ := congrArg LabelSupply.mk hdistance
  have hfirst := @carries_freshLabel distance _ _ _ hopened
  rw [hshape, hlabels] at hopened'
  cases hopened'.symm.trans hfirst
  have hsecond := @carries_chain distance _ resume guard.guards _ _ _ hchained
  rw [hshape] at hchained'
  cases hchained'.symm.trans hsecond
  have hmoved : code'.nodes = code.nodes.map (Node.moveUp distance) := by
    rw [hnodes, hnodes', List.map_reverse, List.map_cons]
    rfl
  rw [hmoved, CanonicalNode.ofNodes_moveUp]

/-- Guards have one form on a pool, whatever labels the body has that they are compiled for, and whatever frame it
starts with. -/
theorem form_eq (hshape : other.shape = old.shape) (h : guard.code old p = .ok (code, labels) left)
    (h' : guard.code other p = .ok (code', labels') left') :
    CanonicalNode.ofNodes code'.nodes = CanonicalNode.ofNodes code.nodes := by
  rcases Nat.le_total old.labels.allocated other.labels.allocated with hle | hle
  · exact form_of_le hshape hle h h'
  · exact (form_of_le hshape.symm hle h' h).symm

end PrologueGuard

end ClassWeave
