import ClassWeave.Proofs.Code.Edges
import ClassWeave.Proofs.Script.Compiled
import ClassWeave.Proofs.Script.Typing

/-!
The edges in the code of a replacement. Whatever the class hierarchy is, control that goes ahead arrives
with a frame below the one at its label; control that goes back does so just where the class names in the
two frames are below one another.
-/

namespace ClassWeave

namespace Replacement

variable {replacement : Replacement} {old body : MethodBody} {pool : ConstantPool}
  {builder : Builder}

theorem Compiled.find?_frames (h : replacement.Compiled old pool body builder) (label : Label) :
    body.frames.find? label =
      if label ∈ builder.needsFrame then builder.labelFrames.find? label else none := by
  rw [h.frames, FrameTable.find?_filter fun label => builder.needsFrame.contains label]
  simp only [List.contains_iff_mem]

theorem Compiled.records (h : replacement.Compiled old pool body builder) :
    builder.Records body.frames := fun label _ => by
  rw [h.find?_frames]
  by_cases hm : label ∈ builder.needsFrame
  · exact .inl (if_pos hm)
  · exact .inr ⟨hm, if_neg hm⟩

/-- Each edge of the compiled code was accepted by the builder, for the frame that is recorded. -/
theorem Compiled.edges (h : replacement.Compiled old pool body builder) :
    ∃ edges, body.edges builder.pool = some edges ∧ ∀ edge ∈ edges, ∃ frame,
      builder.Accepted body.frames edge frame ∧ body.frames.find? edge.target = some frame := by
  have sound := Builder.sound_start pool ⟨0⟩ old.shape old.shape.entryFrame_plain
  have followed := (Builder.followed_start pool ⟨0⟩ old.shape old.shape.entryFrame).run sound h.run
  obtain ⟨passage, hw, hm⟩ := followed.passage builder.pool body.frames (ConstantPool.le_refl _) h.records
  have hshape : builder.shape = body.shape := h.run.shape_eq.trans h.shape.symm
  refine ⟨passage.edges, ?_, fun edge he => ?_⟩
  · unfold MethodBody.edges
    rw [h.nodes, h.shape]
    rw [hshape, h.shape] at hw
    rw [hw]
    rfl
  · obtain ⟨frame, ha⟩ := hm.edges edge he
    refine ⟨frame, ha, ?_⟩
    rcases ha.recorded with hneeds | ⟨-, hf⟩
    · rw [h.find?_frames, if_pos hneeds]
      exact ha.framed
    · exact hf

theorem edges_of_apply {replacement : Replacement} {old : Option MethodBody} {body : MethodBody}
    {pool pool' : ConstantPool} (h : replacement.apply old pool = .ok (.patched body) pool') :
    ∃ edges, body.edges pool' = some edges ∧
      (∀ edge ∈ edges, edge.back = false → edge.Into EditType.Weakens body.frames) ∧
      ∀ subclass, Hierarchy subclass →
        ((∀ edge ∈ edges, edge.Into (EditType.Below subclass) body.frames) ↔
          ∀ edge ∈ edges, edge.back = true →
            edge.Into (EditType.NamesBelow subclass) body.frames) := by
  obtain ⟨before, builder, -, rfl, compiled⟩ := compiled_of_apply h
  obtain ⟨edges, hedges, accepted⟩ := compiled.edges
  have ahead : ∀ edge ∈ edges, edge.back = false → edge.Into EditType.Weakens body.frames := by
    intro edge he hb
    obtain ⟨frame, ha, hf⟩ := accepted edge he
    exact ⟨frame, hf, ha.ahead hb⟩
  refine ⟨edges, hedges, ahead, fun subclass hierarchy => ⟨fun below edge he _ => ?_, ?_⟩⟩
  · obtain ⟨frame, hf, flows⟩ := below edge he
    exact ⟨frame, hf, flows.mono fun s t hst => hst.namesBelow hierarchy.refl⟩
  · intro names edge he
    cases hb : edge.back with
    | false =>
      obtain ⟨frame, hf, flows⟩ := ahead edge he hb
      exact ⟨frame, hf, flows.mono fun s t hst => hst.below⟩
    | true =>
      obtain ⟨frame, ha, hf⟩ := accepted edge he
      obtain ⟨frame', hf', flows⟩ := names edge he hb
      rw [hf] at hf'
      cases hf'
      exact ⟨frame, hf, (EditFrame.flows_below_iff hierarchy (ha.behind hb).2).2 flows⟩

/-- Declares a variable of the class above all, and gives it in a loop a value of another class than it
had in front. -/
def retyping : Replacement where
  descriptor := "(Ljava/lang/String;La/B;I)V"
  body := [
    .declare "x" "Ljava/lang/Object;" (.argument 0),
    .loop (.isTrue (.argument 2)) [.assign "x" (.argument 1)],
    .leave none]

def retypingShape : MethodShape where
  thisClass := "com/example/Thing"
  isStatic := true
  isConstructor := false
  descriptor := ⟨[.ref (.object .string), .ref (.object ⟨"a/B", by decide⟩), .base .int], none⟩

theorem retyping_patched : ∃ body pool,
    retyping.apply (some (.empty retypingShape)) .empty = .ok (.patched body) pool := by
  have patched : (match retyping.apply (some (.empty retypingShape)) .empty with
    | .ok (.patched _) _ => true
    | _ => false) = true := by decide +kernel
  split at patched
  · next body pool h => exact ⟨body, pool, h⟩
  · cases patched

theorem retyping_wellTyped :
    Stmt.AllWellTyped LeastSubclass ⟨retypingShape, []⟩ retyping.body := by
  have hobject : FieldType.parse "Ljava/lang/Object;" = .ok (.ref (.object .object)) := by
    decide +kernel
  refine ⟨⟨trivial, fun type ht => ?_⟩, ⟨trivial, ⟨trivial, fun type ht => ?_⟩, trivial⟩,
    trivial, trivial⟩
  · rw [hobject] at ht
    cases ht
    exact ⟨_, rfl, .object (.object _)⟩
  · have : type = .object ClassName.object.text := by
      unfold Stmt.scopeAfter at ht
      rw [hobject] at ht
      cases ht
      rfl
    subst this
    exact ⟨_, rfl, .object (.object _)⟩

theorem edges_retyping_of_apply : ∃ body pool,
    retyping.apply (some (.empty retypingShape)) .empty = .ok (.patched body) pool ∧
      ∃ edges, body.edges pool = some edges ∧
        (∀ edge ∈ edges, edge.back = false → edge.Into EditType.Weakens body.frames) ∧
        ((∀ edge ∈ edges, edge.Into (EditType.Below LeastSubclass) body.frames) ↔
          ∀ edge ∈ edges, edge.back = true →
            edge.Into (EditType.NamesBelow LeastSubclass) body.frames) := by
  obtain ⟨body, pool, h⟩ := retyping_patched
  obtain ⟨edges, hedges, ahead, below⟩ := edges_of_apply h
  exact ⟨body, pool, h, edges, hedges, ahead, below LeastSubclass LeastSubclass.hierarchy⟩

/-- The frame in front of the loop keeps the class that the variable has there. -/
theorem retyping_not_below :
    Stmt.AllWellTyped LeastSubclass ⟨retypingShape, []⟩ retyping.body ∧ ∃ body pool,
    retyping.apply (some (.empty retypingShape)) .empty = .ok (.patched body) pool ∧
      ∃ edges, body.edges pool = some edges ∧
        ∃ edge ∈ edges, ¬edge.Into (EditType.Below LeastSubclass) body.frames := by
  refine ⟨retyping_wellTyped, ?_⟩
  obtain ⟨body, pool, h⟩ := retyping_patched
  have retyped : (match retyping.apply (some (.empty retypingShape)) .empty with
    | .ok (.patched body) pool => (body.edges pool).any fun edges => edges.any fun edge =>
      edge.frame.locals[3]? = some (.object "a/B") &&
        (body.frames.find? edge.target).bind (·.locals[3]?) = some (.object "java/lang/String")
    | _ => false) = true := by decide +kernel
  rw [h] at retyped
  obtain ⟨edges, hedges, hany⟩ := (Option.any_eq_true _ _).1 retyped
  obtain ⟨edge, hmem, hedge⟩ := List.any_eq_true.1 hany
  rw [Bool.and_eq_true, decide_eq_true_eq, decide_eq_true_eq] at hedge
  refine ⟨body, pool, h, edges, hedges, edge, hmem, ?_⟩
  rintro ⟨frame, hf, flows⟩
  rw [hf] at hedge
  have below := flows.locals 3 _ hedge.2
  rw [hedge.1] at below
  rcases (below.namesBelow LeastSubclass.hierarchy.refl _ _ rfl rfl).eq_or with he | he | he
  · exact absurd he (by decide)
  · exact absurd he (by decide)
  · exact absurd he (by decide)

end Replacement

end ClassWeave
