import ClassWeave.Proofs.Frame.Halving
import ClassWeave.Proofs.Script.Compiled

/-!
Builders and wide locals. Wherever a builder gets to, no frame that it knows has half of a wide local, whether it is the
frame at the end of the code, the one of a label or what is known of the locals in a region. So the frames of compiled
scripts have none.
-/

namespace ClassWeave

open EditFrame

namespace Builder

variable {B C : Builder} {label : Label} {frame : EditFrame}

/-- Each wide local of a frame that the builder knows is whole. -/
structure Whole (B : Builder) : Prop where
  current (frame : EditFrame) : B.frame = some frame → frame.Whole
  noted (entry : Label × EditFrame) : entry ∈ B.labelFrames → entry.2.Whole
  regions (known : List EditType) : known ∈ B.regions → Frame.Whole (⟨known, []⟩ : EditFrame)

theorem whole_set {frames : FrameTable} (noted : ∀ entry ∈ frames, entry.2.Whole) (whole : frame.Whole)
    (label : Label) : ∀ entry ∈ frames.set label frame, entry.2.Whole := by
  intro entry hm
  rcases FrameTable.mem_set hm with rfl | hm
  · exact whole
  · exact noted entry hm

theorem Jumps.noted {targets : List Label} (hj : Jumps frame targets B C) (whole : frame.Whole)
    (noted : ∀ entry ∈ B.labelFrames, entry.2.Whole) : ∀ entry ∈ C.labelFrames, entry.2.Whole := by
  induction hj with
  | nil => exact noted
  | @cons target rest B C D first others ih =>
    refine ih ?_
    have hrequire : ∀ entry ∈ (B.require target).labelFrames, entry.2.Whole := by
      rw [require_labelFrames]
      exact noted
    cases first with
    | first => exact whole_set hrequire whole target
    | again _ _ merges => exact whole_set hrequire (whole_merge whole merges) target
    | back => exact hrequire

namespace Whole

theorem start (pool : ConstantPool) (labels : LabelSupply) (shape : MethodShape) :
    (Builder.start pool labels shape shape.entryFrame).Whole where
  current frame hf := by
    cases hf
    exact Frame.whole_slotsOf _ _
  noted := nofun
  regions := nofun

theorem withLabels (h : B.Whole) (labels : LabelSupply) : { B with labels := labels }.Whole :=
  ⟨h.current, h.noted, h.regions⟩

/-- What is known of the locals in the open regions is met by the frame behind the node. -/
theorem append (h : B.Whole) (node : Node) (pending : Option Label) : (B.append node pending).Whole where
  current := by
    rw [append_frame]
    exact h.current
  noted := by
    rw [append_labelFrames]
    exact h.noted
  regions known hm := by
    rw [append_regions] at hm
    cases hf : B.frame with
    | none =>
      rw [hf] at hm
      exact h.regions known hm
    | some frame =>
      rw [hf] at hm
      obtain ⟨before, -, rfl⟩ := List.mem_map.1 hm
      have hmeet := whole_meetLocals (h.current frame hf) before []
      rwa [dropHalves_eq_self_iff.2 hmeet]

theorem arrival (h : B.Whole) (arrives : B.arrival? label = some frame) : frame.Whole := by
  have jumped (before : EditFrame) (hf : B.labelFrames.find? label = some before) : before.Whole :=
    h.noted _ (FrameTable.mem_of_find? hf)
  unfold arrival? at arrives
  split at arrives
  · next hcurrent _ => exact whole_merge (h.current _ hcurrent) arrives
  · next hcurrent _ =>
    cases arrives
    exact h.current _ hcurrent
  · exact jumped _ arrives

theorem placed (h : B.Whole) (arrives : B.arrival? label = some frame) : (B.placed label frame).Whole := by
  have whole := h.arrival arrives
  refine append ⟨fun found hf => ?_, whole_set ?_ whole label, ?_⟩ _ _
  · cases hf
    exact whole
  · split
    · exact h.noted
    · rw [require_labelFrames]
      exact h.noted
  · split
    · exact h.regions
    · change ∀ known ∈ (B.require label).regions, _
      rw [require_regions]
      exact h.regions

theorem left (h : B.Whole) {start stop : Label} {catchType : Option String} {known : List EditType}
    {outer : List (List EditType)} (inside : B.regions = known :: outer) :
    (B.left start stop catchType known outer).Whole where
  current := by
    rw [left_frame]
    exact h.current
  noted entry hm := by
    have hknown : Frame.Whole (⟨known, [caughtType catchType]⟩ : EditFrame) :=
      h.regions known (inside ▸ List.mem_cons_self)
    rcases FrameTable.mem_set hm with rfl | hm
    · exact hknown
    · rw [require_labelFrames] at hm
      exact h.noted entry hm
  regions := by
    rw [left_regions]
    exact fun other hm => h.regions other (inside ▸ List.mem_cons_of_mem known hm)

/-- The typing rules halve nothing in the frames behind instructions and jumps, and merges halve nothing at labels. -/
theorem step (h : B.Whole) (hs : Step B C) : C.Whole := by
  cases hs with
  | intern | fresh => exact ⟨h.current, h.noted, h.regions⟩
  | @insn insn before after reachable typed =>
    have whole : after.Whole := Insn.whole_of_verify (h.current before reachable) typed
    have moved : { B with frame := some after }.Whole :=
      ⟨fun _ hf => Option.some.inj hf ▸ whole, h.noted, h.regions⟩
    exact moved.append _ _
  | @branch branch before after D reachable typed known jumps =>
    have whole : after.Whole := Branch.whole_of_verify (h.current before reachable) typed
    have moved : { D with frame := if branch.fallsThrough then some after else none }.Whole := by
      refine ⟨fun frame hf => ?_, jumps.noted whole h.noted, jumps.regions_eq ▸ h.regions⟩
      dsimp only at hf
      split at hf
      · exact Option.some.inj hf ▸ whole
      · cases hf
    exact moved.append _ _
  | place known ahead arrives => exact h.placed arrives
  | stop unreachable => exact (h.withLabels _).append _ _
  | @enter current frame reachable ahead arrives =>
    have placed := (h.withLabels B.labels.fresh.2).placed arrives
    exact ⟨placed.current, placed.noted, List.forall_mem_cons.2 ⟨h.current current reachable, placed.regions⟩⟩
  | leave started stopped inside => exact h.left inside

theorem run (h : B.Whole) (hr : Run B C) : C.Whole := by
  induction hr with
  | refl => exact h
  | tail _ step ih => exact ih.step step

end Whole

end Builder

/-- No frame of a compiled script has half of a wide local. -/
theorem Replacement.whole_of_apply {replacement : Replacement} {old : Option MethodBody} {body : MethodBody}
    {pool pool' : ConstantPool} (h : replacement.apply old pool = .ok (.patched body) pool') :
    ∀ entry ∈ body.frames, entry.2.Whole := by
  obtain ⟨before, builder, -, -, compiled⟩ := compiled_of_apply h
  have whole := (Builder.Whole.start pool ⟨0⟩ before.shape).run compiled.run
  rw [compiled.frames]
  exact fun entry hm => whole.noted entry (List.mem_filter.1 hm).1

end ClassWeave
