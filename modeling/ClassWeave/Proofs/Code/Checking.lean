import ClassWeave.Proofs.Code.Edges
import Mathlib.Data.List.Infix

/-!
Code from a builder passes one linear check, whatever calls it is built with. The frames of labels that are
not placed yet only weaken; once a label is placed its frame stays, and all that has been on its way there
may flow into it.
-/

namespace ClassWeave

namespace Passage

/-- Going through code from its start. -/
def through (pool : ConstantPool) (shape : MethodShape) (frames : FrameTable) (entry : EditFrame)
    (nodes : List Node) : Option Passage :=
  nodes.foldlM (advance pool shape frames) (.start entry)

/-- Control gets behind the nodes, in this frame. -/
def Behind (pool : ConstantPool) (shape : MethodShape) (frames : FrameTable) (entry : EditFrame)
    (nodes : List Node) (frame : EditFrame) : Prop :=
  ∃ passage, through pool shape frames entry nodes = some passage ∧ passage.frame = some frame

end Passage

namespace Fragment

/-- The code passes one linear check, in which labels that have a frame start with that. -/
structure Checks (fragment : Fragment) (pool : ConstantPool) (shape : MethodShape) (entry : EditFrame) :
    Prop where
  /-- Every instruction can run in the frame it gets, and every edge into a label that has a frame or is
  jumped to flows into the frame there. -/
  passes : ∃ passage, Passage.through pool shape fragment.frames entry fragment.nodes = some passage ∧
    passage.frame = fragment.exit ∧
    ∀ edge ∈ passage.edges,
      ∃ frame, fragment.frames.find? edge.target = some frame ∧ edge.frame.isAssignableTo frame = true
  /-- Code behind a branch that does not fall through starts at a label that has a frame. -/
  resumes : ∀ (before : List Node) (branch : Branch Label) (labels : List Label) (node : Node) (behind : List Node),
    fragment.nodes = before ++ .branch branch :: (labels.map .label ++ node :: behind) →
      branch.fallsThrough = false → node.isLabel = false →
        ∃ label ∈ labels, (fragment.frames.find? label).isSome = true
  /-- Wherever control may be in a region, the handler may take over. -/
  handled : ∀ handler ∈ fragment.handlers, ∀ before, before <+: fragment.nodes →
    .label handler.start ∈ before → .label handler.stop ∉ before →
      ∀ frame, Passage.Behind pool shape fragment.frames entry before frame →
        ∃ target, fragment.frames.find? handler.handler = some target ∧
          EditFrame.isAssignableTo ⟨frame.locals, [Builder.caughtType handler.catchType]⟩ target = true

end Fragment

/-- What nothing may use stands for nothing else. -/
theorem EditType.Weakens.top_of_assignable {type : EditType} (h : EditType.assignable .top type = true) :
    type = .top := by
  cases type with
  | top => rfl
  | _ => simp [EditType.assignable] at h

namespace EditFrame

/-- What weakens may flow. -/
theorem Flows.assignable {a b : EditFrame} (h : Flows EditType.Weakens a b) : a.isAssignableTo b = true :=
  isAssignableTo_iff.2 (h.mono fun _ _ => EditType.Weakens.assignable)

/-- What weakens to a frame may flow to wherever that may. -/
theorem Flows.assignable_trans {a b c : EditFrame} (h : Flows EditType.Weakens a b)
    (hbc : b.isAssignableTo c = true) : a.isAssignableTo c = true := by
  apply isAssignableTo_iff.2
  refine h.trans (fun s t u hst htu => ?_) (fun s t ht => ?_) (isAssignableTo_iff.1 hbc)
  · cases hst with
    | refl => exact htu
    | top => exact (EditType.Weakens.top_of_assignable htu) ▸ (EditType.Weakens.top s).assignable
    | null name =>
      cases u with
      | top => exact (EditType.Weakens.top _).assignable
      | object other => exact (EditType.Weakens.null other).assignable
      | _ => simp [EditType.assignable] at htu
  · exact (EditType.Weakens.top_of_assignable ht) ▸ (EditType.Weakens.top s).assignable

end EditFrame

namespace Builder

variable {B C D : Builder} {frame : EditFrame} {label target : Label} {table : FrameTable}

/-- What stays of the tables of a builder on the way to a later state. -/
structure After (B C : Builder) : Prop where
  placed : ∀ l, B.isPlaced l = true → C.isPlaced l = true
  needs : ∀ l ∈ B.needsFrame, l ∈ C.needsFrame
  fixed : ∀ l, B.isPlaced l = true → C.labelFrames.find? l = B.labelFrames.find? l
  weakens : ∀ l f, C.isPlaced l = false → B.labelFrames.find? l = some f →
    ∃ g, C.labelFrames.find? l = some g ∧ f.Flows EditType.Weakens g
  fits : ∀ l f, B.isPlaced l = false → C.isPlaced l = true → B.labelFrames.find? l = some f →
    ∃ g, C.labelFrames.find? l = some g ∧ ∀ e : EditFrame, e.Flows EditType.Weakens f → e.isAssignableTo g = true

theorem After.of_later (h : Later B C) : After B C where
  placed := h.placed
  needs := h.needs
  fixed := h.fixed
  weakens l f _ hf := h.weakens l f hf
  fits l f _ _ hf := by
    obtain ⟨g, hg, flows⟩ := h.weakens l f hf
    exact ⟨g, hg, fun e he => (he.weakens_trans flows).assignable⟩

theorem Records.before (h : After B C) (hr : Records C table) : Records B table := by
  intro l hp
  rcases hr l (h.placed l hp) with hf | ⟨hneeds, hf⟩
  · exact .inl (hf.trans (h.fixed l hp))
  · exact .inr ⟨fun hm => hneeds (h.needs l hm), hf⟩

/-- A label has a frame into which a frame on its way there may flow, and a table of the frames has it. -/
structure Received (B : Builder) (table : FrameTable) (arriving : EditFrame) (target : Label) (frame : EditFrame) :
    Prop where
  framed : B.labelFrames.find? target = some frame
  recorded : target ∈ B.needsFrame ∨ B.isPlaced target = true ∧ table.find? target = some frame
  fits : B.isPlaced target = true → arriving.isAssignableTo frame = true
  weakens : B.isPlaced target = false → arriving.Flows EditType.Weakens frame

theorem Received.later {arriving : EditFrame} (h : After B C) (hr : Received B table arriving target frame) :
    ∃ f, Received C table arriving target f := by
  cases hp : B.isPlaced target with
  | true =>
    have hp' : C.isPlaced target = true := h.placed target hp
    refine ⟨frame, (h.fixed target hp).trans hr.framed, ?_, fun _ => hr.fits hp, fun hn => ?_⟩
    · exact hr.recorded.imp (h.needs target) fun hrec => ⟨hp', hrec.2⟩
    · rw [hp'] at hn
      cases hn
  | false =>
    have hneeds : target ∈ C.needsFrame := by
      rcases hr.recorded with hm | ⟨hp', -⟩
      · exact h.needs target hm
      · rw [hp] at hp'
        cases hp'
    cases hp' : C.isPlaced target with
    | true =>
      obtain ⟨g, hg, hfits⟩ := h.fits target frame hp hp' hr.framed
      refine ⟨g, hg, .inl hneeds, fun _ => hfits arriving (hr.weakens hp), fun hn => ?_⟩
      rw [hp'] at hn
      cases hn
    | false =>
      obtain ⟨g, hg, flows⟩ := h.weakens target frame hp' hr.framed
      refine ⟨g, hg, .inl hneeds, fun hn => ?_, fun _ => (hr.weakens hp).weakens_trans flows⟩
      rw [hp'] at hn
      cases hn

theorem Jump.received (h : Jump B frame target C) (table : FrameTable) :
    ∃ f, Received C table frame target f := by
  have needed : target ∈ C.needsFrame := h.mem_needs.2 (.inl rfl)
  have unplaced (ahead : B.isPlaced target = false) : C.isPlaced target = false :=
    (isPlaced_congr h.nodes_eq).trans ahead
  cases h with
  | first unframed ahead =>
    refine ⟨frame, ?_, .inl needed, fun hp => ?_, fun _ => .refl .refl frame⟩
    · rw [find?_setFrame, if_pos rfl]
    · rw [unplaced ahead] at hp
      cases hp
  | @again expected merged framed ahead merges =>
    refine ⟨merged, ?_, .inl needed, fun hp => ?_, fun _ => EditFrame.flows_merge_right merges⟩
    · rw [find?_setFrame, if_pos rfl]
    · rw [unplaced ahead] at hp
      cases hp
  | @back expected framed placed flows =>
    refine ⟨expected, ?_, .inl needed, fun _ => flows, fun hp => ?_⟩
    · rw [require_labelFrames, framed]
    · rw [isPlaced_congr (require_nodes B target), placed] at hp
      cases hp

theorem Jumps.received {targets : List Label} (h : Jumps frame targets B C) (table : FrameTable) :
    ∀ target ∈ targets, ∃ f, Received C table frame target f := by
  induction h with
  | nil => exact fun target hm => absurd hm List.not_mem_nil
  | @cons first rest B C D jump others ih =>
    intro target hm
    rcases List.mem_cons.1 hm with rfl | hm
    · obtain ⟨f, hf⟩ := jump.received table
      exact hf.later (.of_later (.jumps others))
    · exact ih target hm

/-- A label is put behind the code, with a frame into which everything that gets there may flow. -/
structure Lays (B C : Builder) (label : Label) (frame : EditFrame) : Prop where
  ahead : B.isPlaced label = false
  nodes : C.nodes = .label label :: B.nodes
  reached : C.frame = some frame
  pending : C.pending = some label
  framed : ∀ l, C.labelFrames.find? l = if l = label then some frame else B.labelFrames.find? l
  needs : ∀ l ∈ B.needsFrame, l ∈ C.needsFrame
  needed : label ∈ C.needsFrame ∨ B.frame = some frame ∧ B.labelFrames.find? label = none
  falls : ∀ current, B.frame = some current → current.isAssignableTo frame = true
  jumped : ∀ f, B.labelFrames.find? label = some f → ∀ e : EditFrame, e.Flows EditType.Weakens f →
    e.isAssignableTo frame = true
  regions : C.regions = B.regions.map fun known =>
    EditFrame.dropHalves (EditFrame.meetLocals known frame.locals)
  handlers : C.handlers = B.handlers

theorem lays_placed (ahead : B.isPlaced label = false) (arrives : B.arrival? label = some frame)
    (awaited : ∀ f, B.labelFrames.find? label = some f → label ∈ B.needsFrame) :
    Lays B (B.placed label frame) label frame where
  ahead := ahead
  nodes := placed_nodes B label frame
  reached := placed_frame B label frame
  pending := placed_pending B label frame
  framed := find?_placed B label frame
  needs l hl := (mem_placed B label frame).2 (.inl hl)
  needed := by
    cases hj : B.labelFrames.find? label with
    | some f => exact .inl ((mem_placed B label frame).2 (.inl (awaited f hj)))
    | none =>
      cases hc : B.frame with
      | none => exact .inl ((mem_placed B label frame).2 (.inr ⟨rfl, hc⟩))
      | some current =>
        unfold arrival? at arrives
        rw [hc, hj] at arrives
        exact .inr ⟨arrives, rfl⟩
  falls current hc := by
    unfold arrival? at arrives
    rw [hc] at arrives
    cases hj : B.labelFrames.find? label with
    | none =>
      rw [hj] at arrives
      rw [← Option.some.inj arrives]
      exact (EditFrame.Flows.refl .refl current).assignable
    | some jumped =>
      rw [hj] at arrives
      exact (EditFrame.flows_merge_right arrives).assignable
  jumped f hf e he := (he.weakens_trans (Later.arrival arrives hf)).assignable
  regions := by
    unfold placed
    rw [append_regions]
    dsimp only
    split <;> simp [setFrame]
  handlers := placed_handlers B label frame

/-- The builder with a label at its end that has a given frame. -/
def put (B : Builder) (label : Label) (frame : EditFrame) : Builder :=
  { (B.require label).setFrame label frame with frame := some frame }.append (.label label) (some label)

theorem lays_put (ahead : B.isPlaced label = false)
    (flows : ∀ arriving ∈ B.frame.toList ++ (B.labelFrames.find? label).toList, arriving.isAssignableTo frame = true) :
    Lays B (B.put label frame) label frame where
  ahead := ahead
  nodes := (append_nodes _ _ _).trans (congrArg _ (require_nodes B label))
  reached := append_frame _ _ _
  pending := append_pending _ _ _
  framed l := by
    unfold put
    rw [append_labelFrames]
    exact (find?_setFrame _ _ _ _).trans (by rw [require_labelFrames])
  needs l hl := by
    unfold put
    rw [append_needsFrame]
    exact (mem_require B label).2 (.inr hl)
  needed := by
    left
    unfold put
    rw [append_needsFrame]
    exact (mem_require B label).2 (.inl rfl)
  falls current hc := flows current (List.mem_append_left _ (by rw [hc]; exact List.mem_singleton_self _))
  jumped f hf e he :=
    he.assignable_trans (flows f (List.mem_append_right _ (by rw [hf]; exact List.mem_singleton_self _)))
  regions := by
    unfold put
    rw [append_regions]
    exact congrArg _ (require_regions B label)
  handlers := (append_handlers _ _ _).trans (require_handlers B label)

namespace Lays

variable (h : Lays B C label frame)
include h

theorem isPlaced_iff {l : Label} : C.isPlaced l = true ↔ l = label ∨ B.isPlaced l = true := by
  rw [Builder.isPlaced_iff, Builder.isPlaced_iff, h.nodes, List.mem_cons]
  simp

theorem after : After B C where
  placed l hp := h.isPlaced_iff.2 (.inr hp)
  needs := h.needs
  fixed l hp := by
    have hne : l ≠ label := fun he => by rw [he, h.ahead] at hp; cases hp
    rw [h.framed, if_neg hne]
  weakens l f hp hf := by
    have hne : l ≠ label := fun he => by
      rw [h.isPlaced_iff.2 (.inl he)] at hp
      cases hp
    exact ⟨f, by rw [h.framed, if_neg hne, hf], .refl .refl f⟩
  fits l f hb hc hf := by
    have he : l = label := by
      rcases h.isPlaced_iff.1 hc with he | hp
      · exact he
      · rw [hb] at hp
        cases hp
    rw [he] at hf
    exact ⟨frame, by rw [h.framed, if_pos he], h.jumped f hf⟩

theorem received {current : EditFrame} (hc : B.frame = some current) (hf : table.find? label = some frame) :
    Received C table current label frame := by
  have hp : C.isPlaced label = true := h.isPlaced_iff.2 (.inl rfl)
  refine ⟨by rw [h.framed, if_pos rfl], .inr ⟨hp, hf⟩, fun _ => h.falls current hc, fun hn => ?_⟩
  rw [hp] at hn
  cases hn

end Lays

/-- The passage is where the builder is. -/
structure Follows (B : Builder) (table : FrameTable) (passage : Passage) : Prop where
  passed : ∀ l, l ∈ passage.passed ↔ B.isPlaced l = true
  pending : passage.pending = B.pending
  frame : passage.frame = B.frame
  edges : ∀ edge ∈ passage.edges, ∃ f, Received B table edge.frame edge.target f

namespace Follows

variable {passage : Passage} (h : Follows B table passage)
include h

theorem later (after : After B C) (hn : C.nodes = B.nodes) (hp : C.pending = B.pending)
    (hf : C.frame = B.frame) : Follows C table passage where
  passed l := (h.passed l).trans (by rw [isPlaced_congr hn])
  pending := h.pending.trans hp.symm
  frame := h.frame.trans hf.symm
  edges edge hm := by
    obtain ⟨f, hr⟩ := h.edges edge hm
    exact hr.later after

/-- Behind a node that is no label the passage is in the builder's frame, with the edges of the node. -/
theorem instruction (after : After B C) {node : Node} (hnode : node.isLabel = false)
    (hn : C.nodes = node :: B.nodes) (hp : C.pending = none) {behind : Option EditFrame}
    (hf : C.frame = behind) {edges : List Edge}
    (he : ∀ edge ∈ edges, ∃ f, Received C table edge.frame edge.target f) :
    Follows C table ⟨passage.passed, none, behind, edges ++ passage.edges⟩ where
  passed l := by
    rw [h.passed l, isPlaced_iff, isPlaced_iff, hn, List.mem_cons]
    refine ⟨.inr, fun hm => hm.resolve_left fun heq => ?_⟩
    rw [← heq] at hnode
    cases hnode
  pending := hp.symm
  frame := hf.symm
  edges edge hm := by
    rcases List.mem_append.1 hm with hm | hm
    · exact he edge hm
    · obtain ⟨f, hr⟩ := h.edges edge hm
      exact hr.later after

/-- A label starts with the frame that the table has for it, or with what falls into it. -/
theorem enter (lays : Lays B C label frame) (records : Records C table) :
    Follows C table (passage.enter table label) := by
  have hp : C.isPlaced label = true := lays.isPlaced_iff.2 (.inl rfl)
  have passed : ∀ l, l ∈ label :: passage.passed ↔ C.isPlaced l = true := by
    intro l
    rw [List.mem_cons, h.passed l, lays.isPlaced_iff]
  have kept : ∀ edge ∈ passage.edges, ∃ f, Received C table edge.frame edge.target f := by
    intro edge hm
    obtain ⟨f, hr⟩ := h.edges edge hm
    exact hr.later lays.after
  have framed : C.labelFrames.find? label = some frame := by rw [lays.framed, if_pos rfl]
  unfold Passage.enter
  rcases records label hp with hf | ⟨hneeds, hf⟩
  · rw [framed] at hf
    rw [hf]
    refine ⟨passed, lays.pending.symm, lays.reached.symm, fun edge hm => ?_⟩
    rcases List.mem_append.1 hm with hm | hm
    · obtain ⟨current, hc, rfl⟩ := List.mem_map.1 hm
      have hcurrent : B.frame = some current := by
        rw [← h.frame]
        exact Option.mem_toList.1 hc
      exact ⟨frame, lays.received hcurrent hf⟩
    · exact kept edge hm
  · rw [hf]
    refine ⟨passed, lays.pending.symm, ?_, kept⟩
    -- Without a frame the label is only fallen into.
    rcases lays.needed with hm | ⟨hcurrent, -⟩
    · exact absurd hm hneeds
    · exact h.frame.trans (hcurrent.trans lays.reached.symm)

end Follows

end Builder

end ClassWeave
