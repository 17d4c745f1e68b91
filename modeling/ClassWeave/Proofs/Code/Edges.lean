import ClassWeave.Proofs.Code.Soundness
import ClassWeave.Proofs.Frame.Hierarchy

/-!
Going once through the code of a body with the frames that are recorded at its labels gives the frame of
every edge into one of them. For code from a builder that way never gets stuck, and meets the frames
that the builder had.
-/

namespace ClassWeave

/-- Control gets to a label, by a jump or by falling into it. A jump back is one to a label in front of
it. -/
structure Edge where
  frame : EditFrame
  target : Label
  back : Bool
  deriving DecidableEq

/-- The frame of the edge is related to the one at its target, which has one. -/
def Edge.Into (r : EditType → EditType → Prop) (frames : FrameTable) (edge : Edge) : Prop :=
  ∃ frame, frames.find? edge.target = some frame ∧ edge.frame.Flows r frame

/-- How far the code has been gone through. -/
structure Passage where
  passed : List Label
  /-- Label right behind the last instruction. -/
  pending : Option Label
  /-- Frame behind the last node, if control gets there. -/
  frame : Option EditFrame
  edges : List Edge

namespace Passage

def start (entry : EditFrame) : Passage := ⟨[], none, some entry, []⟩

/-- A label with a frame takes the place of whatever falls into it. -/
def enter (frames : FrameTable) (passage : Passage) (label : Label) : Passage :=
  match frames.find? label with
  | none => { passage with passed := label :: passage.passed, pending := some label }
  | some frame =>
    ⟨label :: passage.passed, some label, some frame,
      passage.frame.toList.map (⟨·, label, false⟩) ++ passage.edges⟩

def advance (pool : ConstantPool) (shape : MethodShape) (frames : FrameTable) (passage : Passage) :
    Node → Option Passage
  | .label label => some (passage.enter frames label)
  | .insn insn => do
    let before ← passage.frame
    let ((), after) ← (insn.verify pool shape.thisClass passage.pending before).toOption
    return { passage with pending := none, frame := some after }
  | .branch branch => do
    let before ← passage.frame
    let ((), after) ← (branch.verify shape.returnType before).toOption
    return ⟨passage.passed, none, if branch.fallsThrough then some after else none,
      branch.jumpTargets.map (fun target => ⟨after, target, passage.passed.contains target⟩)
        ++ passage.edges⟩

end Passage

/-- The edges into labels with frames, if every instruction can run in the frame that it gets. -/
def MethodBody.edges (body : MethodBody) (pool : ConstantPool) : Option (List Edge) :=
  (body.nodes.foldlM (Passage.advance pool body.shape body.frames)
    (.start body.shape.entryFrame)).map Passage.edges

namespace Builder

variable {B C D : Builder} {frame : EditFrame} {label target : Label}

/-- Frames at labels only weaken on the way to a later state, and those at placed labels stay. -/
structure Later (B C : Builder) : Prop where
  placed : ∀ l, B.isPlaced l = true → C.isPlaced l = true
  needs : ∀ l ∈ B.needsFrame, l ∈ C.needsFrame
  fixed : ∀ l, B.isPlaced l = true → C.labelFrames.find? l = B.labelFrames.find? l
  weakens : ∀ l f, B.labelFrames.find? l = some f →
    ∃ g, C.labelFrames.find? l = some g ∧ f.Flows EditType.Weakens g

namespace Later

theorem of_eq (hn : C.nodes = B.nodes) (hneeds : C.needsFrame = B.needsFrame)
    (hf : C.labelFrames = B.labelFrames) : Later B C where
  placed l hp := (isPlaced_congr hn).trans hp
  needs l hl := hneeds ▸ hl
  fixed l _ := by rw [hf]
  weakens l f h := ⟨f, hf ▸ h, .refl .refl f⟩

theorem trans (h : Later B C) (h' : Later C D) : Later B D where
  placed l hp := h'.placed l (h.placed l hp)
  needs l hl := h'.needs l (h.needs l hl)
  fixed l hp := (h'.fixed l (h.placed l hp)).trans (h.fixed l hp)
  weakens l f hf := by
    obtain ⟨g, hg, hfg⟩ := h.weakens l f hf
    obtain ⟨k, hk, hgk⟩ := h'.weakens l g hg
    exact ⟨k, hk, hfg.weakens_trans hgk⟩

theorem append (B : Builder) (node : Node) (pending : Option Label) :
    Later B (B.append node pending) where
  placed l hp := by
    rw [isPlaced_iff] at hp ⊢
    rw [append_nodes]
    exact List.mem_cons_of_mem _ hp
  needs l hl := by rwa [append_needsFrame]
  fixed l _ := by rw [append_labelFrames]
  weakens l f hf := ⟨f, by rwa [append_labelFrames], .refl .refl f⟩

/-- The frame of a label that is not placed may change to one that knows less. -/
theorem setFrame (ahead : B.isPlaced label = false)
    (flows : ∀ f, B.labelFrames.find? label = some f → f.Flows EditType.Weakens frame) :
    Later B (B.setFrame label frame) where
  placed l hp := hp
  needs l hl := hl
  fixed l hp := by
    have hne : l ≠ label := fun he => by rw [he, ahead] at hp; cases hp
    rw [find?_setFrame, if_neg hne]
  weakens l f hf := by
    rw [find?_setFrame]
    split
    · next he => exact ⟨frame, rfl, flows f (he ▸ hf)⟩
    · exact ⟨f, hf, .refl .refl f⟩

theorem require (B : Builder) (label : Label) : Later B (B.require label) where
  placed l hp := (isPlaced_congr (require_nodes B label)).trans hp
  needs l hl := (mem_require B label).2 (.inr hl)
  fixed l _ := by rw [require_labelFrames]
  weakens l f hf := ⟨f, by rwa [require_labelFrames], .refl .refl f⟩

theorem jump (h : Jump B frame target C) : Later B C := by
  have hplaced : (B.require target).isPlaced target = B.isPlaced target :=
    isPlaced_congr (require_nodes B target)
  cases h with
  | first unframed ahead =>
    refine (require B target).trans (setFrame (hplaced.trans ahead) fun f hf => ?_)
    rw [require_labelFrames, unframed] at hf
    cases hf
  | again framed ahead merges =>
    refine (require B target).trans (setFrame (hplaced.trans ahead) fun f hf => ?_)
    rw [require_labelFrames, framed] at hf
    cases hf
    exact EditFrame.flows_merge_left merges
  | back => exact require B target

theorem jumps {targets : List Label} (h : Jumps frame targets B C) : Later B C := by
  induction h with
  | nil B => exact of_eq rfl rfl rfl
  | cons first _ ih => exact (jump first).trans ih

/-- The frame of the builder does not matter. -/
theorem ended (B : Builder) (after : Option EditFrame) (node : Node) :
    Later B ({ B with frame := after }.append node none) :=
  (of_eq rfl rfl rfl : Later B { B with frame := after }).trans (append _ _ _)

theorem arrival (h : B.arrival? label = some frame) {f : EditFrame}
    (hf : B.labelFrames.find? label = some f) : f.Flows EditType.Weakens frame := by
  unfold arrival? at h
  rw [hf] at h
  cases hc : B.frame with
  | none =>
    rw [hc] at h
    cases h
    exact .refl .refl frame
  | some current =>
    rw [hc] at h
    exact EditFrame.flows_merge_left h

theorem place (ahead : B.isPlaced label = false) (arrives : B.arrival? label = some frame) :
    Later B (B.placed label frame) where
  placed l hp := by
    rw [isPlaced_iff] at hp ⊢
    rw [placed_nodes]
    exact List.mem_cons_of_mem _ hp
  needs l hl := (mem_placed B label frame).2 (.inl hl)
  fixed l hp := by
    have hne : l ≠ label := fun he => by rw [he, ahead] at hp; cases hp
    rw [find?_placed, if_neg hne]
  weakens l f hf := by
    rw [find?_placed]
    split
    · next he => exact ⟨frame, rfl, arrival arrives (he ▸ hf)⟩
    · exact ⟨f, hf, .refl .refl f⟩

theorem leave (h : Bookkept B) {start stop : Label} {catchType : Option String}
    {known : List EditType} {outer : List (List EditType)} :
    Later B (B.left start stop catchType known outer) where
  placed l hp := (isPlaced_congr (left_nodes _ _ _ _ _ _)).trans hp
  needs l hl := (mem_left _ _ _ _ _ _).2 (.inr hl)
  fixed l hp := by
    have hne : l ≠ B.labels.fresh.1 := fun he => Nat.lt_irrefl _ (he ▸ h.placed_lt l hp)
    rw [find?_left, if_neg hne]
  weakens l f hf := by
    have hne : l ≠ B.labels.fresh.1 := fun he => Nat.lt_irrefl _ (he ▸ h.framed_lt l f hf)
    exact ⟨f, by rw [find?_left, if_neg hne, hf], .refl .refl f⟩

theorem branch {branch : Branch Label} {after : EditFrame}
    (h : Jumps after branch.jumpTargets { B with frame := none } C) :
    Later B ({ C with frame := if branch.fallsThrough then some after else none }.append (.branch branch) none) := by
  have cut : Later B { B with frame := none } := of_eq rfl rfl rfl
  exact (cut.trans (jumps h)).trans (ended C _ _)

theorem step (h : Bookkept B) (hs : Step B C) : Later B C := by
  cases hs with
  | intern => exact of_eq rfl rfl rfl
  | fresh => exact of_eq rfl rfl rfl
  | insn => exact ended B _ _
  | branch _ _ _ jumps => exact branch jumps
  | place known ahead arrives => exact place ahead arrives
  | stop =>
    exact (of_eq rfl rfl rfl : Later B { B with labels := B.labels.fresh.2 }).trans (append _ _ _)
  | @enter current frame reachable ahead arrives =>
    have fresh : Later B { B with labels := B.labels.fresh.2 } := of_eq rfl rfl rfl
    exact (fresh.trans (place ahead arrives)).trans (of_eq rfl rfl rfl)
  | leave => exact leave h

end Later

/-- A table has the frames of the placed labels, or for a label that needs none may have none. -/
def Records (B : Builder) (table : FrameTable) : Prop :=
  ∀ l, B.isPlaced l = true →
    table.find? l = B.labelFrames.find? l ∨ (l ∉ B.needsFrame ∧ table.find? l = none)

theorem Records.earlier {table : FrameTable} (h : Later B C) (hr : Records C table) :
    Records B table := fun l hp => by
  rcases hr l (h.placed l hp) with hf | ⟨hneeds, hf⟩
  · exact .inl (hf.trans (h.fixed l hp))
  · exact .inr ⟨fun hm => hneeds (h.needs l hm), hf⟩

/-- An edge ends well: ahead it flows into the frame of its target in every hierarchy, and back it passed
the check of a jump. -/
structure Accepted (B : Builder) (table : FrameTable) (edge : Edge) (frame : EditFrame) : Prop where
  framed : B.labelFrames.find? edge.target = some frame
  recorded : edge.target ∈ B.needsFrame ∨
    B.isPlaced edge.target = true ∧ table.find? edge.target = some frame
  ahead : edge.back = false → edge.frame.Flows EditType.Weakens frame
  behind : edge.back = true → B.isPlaced edge.target = true ∧ edge.frame.isAssignableTo frame = true

theorem Accepted.later {table : FrameTable} {edge : Edge} (h : Later B C)
    (ha : Accepted B table edge frame) : ∃ f, Accepted C table edge f := by
  cases hp : B.isPlaced edge.target with
  | true =>
    refine ⟨frame, (h.fixed _ hp).trans ha.framed, ?_, ha.ahead, fun hb => ?_⟩
    · exact ha.recorded.imp (h.needs _) fun hr => ⟨h.placed _ hp, hr.2⟩
    · exact ⟨h.placed _ hp, (ha.behind hb).2⟩
  | false =>
    obtain ⟨g, hg, flows⟩ := h.weakens _ _ ha.framed
    refine ⟨g, hg, .inl ?_, fun hb => (ha.ahead hb).weakens_trans flows, fun hb => ?_⟩
    · rcases ha.recorded with hm | ⟨hp', -⟩
      · exact h.needs _ hm
      · rw [hp] at hp'
        cases hp'
    · have hp' := (ha.behind hb).1
      rw [hp] at hp'
      cases hp'

/-- The passage is where the builder is. -/
structure Matches (B : Builder) (table : FrameTable) (passage : Passage) : Prop where
  passed : ∀ l, l ∈ passage.passed ↔ B.isPlaced l = true
  pending : passage.pending = B.pending
  frame : passage.frame = B.frame
  edges : ∀ edge ∈ passage.edges, ∃ f, Accepted B table edge f

theorem Matches.later {table : FrameTable} {passage : Passage} (h : Matches B table passage)
    (hl : Later B C) (hn : C.nodes = B.nodes) (hp : C.pending = B.pending)
    (hf : C.frame = B.frame) : Matches C table passage where
  passed l := (h.passed l).trans (by rw [isPlaced_congr hn])
  pending := h.pending.trans hp.symm
  frame := h.frame.trans hf.symm
  edges edge hm := by
    obtain ⟨f, ha⟩ := h.edges edge hm
    exact ha.later hl

/-- Any table of the frames and any greater pool leads through the code built so far. -/
structure Followed (entry : EditFrame) (B : Builder) : Prop where
  awaited : ∀ l f, B.labelFrames.find? l = some f → B.isPlaced l = true ∨ l ∈ B.needsFrame
  passage : ∀ (pool : ConstantPool) (table : FrameTable), B.pool ≤ pool → Records B table →
    ∃ passage, B.nodes.reverse.foldlM (Passage.advance pool B.shape table) (.start entry) = some passage ∧
      Matches B table passage

theorem Jump.accepted (h : Jump B frame target C) (table : FrameTable) :
    ∃ f, Accepted C table ⟨frame, target, B.isPlaced target⟩ f := by
  have needed : target ∈ C.needsFrame := h.mem_needs.2 (.inl rfl)
  cases h with
  | first unframed ahead =>
    refine ⟨frame, ?_, .inl needed, fun _ => .refl .refl frame, fun hb => ?_⟩
    · rw [find?_setFrame, if_pos rfl]
    · rw [ahead] at hb
      cases hb
  | @again expected merged framed ahead merges =>
    refine ⟨merged, ?_, .inl needed, fun _ => EditFrame.flows_merge_right merges, fun hb => ?_⟩
    · rw [find?_setFrame, if_pos rfl]
    · rw [ahead] at hb
      cases hb
  | @back expected framed placed flows =>
    refine ⟨expected, ?_, .inl needed, fun hb => ?_, fun _ => ⟨?_, flows⟩⟩
    · rw [require_labelFrames, framed]
    · rw [placed] at hb
      cases hb
    · exact (isPlaced_congr (require_nodes B target)).trans placed

theorem Jumps.accepted {targets : List Label} (h : Jumps frame targets B C) (table : FrameTable) :
    ∀ target ∈ targets, ∃ f, Accepted C table ⟨frame, target, B.isPlaced target⟩ f := by
  induction h with
  | nil => exact fun target hm => absurd hm List.not_mem_nil
  | @cons first rest B C D jump others ih =>
    intro target hm
    rcases List.mem_cons.1 hm with rfl | hm
    · obtain ⟨f, ha⟩ := jump.accepted table
      exact ha.later (.jumps others)
    · rw [← isPlaced_congr jump.nodes_eq]
      exact ih target hm

theorem Matches.pass {table : FrameTable} {passage : Passage} (h : Matches B table passage)
    (ahead : B.isPlaced label = false) (arrives : B.arrival? label = some frame)
    (awaited : ∀ f, B.labelFrames.find? label = some f → label ∈ B.needsFrame)
    (records : Records (B.placed label frame) table) :
    Matches (B.placed label frame) table (passage.enter table label) := by
  have placed : (B.placed label frame).isPlaced label = true := by
    rw [isPlaced_iff, placed_nodes]
    exact List.mem_cons_self
  have framed : (B.placed label frame).labelFrames.find? label = some frame := by
    rw [find?_placed, if_pos rfl]
  have passed : ∀ l, l ∈ label :: passage.passed ↔ (B.placed label frame).isPlaced l = true := by
    intro l
    rw [List.mem_cons, h.passed l, isPlaced_iff, isPlaced_iff, placed_nodes, List.mem_cons]
    simp
  have kept : ∀ edge ∈ passage.edges, ∃ f, Accepted (B.placed label frame) table edge f := by
    intro edge hm
    obtain ⟨f, ha⟩ := h.edges edge hm
    exact ha.later (.place ahead arrives)
  unfold Passage.enter
  rcases records label placed with hf | ⟨hneeds, hf⟩
  · rw [framed] at hf
    rw [hf]
    refine ⟨passed, (placed_pending _ _ _).symm, (placed_frame _ _ _).symm, fun edge hm => ?_⟩
    rcases List.mem_append.1 hm with hm | hm
    · obtain ⟨current, hc, rfl⟩ := List.mem_map.1 hm
      refine ⟨frame, framed, .inr ⟨placed, hf⟩, fun _ => ?_, fun hb => by cases hb⟩
      have hcurrent : B.frame = some current := by
        rw [← h.frame]
        exact Option.mem_toList.1 hc
      unfold arrival? at arrives
      rw [hcurrent] at arrives
      cases hj : B.labelFrames.find? label with
      | none =>
        rw [hj] at arrives
        cases arrives
        exact .refl .refl _
      | some jumped =>
        rw [hj] at arrives
        exact EditFrame.flows_merge_right arrives
    · exact kept edge hm
  · rw [hf]
    refine ⟨passed, (placed_pending _ _ _).symm, ?_, kept⟩
    -- Without a frame the label is only fallen into.
    rw [mem_placed] at hneeds
    have hnone : B.labelFrames.find? label = none := by
      cases hj : B.labelFrames.find? label with
      | none => rfl
      | some f => exact absurd (.inl (awaited f hj)) hneeds
    rw [placed_frame, ← arrives]
    unfold arrival?
    rw [hnone, h.frame]
    cases hc : B.frame with
    | none => exact absurd (.inr ⟨rfl, hc⟩) hneeds
    | some current => rfl

/-- Behind a node that is no label the passage is in the builder's frame, with the edges of the node. -/
theorem Matches.instruction {table : FrameTable} {passage : Passage} (h : Matches B table passage)
    (later : Later B C) {node : Node} (hnode : node.isLabel = false) (hn : C.nodes = node :: B.nodes)
    (hp : C.pending = none) {after : Option EditFrame} (hf : C.frame = after) {edges : List Edge}
    (he : ∀ edge ∈ edges, ∃ f, Accepted C table edge f) :
    Matches C table ⟨passage.passed, none, after, edges ++ passage.edges⟩ where
  passed l := by
    rw [h.passed l, isPlaced_iff, isPlaced_iff, hn, List.mem_cons]
    refine ⟨.inr, fun hm => hm.resolve_left fun heq => ?_⟩
    rw [← heq] at hnode
    cases hnode
  pending := hp.symm
  frame := hf.symm
  edges edge hm := by
    rcases List.mem_append.1 hm with hm | hm
    · exact he edge hm
    · obtain ⟨f, ha⟩ := h.edges edge hm
      exact ha.later later

theorem Matches.stop {table : FrameTable} {passage : Passage} (h : Matches B table passage) (hb : Bookkept B)
    (unreachable : B.frame = none)
    (records : Records ({ B with labels := B.labels.fresh.2 }.append (.label B.labels.fresh.1)
      (some B.labels.fresh.1)) table) :
    Matches ({ B with labels := B.labels.fresh.2 }.append (.label B.labels.fresh.1)
      (some B.labels.fresh.1)) table (passage.enter table B.labels.fresh.1) := by
  have later : Later B ({ B with labels := B.labels.fresh.2 }.append (.label B.labels.fresh.1)
      (some B.labels.fresh.1)) := .step hb (.stop unreachable)
  have unframed : B.labelFrames.find? B.labels.fresh.1 = none := by
    cases hf : B.labelFrames.find? B.labels.fresh.1 with
    | none => rfl
    | some f => exact absurd (hb.framed_lt _ f hf) (Nat.lt_irrefl _)
  have unrecorded : table.find? B.labels.fresh.1 = none := by
    rcases records B.labels.fresh.1 ((isPlaced_iff _ _).2 (by simp)) with hf | ⟨-, hf⟩
    · rwa [append_labelFrames, unframed] at hf
    · exact hf
  unfold Passage.enter
  rw [unrecorded]
  refine ⟨fun l => ?_, (append_pending _ _ _).symm, ?_, fun edge hm => ?_⟩
  · rw [List.mem_cons, h.passed l, isPlaced_iff, isPlaced_iff, append_nodes, List.mem_cons]
    simp
  · rw [append_frame]
    exact h.frame
  · obtain ⟨f, ha⟩ := h.edges edge hm
    exact ha.later later

theorem awaited_step (h : Bookkept B) (hs : Step B C)
    (awaited : ∀ l f, B.labelFrames.find? l = some f → B.isPlaced l = true ∨ l ∈ B.needsFrame) :
    ∀ l f, C.labelFrames.find? l = some f → C.isPlaced l = true ∨ l ∈ C.needsFrame := by
  intro l f hf
  have later := Later.step h hs
  have carried : B.labelFrames.find? l = some f → C.isPlaced l = true ∨ l ∈ C.needsFrame :=
    fun hb => (awaited l f hb).imp (later.placed l) (later.needs l)
  cases hs with
  | intern => exact carried hf
  | fresh => exact carried hf
  | insn => exact carried (by rwa [append_labelFrames] at hf)
  | @branch branch before after D reachable typed known jumps =>
    rw [append_labelFrames] at hf
    by_cases hm : l ∈ branch.jumpTargets
    · right
      rw [append_needsFrame]
      exact jumps.mem_needs.2 (.inl hm)
    · exact carried ((jumps.find?_of_notMem hm).symm.trans hf)
  | @place label frame known ahead arrives =>
    by_cases he : l = label
    · left
      rw [isPlaced_iff, placed_nodes, he]
      exact List.mem_cons_self
    · rw [find?_placed, if_neg he] at hf
      exact carried hf
  | stop => exact carried (by rwa [append_labelFrames] at hf)
  | @enter current frame reachable ahead arrives =>
    by_cases he : l = B.labels.fresh.1
    · left
      rw [isPlaced_iff, opened_nodes, placed_nodes, he]
      exact List.mem_cons_self
    · refine carried ?_
      change (Builder.placed _ _ _).labelFrames.find? l = some f at hf
      rwa [find?_placed, if_neg he] at hf
  | leave =>
    by_cases he : l = B.labels.fresh.1
    · exact .inr ((mem_left _ _ _ _ _ _).2 (.inl he))
    · rw [find?_left, if_neg he] at hf
      exact carried hf

theorem followed_start (pool : ConstantPool) (labels : LabelSupply) (shape : MethodShape)
    (entry : EditFrame) : Followed entry (start pool labels shape entry) where
  awaited l f hf := by cases hf
  passage _ table _ _ :=
    ⟨.start entry, rfl, fun l => by simp [Passage.start, isPlaced, start], rfl, rfl,
      fun edge hm => absurd hm List.not_mem_nil⟩

/-- One more node is one more advance. -/
theorem foldlM_advance {advance : Passage → Node → Option Passage} {first passage next : Passage} {node : Node}
    (hn : C.nodes = node :: B.nodes) (hw : B.nodes.reverse.foldlM advance first = some passage)
    (ha : advance passage node = some next) : C.nodes.reverse.foldlM advance first = some next := by
  rw [hn, List.reverse_cons, List.foldlM_append, hw]
  change List.foldlM advance passage [node] = some next
  rw [List.foldlM_cons, ha]
  rfl

theorem Followed.step {entry : EditFrame} (h : Followed entry B) (hb : Bookkept B)
    (hs : Step B C) : Followed entry C where
  awaited := awaited_step hb hs h.awaited
  passage pool table hle records := by
    have later := Later.step hb hs
    obtain ⟨passage, hw, hm⟩ := h.passage pool table (ConstantPool.le_trans hs.pool_le hle)
      (records.earlier later)
    have hshape := hs.shape_eq
    have awaiting : ∀ {label}, B.isPlaced label = false → ∀ f,
        B.labelFrames.find? label = some f → label ∈ B.needsFrame := fun ahead f hf => by
      rcases h.awaited _ f hf with hp | hm
      · rw [ahead] at hp
        cases hp
      · exact hm
    cases hs with
    | intern => exact ⟨passage, hw, hm.later later rfl rfl rfl⟩
    | fresh => exact ⟨passage, hw, hm.later later rfl rfl rfl⟩
    | @insn insn before after reachable typed =>
      have hv := Insn.verify_of_le (ConstantPool.le_trans (Step.insn reachable typed).pool_le hle) typed
      refine ⟨⟨passage.passed, none, some after, [] ++ passage.edges⟩, ?_, ?_⟩
      · rw [hshape]
        refine foldlM_advance (append_nodes _ _ _) hw ?_
        simp [Passage.advance, hm.frame, hm.pending, reachable, hv, Except.toOption]
      · exact hm.instruction later rfl (append_nodes _ _ _) (append_pending _ _ _)
          (append_frame _ _ _) fun edge he => absurd he List.not_mem_nil
    | @branch branch before after D reachable typed known jumps =>
      refine ⟨⟨passage.passed, none, if branch.fallsThrough then some after else none,
        branch.jumpTargets.map (fun target => ⟨after, target, passage.passed.contains target⟩)
          ++ passage.edges⟩, ?_, ?_⟩
      · rw [hshape]
        refine foldlM_advance (by rw [append_nodes, jumps.nodes_eq]) hw ?_
        simp [Passage.advance, hm.frame, reachable, typed, Except.toOption]
      · refine hm.instruction later rfl (by rw [append_nodes, jumps.nodes_eq])
          (append_pending _ _ _) (append_frame _ _ _) fun edge he => ?_
        obtain ⟨target, ht, rfl⟩ := List.mem_map.1 he
        have hback : passage.passed.contains target = B.isPlaced target := by
          rw [Bool.eq_iff_iff, List.contains_iff_mem, hm.passed target]
        obtain ⟨f, ha⟩ := jumps.accepted table target ht
        rw [hback]
        exact ha.later (.ended D _ _)
    | @place label frame known ahead arrives =>
      refine ⟨passage.enter table label, ?_, hm.pass ahead arrives (awaiting ahead) records⟩
      rw [hshape]
      exact foldlM_advance (placed_nodes _ _ _) hw rfl
    | stop unreachable =>
      refine ⟨passage.enter table B.labels.fresh.1, ?_, hm.stop hb unreachable records⟩
      rw [hshape]
      exact foldlM_advance (append_nodes _ _ _) hw rfl
    | @enter current frame reachable ahead arrives =>
      have fresh : Matches { B with labels := B.labels.fresh.2 } table passage :=
        hm.later (.of_eq rfl rfl rfl) rfl rfl rfl
      refine ⟨passage.enter table B.labels.fresh.1, ?_, ?_⟩
      · rw [hshape]
        exact foldlM_advance (placed_nodes _ _ _) hw rfl
      · exact (fresh.pass ahead arrives (awaiting ahead) records).later (.of_eq rfl rfl rfl)
          rfl rfl rfl
    | leave =>
      refine ⟨passage, ?_, hm.later later (left_nodes _ _ _ _ _ _) (left_pending _ _ _ _ _ _)
        (left_frame _ _ _ _ _ _)⟩
      rw [hshape, left_nodes]
      exact hw

theorem Followed.run {entry : EditFrame} (h : Followed entry B) (hb : Sound B) (hr : Run B C) :
    Followed entry C := by
  induction hr with
  | refl => exact h
  | tail run step ih => exact ih.step (hb.run run).bookkept step

end Builder

end ClassWeave
