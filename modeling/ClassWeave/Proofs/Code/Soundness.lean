import ClassWeave.Proofs.Code.Operations
import ClassWeave.Proofs.Frame.Typing

/-!
What holds of every builder: labels are placed once, what is jumped to has a frame, allocations in
frames are at placed labels, and code behind a jump that never falls through starts at a label that
has a frame.
-/

namespace ClassWeave

/-- Nothing that a method starts with is an object still to be allocated. -/
theorem MethodShape.entryFrame_plain (shape : MethodShape) :
    shape.entryFrame.All fun type => ∀ label, type ≠ .uninitialized label := by
  refine ⟨fun type hm label he => ?_, fun type hm => absurd hm List.not_mem_nil⟩
  obtain ⟨value, hv, ht⟩ := List.mem_flatMap.1 hm
  have hvalue : value ≠ .uninitialized label := by
    rcases List.mem_append.1 hv with hr | hp
    · split at hr
      · simp_all
      · split at hr
        · cases hr
        · simp_all
    · obtain ⟨fieldType, -, rfl⟩ := List.mem_map.1 hp
      exact EditType.ofFieldType_plain fieldType label
  split at ht
  · rcases List.mem_cons.1 ht with rfl | ht
    · exact hvalue he
    · rw [List.mem_singleton] at ht
      rw [ht] at he
      cases he
  · rw [List.mem_singleton] at ht
    exact hvalue (ht ▸ he)

namespace Builder

variable {B C D : Builder} {label target : Label} {frame : EditFrame}

/-- How the labels among the nodes, in the tables and in the supply fit together. -/
structure Bookkept (B : Builder) : Prop where
  nodup : (B.nodes.filterMap Node.label?).Nodup
  sorted : B.labelFrames.Sorted
  placed_lt : ∀ l, B.isPlaced l = true → l.number < B.labels.allocated
  framed_lt : ∀ l f, B.labelFrames.find? l = some f → l.number < B.labels.allocated
  needed : ∀ l ∈ B.needsFrame, (B.labelFrames.find? l).isSome = true
  targets : ∀ branch : Branch Label, .branch branch ∈ B.nodes →
    ∀ target ∈ branch.jumpTargets, target ∈ B.needsFrame
  handlers : ∀ handler ∈ B.handlers, B.isPlaced handler.start = true ∧
    B.isPlaced handler.stop = true ∧ handler.handler ∈ B.needsFrame

theorem mem_labels_iff {nodes : List Node} {l : Label} :
    l ∈ nodes.filterMap Node.label? ↔ .label l ∈ nodes := by
  rw [List.mem_filterMap]
  constructor
  · rintro ⟨node, hm, hl⟩
    cases node with
    | label m => cases hl; exact hm
    | insn i => cases hl
    | branch b => cases hl
  · exact fun h => ⟨_, h, rfl⟩

namespace Bookkept

theorem congr (h : Bookkept B) (hn : C.nodes = B.nodes) (hl : C.labels = B.labels)
    (hf : C.labelFrames = B.labelFrames) (hneeds : C.needsFrame = B.needsFrame)
    (hh : C.handlers = B.handlers) : Bookkept C where
  nodup := hn ▸ h.nodup
  sorted := hf ▸ h.sorted
  placed_lt l hp := by rw [isPlaced_congr hn] at hp; rw [hl]; exact h.placed_lt l hp
  framed_lt l f hp := by rw [hf] at hp; rw [hl]; exact h.framed_lt l f hp
  needed l hm := by rw [hneeds] at hm; rw [hf]; exact h.needed l hm
  targets b hm t ht := by rw [hn] at hm; rw [hneeds]; exact h.targets b hm t ht
  handlers x hm := by
    rw [hh] at hm
    rw [isPlaced_congr hn, isPlaced_congr hn, hneeds]
    exact h.handlers x hm

theorem fresh (h : Bookkept B) : Bookkept { B with labels := B.labels.fresh.2 } :=
  ⟨h.nodup, h.sorted, fun l hp => Nat.lt_succ_of_lt (h.placed_lt l hp),
    fun l f hf => Nat.lt_succ_of_lt (h.framed_lt l f hf), h.needed, h.targets, h.handlers⟩

theorem setFrame (h : Bookkept B) (known : label.number < B.labels.allocated)
    (frame : EditFrame) : Bookkept (B.setFrame label frame) where
  nodup := h.nodup
  sorted := h.sorted.set label frame
  placed_lt := h.placed_lt
  framed_lt l f hf := by
    rw [find?_setFrame] at hf
    split at hf
    · next he => exact he ▸ known
    · exact h.framed_lt l f hf
  needed l hm := by
    rw [find?_setFrame]
    split
    · rfl
    · exact h.needed l hm
  targets := h.targets
  handlers := h.handlers

theorem require (h : Bookkept B) (framed : (B.labelFrames.find? label).isSome = true) :
    Bookkept (B.require label) where
  nodup := by rw [require_nodes]; exact h.nodup
  sorted := by rw [require_labelFrames]; exact h.sorted
  placed_lt l hp := by
    rw [isPlaced_congr (require_nodes B label)] at hp
    rw [require_labels]
    exact h.placed_lt l hp
  framed_lt l f hf := by
    rw [require_labelFrames] at hf
    rw [require_labels]
    exact h.framed_lt l f hf
  needed l hm := by
    rw [require_labelFrames]
    rcases (mem_require B label).1 hm with rfl | hm
    · exact framed
    · exact h.needed l hm
  targets b hm t ht := by
    rw [require_nodes] at hm
    exact (mem_require B label).2 (.inr (h.targets b hm t ht))
  handlers x hm := by
    rw [require_handlers] at hm
    rw [isPlaced_congr (require_nodes B label), isPlaced_congr (require_nodes B label)]
    obtain ⟨hs, ht, hh⟩ := h.handlers x hm
    exact ⟨hs, ht, (mem_require B label).2 (.inr hh)⟩

/-- A label that is framed may be required before or after. -/
theorem note (h : Bookkept B) (known : label.number < B.labels.allocated) (frame : EditFrame) :
    Bookkept ((B.require label).setFrame label frame) := by
  have hs : Bookkept ((B.setFrame label frame).require label) :=
    (h.setFrame known frame).require (by simp)
  refine hs.congr ?_ ?_ ?_ ?_ ?_
  · simp [Builder.setFrame]
  · simp [Builder.setFrame]
  · simp [Builder.setFrame]
  · unfold Builder.require Builder.setFrame
    split <;> simp_all
  · simp [Builder.setFrame]

theorem append (h : Bookkept B) (node : Node) (pending : Option Label)
    (hlabel : ∀ l, node = .label l → B.isPlaced l = false ∧ l.number < B.labels.allocated)
    (hbranch : ∀ b : Branch Label, node = .branch b → ∀ t ∈ b.jumpTargets, t ∈ B.needsFrame) :
    Bookkept (B.append node pending) where
  nodup := by
    rw [append_nodes]
    cases node with
    | label l =>
      refine List.nodup_cons.2 ⟨fun hm => ?_, h.nodup⟩
      have hp := (isPlaced_iff B l).2 (mem_labels_iff.1 hm)
      rw [(hlabel l rfl).1] at hp
      cases hp
    | insn i => exact h.nodup
    | branch b => exact h.nodup
  sorted := by rw [append_labelFrames]; exact h.sorted
  placed_lt l hp := by
    rw [append_labels]
    rw [isPlaced_iff, append_nodes] at hp
    rcases List.mem_cons.1 hp with he | hm
    · exact (hlabel l he.symm).2
    · exact h.placed_lt l ((isPlaced_iff B l).2 hm)
  framed_lt l f hf := by
    rw [append_labelFrames] at hf
    rw [append_labels]
    exact h.framed_lt l f hf
  needed l hm := by
    rw [append_needsFrame] at hm
    rw [append_labelFrames]
    exact h.needed l hm
  targets b hm t ht := by
    rw [append_needsFrame]
    rw [append_nodes] at hm
    rcases List.mem_cons.1 hm with he | hm
    · exact hbranch b he.symm t ht
    · exact h.targets b hm t ht
  handlers x hm := by
    rw [append_handlers] at hm
    rw [append_needsFrame, isPlaced_iff, isPlaced_iff, append_nodes]
    obtain ⟨hs, ht, hh⟩ := h.handlers x hm
    exact ⟨List.mem_cons_of_mem _ ((isPlaced_iff B _).1 hs),
      List.mem_cons_of_mem _ ((isPlaced_iff B _).1 ht), hh⟩

theorem jump (h : Bookkept B) (known : target.number < B.labels.allocated)
    (hj : Jump B frame target C) : Bookkept C := by
  cases hj with
  | first => exact h.note known _
  | again => exact h.note known _
  | back framed => exact h.require (by rw [framed]; rfl)

theorem placed (h : Bookkept B) (known : label.number < B.labels.allocated)
    (ahead : B.isPlaced label = false) (frame : EditFrame) : Bookkept (B.placed label frame) := by
  unfold Builder.placed
  have noted : Bookkept ((if B.isReachable then B else B.require label).setFrame label frame) := by
    split
    · exact h.setFrame known frame
    · exact h.note known frame
  have reached : Bookkept { (if B.isReachable then B else B.require label).setFrame label frame with
      frame := some frame } := noted.congr rfl rfl rfl rfl rfl
  refine reached.append _ _ ?_ (by simp)
  rintro l ⟨⟩
  refine ⟨(isPlaced_congr ?_).trans ahead, ?_⟩
  · change (if B.isReachable then B else B.require label).nodes = B.nodes
    split <;> simp
  · change label.number < (if B.isReachable then B else B.require label).labels.allocated
    split <;> simpa using known

theorem handle (h : Bookkept B) (handler : Handler) (started : B.isPlaced handler.start = true)
    (stopped : B.isPlaced handler.stop = true) (framed : handler.handler ∈ B.needsFrame) :
    Bookkept { B with handlers := handler :: B.handlers } where
  nodup := h.nodup
  sorted := h.sorted
  placed_lt := h.placed_lt
  framed_lt := h.framed_lt
  needed := h.needed
  targets := h.targets
  handlers x hm := by
    rcases List.mem_cons.1 hm with rfl | hm
    · exact ⟨started, stopped, framed⟩
    · exact h.handlers x hm

end Bookkept

theorem Jump.mem_needs (h : Jump B frame target C) {l : Label} :
    l ∈ C.needsFrame ↔ l = target ∨ l ∈ B.needsFrame := by
  cases h <;> simp [setFrame]

theorem Jumps.mem_needs {targets : List Label} (h : Jumps frame targets B C) {l : Label} :
    l ∈ C.needsFrame ↔ l ∈ targets ∨ l ∈ B.needsFrame := by
  induction h with
  | nil => simp
  | cons first _ ih => rw [ih, first.mem_needs, List.mem_cons, or_assoc, or_left_comm]

theorem Bookkept.jumps {targets : List Label} (h : Bookkept B)
    (known : ∀ target ∈ targets, target.number < B.labels.allocated)
    (hj : Jumps frame targets B C) : Bookkept C := by
  induction hj with
  | nil => exact h
  | cons first _ ih =>
    refine ih (h.jump (known _ List.mem_cons_self) first) fun t ht => ?_
    rw [first.labels_eq]
    exact known t (List.mem_cons_of_mem _ ht)

theorem Bookkept.branch {branch : Branch Label} {after : EditFrame} (h : Bookkept B)
    (known : ∀ target ∈ branch.jumpTargets, target.number < B.labels.allocated)
    (jumps : Jumps after branch.jumpTargets { B with frame := none } C) :
    Bookkept ({ C with frame := if branch.fallsThrough then some after else none }.append
      (.branch branch) none) := by
  have cut : Bookkept { B with frame := none } := h.congr rfl rfl rfl rfl rfl
  have ran : Bookkept { C with frame := if branch.fallsThrough then some after else none } :=
    (cut.jumps known jumps).congr rfl rfl rfl rfl rfl
  refine ran.append _ _ (by simp) ?_
  rintro b ⟨⟩ t ht
  exact jumps.mem_needs.2 (.inl ht)

theorem Bookkept.step (h : Bookkept B) (hs : Step B C) : Bookkept C := by
  cases hs with
  | intern => exact h.congr rfl rfl rfl rfl rfl
  | fresh => exact h.fresh
  | @insn insn before after =>
    have ran : Bookkept { B with frame := some after } := h.congr rfl rfl rfl rfl rfl
    exact ran.append _ _ (by simp) (by simp)
  | branch _ _ known jumps => exact h.branch known jumps
  | place known ahead => exact h.placed known ahead _
  | stop =>
    refine h.fresh.append _ _ ?_ (by simp)
    rintro l ⟨⟩
    refine ⟨?_, Nat.lt_succ_self _⟩
    cases hp : B.isPlaced B.labels.fresh.1 with
    | true => exact absurd (h.placed_lt _ hp) (Nat.lt_irrefl _)
    | false => exact hp
  | enter reachable ahead =>
    exact (h.fresh.placed (Nat.lt_succ_self _) ahead _).congr rfl rfl rfl rfl rfl
  | @leave start stop catchType known outer started stopped =>
    have new : B.labels.fresh.1.number < B.labels.fresh.2.allocated := Nat.lt_succ_self _
    have noted := h.fresh.note new ⟨known, [caughtType catchType]⟩
    have placed : ∀ l, isPlaced ((({ B with labels := B.labels.fresh.2 }).require
        B.labels.fresh.1).setFrame B.labels.fresh.1 ⟨known, [caughtType catchType]⟩) l =
        B.isPlaced l := fun l => isPlaced_congr (by simp [Builder.setFrame])
    refine (noted.handle ⟨start, stop, B.labels.fresh.1, catchType⟩ ((placed _).trans started)
      ((placed _).trans stopped) (by simp [Builder.setFrame])).congr ?_ ?_ ?_ ?_ ?_
    all_goals unfold left Builder.setFrame Builder.require
    all_goals split <;> rfl

/-- If the type is that of an object not yet initialised, its allocation is at a placed label. -/
def Anchors (B : Builder) (type : EditType) : Prop :=
  ∀ label, type = .uninitialized label → B.isPlaced label = true

theorem lenient_anchors (B : Builder) : EditType.Lenient B.Anchors :=
  fun _ h label he => absurd he (h label)

/-- Allocations are at placed labels, wherever frames are kept. -/
structure Anchored (B : Builder) : Prop where
  pending : ∀ l, B.pending = some l → B.isPlaced l = true
  current : ∀ f, B.frame = some f → f.All B.Anchors
  framed : ∀ l f, B.labelFrames.find? l = some f → f.All B.Anchors
  regions : ∀ known ∈ B.regions, ∀ type ∈ known, B.Anchors type

namespace Anchored

theorem congr (h : Anchored B) (hn : C.nodes = B.nodes) (hp : C.pending = B.pending)
    (hc : C.frame = B.frame) (hf : C.labelFrames = B.labelFrames) (hr : C.regions = B.regions) :
    Anchored C := by
  have ha : C.Anchors = B.Anchors := by
    unfold Anchors
    funext type
    simp only [isPlaced_congr hn]
  exact
    { pending := fun l hl => (isPlaced_congr hn).trans (h.pending l (hp ▸ hl))
      current := fun f hl => ha ▸ h.current f (hc ▸ hl)
      framed := fun l f hl => ha ▸ h.framed l f (hf ▸ hl)
      regions := fun known hm => ha ▸ h.regions known (hr ▸ hm) }

theorem withFrame (h : Anchored B) {frame : Option EditFrame}
    (hf : ∀ f, frame = some f → f.All B.Anchors) : Anchored { B with frame := frame } :=
  ⟨h.pending, hf, h.framed, h.regions⟩

theorem setFrame (h : Anchored B) (hf : frame.All B.Anchors) : Anchored (B.setFrame label frame) where
  pending := h.pending
  current := h.current
  framed l f hl := by
    rw [find?_setFrame] at hl
    split at hl
    · cases hl
      exact hf
    · exact h.framed l f hl
  regions := h.regions

theorem require (h : Anchored B) : Anchored (B.require label) :=
  h.congr (by simp) (by simp) (by simp) (by simp) (by simp)

theorem append (h : Anchored B) (node : Node) (pending : Option Label)
    (hpending : ∀ l, pending = some l → node = .label l) : Anchored (B.append node pending) := by
  have grows : ∀ type, B.Anchors type → (B.append node pending).Anchors type := by
    intro type ht label he
    rw [isPlaced_iff, append_nodes]
    exact List.mem_cons_of_mem _ ((isPlaced_iff _ _).1 (ht label he))
  refine ⟨fun l hl => ?_, fun f hf => ?_, fun l f hf => ?_, ?_⟩
  · rw [append_pending] at hl
    rw [isPlaced_iff, append_nodes, hpending l hl]
    exact List.mem_cons_self
  · rw [append_frame] at hf
    exact (h.current f hf).imp grows
  · rw [append_labelFrames] at hf
    exact (h.framed l f hf).imp grows
  · rw [append_regions]
    cases hf : B.frame with
    | none =>
      intro known hk type ht
      exact grows type (h.regions known hk type ht)
    | some current =>
      intro known hk
      obtain ⟨before, hb, rfl⟩ := List.mem_map.1 hk
      refine EditFrame.all_dropHalves_meetLocals ?_ ?_ ?_
      · exact lenient_anchors _ _ (by simp)
      · exact fun type ht => grows type (h.regions before hb type ht)
      · exact fun type ht => grows type ((h.current current hf).1 type ht)

theorem jump (h : Anchored B) (hf : frame.All B.Anchors) (hj : Jump B frame target C) :
    Anchored C := by
  have required : frame.All (B.require target).Anchors :=
    hf.imp fun type ht label he => (isPlaced_congr (require_nodes B target)).trans (ht label he)
  cases hj with
  | first => exact h.require.setFrame required
  | again framed ahead merges =>
    refine h.require.setFrame (EditFrame.All.merge (lenient_anchors _ _ (by simp)) ?_ required merges)
    exact h.require.framed target _ (by rw [require_labelFrames]; exact framed)
  | back => exact h.require

theorem jumps {targets : List Label} (h : Anchored B) (hf : frame.All B.Anchors)
    (hj : Jumps frame targets B C) : Anchored C := by
  induction hj with
  | nil => exact h
  | cons first _ ih =>
    refine ih (h.jump hf first) (hf.imp fun type ht label he => ?_)
    exact (isPlaced_congr first.nodes_eq).trans (ht label he)

theorem placed (h : Anchored B) (arrives : B.arrival? label = some frame) :
    Anchored (B.placed label frame) := by
  have hf : frame.All B.Anchors := by
    unfold arrival? at arrives
    cases hc : B.frame with
    | none =>
      rw [hc] at arrives
      exact h.framed label frame arrives
    | some current =>
      cases hj : B.labelFrames.find? label with
      | none =>
        rw [hc, hj] at arrives
        exact h.current frame (hc.trans arrives)
      | some jumped =>
        rw [hc, hj] at arrives
        exact EditFrame.All.merge (lenient_anchors _ _ (by simp)) (h.framed label jumped hj)
          (h.current current hc) arrives
  have required : Anchored (if B.isReachable then B else B.require label) := by
    split
    · exact h
    · exact h.require
  have grown : frame.All (if B.isReachable then B else B.require label).Anchors := by
    split
    · exact hf
    · exact hf.imp fun type ht l he => (isPlaced_congr (require_nodes B label)).trans (ht l he)
  refine Anchored.append ((required.setFrame grown).withFrame ?_) _ _ ?_
  · rintro f ⟨⟩
    exact grown
  · rintro l ⟨⟩
    rfl

theorem step (h : Anchored B) (hs : Step B C) : Anchored C := by
  cases hs with
  | intern => exact h.congr rfl rfl rfl rfl rfl
  | fresh => exact h.congr rfl rfl rfl rfl rfl
  | @insn insn before after reachable typed =>
    have kept := Insn.keeps_verify (lenient_anchors B) (fun index label _ hp l he => by
      cases he
      exact h.pending label hp) before _ after (h.current before reachable) typed
    refine Anchored.append (h.withFrame ?_) _ _ (by simp)
    rintro f ⟨⟩
    exact kept.1
  | @branch branch before after D reachable typed _ jumps =>
    have kept := Branch.keeps_verify B.shape.returnType branch before _ after
      (h.current before reachable) typed
    have cut : Anchored { B with frame := none } := h.withFrame (by simp)
    have same : ∀ type, B.Anchors type → D.Anchors type := fun type ht l he =>
      (isPlaced_congr jumps.nodes_eq).trans (ht l he)
    refine Anchored.append ((cut.jumps kept.1 jumps).withFrame fun f hf => ?_) _ _ (by simp)
    split at hf
    · cases hf
      exact kept.1.imp same
    · cases hf
  | place _ _ arrives => exact h.placed arrives
  | stop unreachable =>
    have fresh : Anchored { B with labels := B.labels.fresh.2 } := h.congr rfl rfl rfl rfl rfl
    refine fresh.append _ _ ?_
    rintro l ⟨⟩
    rfl
  | @enter current frame reachable ahead arrives =>
    have fresh : Anchored { B with labels := B.labels.fresh.2 } := h.congr rfl rfl rfl rfl rfl
    have placed := fresh.placed arrives
    refine ⟨placed.pending, placed.current, placed.framed, fun known hk => ?_⟩
    rcases List.mem_cons.1 hk with rfl | hk
    · intro type ht l he
      rw [isPlaced_congr (opened_nodes _ _), isPlaced_iff, placed_nodes]
      exact List.mem_cons_of_mem _ ((isPlaced_iff _ _).1 ((h.current current reachable).1 type ht l he))
    · exact placed.regions known hk
  | @leave start stop catchType known outer started stopped inside =>
    have handler : EditFrame.All B.Anchors ⟨known, [caughtType catchType]⟩ := by
      refine ⟨h.regions known (inside ▸ List.mem_cons_self), fun type ht => ?_⟩
      rw [List.mem_singleton] at ht
      exact lenient_anchors B type (by simp [ht, caughtType])
    have same : (B.left start stop catchType known outer).Anchors = B.Anchors := by
      unfold Anchors
      funext type
      simp only [isPlaced_congr (left_nodes B start stop catchType known outer)]
    refine ⟨fun l hl => ?_, fun f hf => ?_, fun l f hf => ?_, fun outside hk => ?_⟩
    · rw [left_pending] at hl
      exact (isPlaced_congr (left_nodes _ _ _ _ _ _)).trans (h.pending l hl)
    · rw [left_frame] at hf
      exact same ▸ h.current f hf
    · rw [find?_left] at hf
      rw [same]
      split at hf
      · cases hf
        exact handler
      · exact h.framed l f hf
    · rw [left_regions] at hk
      exact same ▸ h.regions outside (inside ▸ List.mem_cons_of_mem _ hk)

end Anchored

/-- Control gets to the end of the nodes, the latest of which is first: it falls there, or there is a
label that needs a frame. -/
def Entered (needs : List Label) : List Node → Prop
  | [] => True
  | .label label :: rest => label ∈ needs ∨ Entered needs rest
  | .insn _ :: _ => True
  | .branch branch :: _ => branch.fallsThrough = true

theorem Entered.mono {needs more : List Label} (hsub : ∀ l ∈ needs, l ∈ more) {nodes : List Node}
    (h : Entered needs nodes) : Entered more nodes := by
  induction nodes with
  | nil => trivial
  | cons node rest ih =>
    cases node with
    | label l => exact h.imp (hsub l) ih
    | insn i => trivial
    | branch b => exact h

/-- The labels behind the last instruction. -/
def trailing (nodes : List Node) : List Label :=
  (nodes.takeWhile Node.isLabel).filterMap Node.label?

theorem mem_of_mem_trailing {nodes : List Node} {l : Label} (h : l ∈ trailing nodes) :
    .label l ∈ nodes := by
  obtain ⟨node, hm, hl⟩ := List.mem_filterMap.1 h
  have hmem := (List.takeWhile_prefix Node.isLabel).subset hm
  cases node with
  | label m => cases hl; exact hmem
  | insn i => cases hl
  | branch b => cases hl

/-- How control gets to the instructions: each of them is fallen into or has a label in front that
needs a frame, and no label with a frame ends the code where control does not get. -/
structure Steady (B : Builder) : Prop where
  entered : B.frame.isSome = true → Entered B.needsFrame B.nodes
  gaps : ∀ node before, node :: before <:+ B.nodes → node.isLabel = false →
    Entered B.needsFrame before
  dead : B.frame = none → ∀ l ∈ trailing B.nodes, B.labelFrames.find? l = none

namespace Steady

theorem congr (h : Steady B) (hn : C.nodes = B.nodes) (hc : C.frame = B.frame)
    (hf : C.labelFrames = B.labelFrames) (hneeds : C.needsFrame = B.needsFrame) : Steady C where
  entered hs := by rw [hneeds, hn]; exact h.entered (hc ▸ hs)
  gaps node before hsuf hl := by rw [hneeds]; exact h.gaps node before (hn ▸ hsuf) hl
  dead hs l hm := by rw [hf]; exact h.dead (hc ▸ hs) l (hn ▸ hm)

/-- An instruction is put where control gets, with a frame behind it if control falls through. -/
theorem instruction (h : Steady B) {node : Node} (hnode : node.isLabel = false)
    (hn : C.nodes = node :: B.nodes) (reachable : B.frame.isSome = true)
    (hneeds : ∀ l ∈ B.needsFrame, l ∈ C.needsFrame)
    (hf : C.frame.isSome = true → node.fallsThrough = true) : Steady C where
  entered hs := by
    rw [hn]
    cases node with
    | label l => cases hnode
    | insn i => trivial
    | branch b => exact hf hs
  gaps other before hsuf hl := by
    rw [hn, List.suffix_cons_iff] at hsuf
    rcases hsuf with he | hsuf
    · cases he
      exact (h.entered reachable).mono hneeds
    · exact (h.gaps other before hsuf hl).mono hneeds
  dead _ l hm := by
    rw [hn] at hm
    unfold trailing at hm
    rw [List.takeWhile_cons_of_neg (by simp [hnode])] at hm
    cases hm

theorem placed (h : Steady B) (label : Label) (frame : EditFrame) :
    Steady (B.placed label frame) where
  entered _ := by
    rw [placed_nodes]
    cases hf : B.frame with
    | none => exact .inl ((mem_placed B label frame).2 (.inr ⟨rfl, hf⟩))
    | some current =>
      refine .inr ((h.entered (by rw [hf]; rfl)).mono fun l hl => ?_)
      exact (mem_placed B label frame).2 (.inl hl)
  gaps node before hsuf hl := by
    rw [placed_nodes, List.suffix_cons_iff] at hsuf
    rcases hsuf with he | hsuf
    · cases he
      cases hl
    · exact (h.gaps node before hsuf hl).mono fun l hl => (mem_placed B label frame).2 (.inl hl)
  dead hs := by rw [placed_frame] at hs; cases hs

theorem step (h : Steady B) (hb : Bookkept B) (hs : Step B C) : Steady C := by
  cases hs with
  | intern => exact h.congr rfl rfl rfl rfl
  | fresh => exact h.congr rfl rfl rfl rfl
  | insn reachable =>
    exact h.instruction rfl (append_nodes _ _ _) (by rw [reachable]; rfl)
      (fun l hl => by rw [append_needsFrame]; exact hl) (fun _ => rfl)
  | @branch branch before after D reachable _ _ jumps =>
    refine h.instruction rfl ((append_nodes _ _ _).trans (congrArg _ jumps.nodes_eq))
      (by rw [reachable]; rfl) (fun l hl => ?_) (fun hf => ?_)
    · rw [append_needsFrame]
      exact jumps.mem_needs.2 (.inr hl)
    · rw [append_frame] at hf
      cases hfalls : branch.fallsThrough with
      | true => exact hfalls
      | false => simp [hfalls] at hf
  | place => exact h.placed _ _
  | stop unreachable =>
    refine ⟨fun hf => ?_, fun node before hsuf hl => ?_, fun _ l hm => ?_⟩
    · rw [append_frame] at hf
      exact absurd hf (by simp [unreachable])
    · rw [append_nodes, List.suffix_cons_iff] at hsuf
      rcases hsuf with he | hsuf
      · cases he
        cases hl
      · rw [append_needsFrame]
        exact h.gaps node before hsuf hl
    · rw [append_labelFrames]
      rw [append_nodes] at hm
      rcases List.mem_cons.1 hm with rfl | hm
      · cases hfind : B.labelFrames.find? B.labels.fresh.1 with
        | none => rfl
        | some f => exact absurd (hb.framed_lt _ f hfind) (Nat.lt_irrefl _)
      · exact h.dead unreachable l hm
  | @enter current frame reachable ahead arrives =>
    have fresh : Steady { B with labels := B.labels.fresh.2 } := h.congr rfl rfl rfl rfl
    exact (fresh.placed B.labels.fresh.1 frame).congr rfl rfl rfl rfl
  | @leave start stop catchType known outer =>
    refine ⟨fun hf => ?_, fun node before hsuf hl => ?_, fun hf l hm => ?_⟩
    · rw [left_frame] at hf
      rw [left_nodes]
      exact (h.entered hf).mono fun l hl => (mem_left _ _ _ _ _ _).2 (.inr hl)
    · rw [left_nodes] at hsuf
      exact (h.gaps node before hsuf hl).mono fun l hl => (mem_left _ _ _ _ _ _).2 (.inr hl)
    · rw [left_frame] at hf
      rw [left_nodes] at hm
      have hp := (isPlaced_iff B l).2 (mem_of_mem_trailing hm)
      have hne : l ≠ B.labels.fresh.1 := fun e =>
        absurd (hb.placed_lt l hp) (e ▸ Nat.lt_irrefl _)
      rw [find?_left, if_neg hne]
      exact h.dead hf l hm

end Steady

/-- What holds of every builder. -/
structure Sound (B : Builder) : Prop where
  bookkept : Bookkept B
  anchored : Anchored B
  steady : Steady B

theorem Sound.step (h : Sound B) (hs : Step B C) : Sound C :=
  ⟨h.bookkept.step hs, h.anchored.step hs, h.steady.step h.bookkept hs⟩

theorem Sound.run (h : Sound B) (hr : Run B C) : Sound C := by
  induction hr with
  | refl => exact h
  | tail _ step ih => exact ih.step step

/-- A builder starts sound if nothing in the frame it starts with is yet to be initialised. -/
theorem sound_start (pool : ConstantPool) (labels : LabelSupply) (shape : MethodShape)
    (hentry : frame.All fun type => ∀ label, type ≠ .uninitialized label) :
    Sound (start pool labels shape frame) where
  bookkept := ⟨List.nodup_nil, .nil, by simp [isPlaced, start], by simp [start], by simp [start],
    by simp [start], by simp [start]⟩
  anchored := by
    refine ⟨by simp [start], ?_, by simp [start], by simp [start]⟩
    rintro f ⟨⟩
    exact hentry.imp fun type ht => lenient_anchors _ type ht
  steady := by
    refine ⟨fun _ => trivial, fun node before hsuf => ?_, by simp [start]⟩
    exact absurd (List.suffix_nil.1 hsuf) (by simp)

end Builder

end ClassWeave
