import ClassWeave.Proofs.Code.Edges
import ClassWeave.Proofs.Frame.Fitting

/-!
Control on its way through the code of a builder, by the local slots that hold something. It arrives at
the end of the code where the frame there promises no others, and at a label where that of the label
does. In an open region no more is known than the current frame promises, so that a handler may take over
anywhere.
-/

namespace ClassWeave

open EditFrame

namespace Builder

variable {B C D : Builder} {label target : Label} {frame : EditFrame} {filled : Set Nat}
  {widths popped pushed : List Nat}

/-- Values of the widths are on top of the stack, and the locals that can be used are filled. -/
def Arrives (B : Builder) (widths : List Nat) (filled : Set Nat) : Prop :=
  ∃ frame rest, B.frame = some frame ∧ frame.widths = widths ++ rest ∧ promises frame.locals ⊆ filled

/-- The locals that can be used at a label are filled. -/
def Lands (B : Builder) (label : Label) (filled : Set Nat) : Prop :=
  ∃ frame, B.labelFrames.find? label = some frame ∧ promises frame.locals ⊆ filled

/-- The locals that can be used in the handlers of the open regions are filled. -/
def Kept (B : Builder) (filled : Set Nat) : Prop := ∀ known ∈ B.regions, promises known ⊆ filled

/-- The labels fit together, and no more is known in the open regions than at the end of the code. -/
structure Fine (B : Builder) : Prop where
  bookkept : Bookkept B
  regions : ∀ frame, B.frame = some frame → B.Kept (promises frame.locals)

/-- The open regions are the same, and no more is known in them. -/
def Balanced (B C : Builder) : Prop :=
  List.Forall₂ (fun known known' => promises known' ⊆ promises known) B.regions C.regions

theorem fine_start (pool : ConstantPool) (labels : LabelSupply) (shape : MethodShape)
    (entry : EditFrame) : Fine (start pool labels shape entry) where
  bookkept := ⟨List.nodup_nil, .nil, by simp [isPlaced, start], by simp [start], by simp [start],
    by simp [start], by simp [start]⟩
  regions _ _ := by simp [Kept, start]

theorem Arrives.isReachable (h : B.Arrives widths filled) : B.isReachable = true := by
  obtain ⟨frame, -, hf, -⟩ := h
  exact Option.isSome_iff_exists.2 ⟨frame, hf⟩

theorem Arrives.of_eq (h : B.Arrives widths filled) (hf : C.frame = B.frame) : C.Arrives widths filled := by
  unfold Arrives
  rw [hf]
  exact h

theorem Arrives.weaken {more : List Nat} (h : B.Arrives (widths ++ more) filled) :
    B.Arrives widths filled := by
  obtain ⟨frame, rest, hf, hwidths, hsub⟩ := h
  exact ⟨frame, more ++ rest, hf, by rw [hwidths, List.append_assoc], hsub⟩

theorem Arrives.bare (h : B.Arrives widths filled) : B.Arrives [] filled := by
  obtain ⟨frame, -, hf, -, hsub⟩ := h
  exact ⟨frame, frame.widths, hf, rfl, hsub⟩

/-- Wherever control arrives, a handler may take over. -/
theorem Arrives.kept (h : B.Arrives widths filled) (hb : Fine B) : B.Kept filled := by
  obtain ⟨frame, -, hf, -, hsub⟩ := h
  exact fun known hm => (hb.regions frame hf known hm).trans hsub

theorem Arrives.mono {more : Set Nat} (h : B.Arrives widths filled) (hsub : filled ⊆ more) :
    B.Arrives widths more := by
  obtain ⟨frame, rest, hf, hwidths, hpromises⟩ := h
  exact ⟨frame, rest, hf, hwidths, hpromises.trans hsub⟩

theorem Lands.isJumpedTo (h : B.Lands label filled) : B.isJumpedTo label = true := by
  obtain ⟨frame, hf, -⟩ := h
  exact Option.isSome_iff_exists.2 ⟨frame, hf⟩

theorem Lands.later (h : B.Lands label filled) (hl : Later B C) : C.Lands label filled := by
  obtain ⟨frame, hf, hsub⟩ := h
  obtain ⟨frame', hf', flows⟩ := hl.weakens label frame hf
  exact ⟨frame', hf', flows.promises.trans hsub⟩

namespace Balanced

theorem refl (B : Builder) : Balanced B B := List.forall₂_same.2 fun _ _ => subset_rfl

theorem of_eq (h : C.regions = B.regions) : Balanced B C := by
  unfold Balanced
  rw [h]
  exact refl B

theorem trans (h : Balanced B C) (h' : Balanced C D) : Balanced B D := by
  unfold Balanced at *
  generalize B.regions = bs at h
  generalize C.regions = cs at h h'
  generalize D.regions = ds at h'
  induction h generalizing ds with
  | nil => exact h'
  | cons first _ ih =>
    cases h' with
    | cons second rest => exact .cons (second.trans first) (ih _ rest)

theorem append (B : Builder) (node : Node) (pending : Option Label) :
    Balanced B (B.append node pending) := by
  unfold Balanced
  rw [append_regions]
  cases B.frame with
  | none => exact refl B
  | some frame =>
    exact List.forall₂_map_right_iff.2 (List.forall₂_same.2 fun known _ => promises_meet known _)

theorem kept (h : Balanced B C) (hk : B.Kept filled) : C.Kept filled := fun known hm => by
  obtain ⟨before, hb, hsub⟩ := exists_left_of_mem h hm
  exact hsub.trans (hk before hb)

end Balanced

/-- Behind a node no more is known in a region than the frame there promises. -/
theorem kept_append {node : Node} {pending : Option Label} (hf : (B.append node pending).frame = some frame) :
    (B.append node pending).Kept (promises frame.locals) := by
  intro known hm
  rw [append_frame] at hf
  rw [append_regions, hf] at hm
  obtain ⟨before, -, rfl⟩ := List.mem_map.1 hm
  exact promises_meet_right before frame.locals

namespace Jump

variable (h : Jump B frame target C)
include h

theorem lands (hsub : promises frame.locals ⊆ filled) : C.Lands target filled := by
  cases h with
  | first => exact ⟨frame, by rw [find?_setFrame, if_pos rfl], hsub⟩
  | @again expected merged framed ahead merges =>
    exact ⟨merged, by rw [find?_setFrame, if_pos rfl],
      (flows_merge_right merges).promises.trans hsub⟩
  | @back expected framed placed flows =>
    exact ⟨expected, by rw [require_labelFrames, framed],
      (promises_of_isAssignableTo flows).trans hsub⟩

end Jump

namespace Jumps

variable {targets : List Label} (h : Jumps frame targets B C)
include h

theorem lands (hsub : promises frame.locals ⊆ filled) (ht : target ∈ targets) :
    C.Lands target filled := by
  induction h with
  | nil => cases ht
  | cons first others ih =>
    rcases List.mem_cons.1 ht with rfl | ht
    · exact (first.lands hsub).later (.jumps others)
    · exact ih ht

end Jumps

namespace Step

variable (h : Step B C)
include h

theorem handlers_suffix : B.handlers <:+ C.handlers := by
  cases h with
  | leave => rw [left_handlers]; exact List.suffix_cons _ _
  | branch _ _ _ jumps _ => simpa only [append_handlers, jumps.handlers_eq] using List.suffix_refl _
  | enter => simpa only [opened_handlers, placed_handlers] using List.suffix_refl _
  | insn | place | stop => simp
  | intern | fresh => exact List.suffix_refl _

/-- A region is left with what was known in it, and one is entered with what its frame promises. -/
theorem fine (hb : Fine B) : Fine C where
  bookkept := hb.bookkept.step h
  regions := by
    cases h with
    | intern => exact hb.regions
    | fresh => exact hb.regions
    | insn => exact fun _ => kept_append
    | branch => exact fun _ => kept_append
    | place => exact fun _ => kept_append
    | stop => exact fun _ => kept_append
    | @enter current frame reachable ahead arrives =>
      have unframed : B.labelFrames.find? B.labels.fresh.1 = none := by
        cases hf : B.labelFrames.find? B.labels.fresh.1 with
        | none => rfl
        | some f => exact absurd (hb.bookkept.framed_lt _ f hf) (Nat.lt_irrefl _)
      have hframe : frame = current := by
        unfold arrival? at arrives
        rw [reachable, unframed] at arrives
        exact (Option.some.inj arrives).symm
      intro f hf known hm
      rcases List.mem_cons.1 hm with rfl | hm
      · rw [opened_frame, placed_frame, hframe] at hf
        cases hf
        exact subset_rfl
      · exact kept_append hf known hm
    | @leave start stop catchType known outer started stopped inside =>
      intro f hf other hm
      rw [left_regions] at hm
      rw [left_frame] at hf
      exact hb.regions f hf other (inside ▸ List.mem_cons_of_mem _ hm)

end Step

namespace Run

variable (h : Run B C)
include h

theorem handlers_suffix : B.handlers <:+ C.handlers := by
  induction h with
  | refl => exact List.suffix_refl _
  | tail _ step ih => exact ih.trans step.handlers_suffix

theorem fine (hb : Fine B) : Fine C := by
  induction h with
  | refl => exact hb
  | tail _ step ih => exact step.fine ih

theorem later (hb : Fine B) : Later B C := by
  induction h with
  | refl => exact .of_eq rfl rfl rfl
  | tail run step ih => exact ih.trans (.step (run.fine hb).bookkept step)

end Run

section Operations

variable {u : Unit}

/-- Values of the widths are on top wherever control arrives. -/
def Takes (B : Builder) (widths : List Nat) : Prop :=
  ∀ frame, B.frame = some frame → ∃ rest, frame.widths = widths ++ rest

/-- Wherever control arrives the stack has values of the widths and no others. -/
def Holds (B : Builder) (widths : List Nat) : Prop := ∀ frame, B.frame = some frame → frame.widths = widths

theorem Takes.holds {more : List Nat} (h : B.Takes popped) (hs : B.Holds (widths ++ more))
    (hlength : widths.length = popped.length) : B.Holds (popped ++ more) := fun frame hf => by
  obtain ⟨rest, hpopped⟩ := h frame hf
  have hwidths := hs frame hf
  rw [← (List.append_inj (hwidths.symm.trans hpopped) hlength).1, hwidths]

theorem Takes.eq_of_arrives (h : B.Takes popped) (ha : B.Arrives widths filled)
    (hlength : widths.length = popped.length) : widths = popped := by
  obtain ⟨frame, rest, hf, hwidths, -⟩ := ha
  obtain ⟨rest', hpopped⟩ := h frame hf
  exact (List.append_inj (hwidths.symm.trans hpopped) hlength).1

theorem Takes.arrives (h : B.Takes popped) (ha : B.Arrives [] filled) : B.Arrives popped filled := by
  obtain ⟨frame, -, hf, -, hsub⟩ := ha
  obtain ⟨rest, hrest⟩ := h frame hf
  exact ⟨frame, rest, hf, hrest, hsub⟩

section Push

variable {insn : Insn} (hnew : ∀ index, insn ≠ .new index) (h : push insn B = .ok u C)
  (shifts : ∀ thisClass allocation,
    Verifying.Shifts (insn.verify B.pool thisClass allocation) popped pushed)
include hnew h shifts

theorem takes_of_push : B.Takes popped := fun frame hframe => by
  obtain ⟨before, after, hf, hv, -⟩ := push_eq_ok hnew h
  cases hf.symm.trans hframe
  obtain ⟨⟨rest, hbefore, -⟩, -⟩ := shifts _ _ _ _ _ hv
  exact ⟨rest, hbefore⟩

theorem arrives_of_push (ha : B.Arrives (popped ++ widths) filled) :
    C.Arrives (pushed ++ widths) filled := by
  obtain ⟨before, after, hf, hv, rfl⟩ := push_eq_ok hnew h
  obtain ⟨frame, rest, hframe, hwidths, hsub⟩ := ha
  cases hf.symm.trans hframe
  obtain ⟨⟨others, hbefore, hafter⟩, hpromises⟩ := shifts _ _ _ _ _ hv
  refine ⟨after, rest, by rw [append_frame], ?_, hpromises.trans hsub⟩
  rw [hwidths, List.append_assoc] at hbefore
  rw [hafter, ← List.append_cancel_left hbefore, List.append_assoc]

theorem holds_of_push (hs : B.Holds (popped ++ widths)) : C.Holds (pushed ++ widths) := by
  obtain ⟨before, after, hf, hv, rfl⟩ := push_eq_ok hnew h
  obtain ⟨⟨others, hbefore, hafter⟩, -⟩ := shifts _ _ _ _ _ hv
  rw [hs before hf] at hbefore
  intro frame hframe
  rw [append_frame] at hframe
  cases hframe
  rw [hafter, ← List.append_cancel_left hbefore]

end Push

/-- Where a branch jumps to, and behind it, control may have what it has in front. -/
theorem arrives_of_pushBranch {branch : Branch Label} (h : pushBranch branch B = .ok u C)
    (shifts : ∀ returnType, Verifying.Shifts (branch.verify returnType) popped pushed)
    (ha : B.Arrives (popped ++ widths) filled) :
    (∀ target ∈ branch.jumpTargets, C.Lands target filled) ∧
      (branch.fallsThrough = true → C.Arrives (pushed ++ widths) filled) := by
  obtain ⟨before, after, D, hf, hv, jumps, rfl⟩ := pushBranch_eq_ok h
  obtain ⟨frame, rest, hframe, hwidths, hsub⟩ := ha
  cases hf.symm.trans hframe
  obtain ⟨⟨others, hbefore, hafter⟩, hpromises⟩ := shifts _ _ _ _ hv
  refine ⟨fun target ht => ?_, fun falls => ⟨after, rest, ?_, ?_, hpromises.trans hsub⟩⟩
  · exact (jumps.lands (hpromises.trans hsub) ht).later (.ended D _ _)
  · rw [append_frame, if_pos falls]
  · rw [hwidths, List.append_assoc] at hbefore
    rw [hafter, ← List.append_cancel_left hbefore, List.append_assoc]

/-- Control that arrives in front of a label passes it. -/
theorem arrives_of_arrival (arrives : B.arrival? label = some frame) (ha : B.Arrives [] filled) :
    (B.placed label frame).Arrives [] filled := by
  obtain ⟨current, rest, hf, -, hsub⟩ := ha
  refine ⟨frame, frame.widths, placed_frame _ _ _, rfl, ?_⟩
  unfold arrival? at arrives
  rw [hf] at arrives
  cases hj : B.labelFrames.find? label with
  | none =>
    rw [hj] at arrives
    cases arrives
    exact hsub
  | some jumped =>
    rw [hj] at arrives
    exact (flows_merge_right arrives).promises.trans hsub

theorem arrives_of_place (h : place label B = .ok u C) (ha : B.Arrives [] filled) :
    C.Arrives [] filled := by
  obtain ⟨ahead, frame, arrives, rfl⟩ := place_eq_ok h
  exact arrives_of_arrival arrives ha

theorem arrives_of_lands (h : place label B = .ok u C) (hl : B.Lands label filled) :
    C.Arrives [] filled := by
  obtain ⟨ahead, frame, arrives, rfl⟩ := place_eq_ok h
  obtain ⟨jumped, hj, hsub⟩ := hl
  exact ⟨frame, frame.widths, placed_frame _ _ _, rfl,
    (Later.arrival arrives hj).promises.trans hsub⟩

/-- The frame behind a label that has been placed stays that of the label. -/
theorem arrives_again (h : place label B = .ok u C) (hl : Later C D) (hd : D.Lands label filled) :
    C.Arrives [] filled := by
  obtain ⟨ahead, frame, arrives, rfl⟩ := place_eq_ok h
  obtain ⟨found, hf, hsub⟩ := hd
  have placed : (B.placed label frame).isPlaced label = true := by
    rw [isPlaced_iff, placed_nodes]
    exact List.mem_cons_self
  rw [hl.fixed label placed, find?_placed, if_pos rfl] at hf
  cases hf
  exact ⟨frame, frame.widths, placed_frame _ _ _, rfl, hsub⟩

theorem balanced_placed (B : Builder) (label : Label) (frame : EditFrame) :
    Balanced B (B.placed label frame) := by
  refine .trans (.of_eq ?_) (.append _ _ _)
  unfold isReachable
  cases B.frame <;> simp [setFrame]

section Regions

variable {start stop : Label} {catchType : Option String} {known : List EditType}
  {outer : List (List EditType)}

/-- A region is open from a fresh label on. -/
structure Enters (B : Builder) (start : Label) (C : Builder) : Prop where
  run : Run B C
  nodes : C.nodes = .label start :: B.nodes
  ahead : B.isPlaced start = false
  handlers : C.handlers = B.handlers
  regions : ∃ known outer, C.regions = known :: outer ∧
    List.Forall₂ (fun known known' => promises known' ⊆ promises known) B.regions outer
  arrives : ∀ {filled : Set Nat}, B.Arrives [] filled → C.Arrives [] filled

theorem enters_of_beginTry (h : beginTry B = .ok start C) : Enters B start C := by
  have run := (extends_beginTry [] h).1.run
  obtain ⟨rfl, current, frame, hf, ahead, arrives, rfl⟩ := beginTry_eq_ok h
  have placed := balanced_placed { B with labels := B.labels.fresh.2 } B.labels.fresh.1 frame
  exact ⟨run, by rw [opened_nodes, placed_nodes], ahead, by rw [opened_handlers, placed_handlers],
    ⟨_, _, rfl, placed⟩,
    fun ha => .of_eq (@arrives_of_arrival { B with labels := B.labels.fresh.2 } _ frame _ arrives ha) rfl⟩

/-- A region ends at a fresh label, with what is known in it for its handler. -/
structure Exits (B : Builder) (start stop handler : Label) (catchType : Option String)
    (known : List EditType) (C : Builder) : Prop where
  nodes : C.nodes = .label stop :: B.nodes
  ahead : B.isPlaced stop = false
  handlers : C.handlers = ⟨start, stop, handler, catchType⟩ :: B.handlers
  regions : List.Forall₂ (fun known known' => promises known' ⊆ promises known) B.regions
    (known :: C.regions)
  arrives : ∀ {filled : Set Nat}, B.Arrives [] filled → C.Arrives [] filled

theorem exits_of_endTry (h : endTry start catchType B = .ok (label, frame) C) :
    ∃ stop known, frame = ⟨known, [caughtType catchType]⟩ ∧ Exits B start stop label catchType known C := by
  obtain ⟨D, known, outer, stops, hr, rfl, rfl, rfl⟩ := endTry_eq_ok h
  have balanced : Balanced B D := by
    cases stops with
    | reached ahead arrives => exact balanced_placed { B with labels := B.labels.fresh.2 } _ _
    | unreached => exact .append { B with labels := B.labels.fresh.2 } _ _
  unfold Balanced at balanced
  rw [hr] at balanced
  refine ⟨_, known, rfl, (left_nodes _ _ _ _ _ _).trans stops.nodes_eq, stops.ahead, ?_, ?_, fun ha => ?_⟩
  · rw [left_handlers, stops.handlers_eq]
  · rwa [left_regions]
  · refine Arrives.of_eq ?_ (left_frame _ _ _ _ _ _)
    cases stops with
    | reached ahead arrives => exact @arrives_of_arrival { B with labels := B.labels.fresh.2 } _ _ _ arrives ha
    | unreached unreachable =>
      have hreachable := ha.isReachable
      unfold isReachable at hreachable
      rw [unreachable] at hreachable
      cases hreachable

/-- What is kept in a region is so at its handler. -/
theorem Exits.promises_subset (h : Exits B start stop label catchType known C) (hk : B.Kept filled) :
    promises known ⊆ filled := by
  obtain ⟨before, hm, hsub⟩ := exists_left_of_mem h.regions List.mem_cons_self
  exact hsub.trans (hk before hm)

end Regions

end Operations

end Builder

end ClassWeave
