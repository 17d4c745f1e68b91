import ClassWeave.Proofs.Code.Checking

/-!
Any calls of a builder. What one call does keeps what the linear check needs: where the check is behind the
nodes so far, what is known in the regions that are open, and how their handlers may take over.
-/

namespace ClassWeave

namespace EditFrame

theorem merge_locals (locals others : List EditType) : EditFrame.merge ⟨locals, []⟩ ⟨others, []⟩ =
    some ⟨dropHalves (meetLocals locals others), []⟩ := by
  simp [merge]

/-- The locals of a frame weaken to others. -/
def LocalsWeaken (locals others : List EditType) : Prop :=
  Flows EditType.Weakens ⟨locals, []⟩ ⟨others, []⟩

theorem LocalsWeaken.refl (locals : List EditType) : LocalsWeaken locals locals := Flows.refl .refl _

theorem LocalsWeaken.trans {a b c : List EditType} (h : LocalsWeaken a b) (h' : LocalsWeaken b c) :
    LocalsWeaken a c := Flows.weakens_trans h h'

theorem localsWeaken_left (locals others : List EditType) :
    LocalsWeaken locals (dropHalves (meetLocals locals others)) :=
  flows_merge_left (merge_locals locals others)

theorem localsWeaken_right (locals others : List EditType) :
    LocalsWeaken others (dropHalves (meetLocals locals others)) :=
  flows_merge_right (merge_locals locals others)

/-- With the same stack the frames do as their locals. -/
theorem LocalsWeaken.flows {a b : List EditType} (h : LocalsWeaken a b) (stack : List EditType) :
    Flows EditType.Weakens ⟨a, stack⟩ ⟨b, stack⟩ :=
  ⟨(Flows.refl .refl ⟨a, stack⟩).stack, h.locals⟩

end EditFrame

open EditFrame

namespace Builder

variable {B C D : Builder} {frame entry : EditFrame} {label start : Label} {starts : List Label}
  {pool : ConstantPool} {table : FrameTable}

/-- What is known in the open regions where control gets in a frame. -/
def weakened : Option EditFrame → List (List EditType) → List (List EditType)
  | none, regions => regions
  | some frame, regions => regions.map fun known => dropHalves (meetLocals known frame.locals)

theorem append_weakened (B : Builder) (node : Node) (pending : Option Label) :
    (B.append node pending).regions = weakened B.frame B.regions := by
  rw [append_regions]
  cases B.frame <;> rfl

/-- Wherever control may be behind the start of a region, no more is known in the region. -/
def Knows (entry : EditFrame) (B : Builder) (pool : ConstantPool) (table : FrameTable) (start : Label)
    (known : List EditType) : Prop :=
  ∀ before, before <+: B.nodes.reverse → .label start ∈ before →
    ∀ frame, Passage.Behind pool B.shape table entry before frame → LocalsWeaken frame.locals known

/-- Going through the code so far leads to where the builder is. The labels are the starts of the open
regions, the innermost first. -/
structure Tracks (entry : EditFrame) (starts : List Label) (B : Builder) (pool : ConstantPool)
    (table : FrameTable) : Prop where
  passage : ∃ passage, Passage.through pool B.shape table entry B.nodes.reverse = some passage ∧
    Follows B table passage
  regions : List.Forall₂ (Knows entry B pool table) starts B.regions
  handled : ∀ handler ∈ B.handlers, ∀ before, before <+: B.nodes.reverse → .label handler.start ∈ before →
    .label handler.stop ∉ before → ∀ frame, Passage.Behind pool B.shape table entry before frame →
      ∃ f, Received B table ⟨frame.locals, [caughtType handler.catchType]⟩ handler.handler f

namespace Tracks

variable (h : Tracks entry starts B pool table)
include h

/-- The tables of the builder change, and the code stays. -/
theorem later (after : After B C) (hn : C.nodes = B.nodes) (hp : C.pending = B.pending) (hf : C.frame = B.frame)
    (hs : C.shape = B.shape) (hr : C.regions = B.regions) (hh : C.handlers = B.handlers) :
    Tracks entry starts C pool table where
  passage := by
    obtain ⟨passage, hw, follows⟩ := h.passage
    exact ⟨passage, by rw [hs, hn, hw], follows.later after hn hp hf⟩
  regions := by
    rw [hr]
    refine h.regions.imp fun start known hk => ?_
    unfold Knows
    rw [hn, hs]
    exact hk
  handled := by
    rw [hn, hs, hh]
    intro handler hm before hsub hstart hstop frame hb
    obtain ⟨f, hr⟩ := h.handled handler hm before hsub hstart hstop frame hb
    exact hr.later after

/-- A node is put behind the code. -/
theorem append (after : After B C) {node : Node} (hn : C.nodes = node :: B.nodes) (hs : C.shape = B.shape)
    (hr : C.regions = weakened C.frame B.regions) (hh : C.handlers = B.handlers)
    (stops : ∀ handler ∈ B.handlers, .label handler.stop ∈ B.nodes)
    (hnext : ∀ passage, Follows B table passage → ∃ next, passage.advance pool B.shape table node = some next ∧
      Follows C table next) : Tracks entry starts C pool table := by
  obtain ⟨passage, hw, follows⟩ := h.passage
  obtain ⟨next, ha, follows'⟩ := hnext passage follows
  have hnodes : C.nodes.reverse = B.nodes.reverse ++ [node] := by rw [hn, List.reverse_cons]
  have hnext : Passage.through pool C.shape table entry C.nodes.reverse = some next := by
    rw [hs]
    exact foldlM_advance hn hw ha
  have behind : ∀ frame, Passage.Behind pool C.shape table entry C.nodes.reverse frame → C.frame = some frame := by
    rintro frame ⟨other, hother, hframe⟩
    rw [hnext] at hother
    rw [← follows'.frame, Option.some.inj hother, hframe]
  constructor
  case passage => exact ⟨next, hnext, follows'⟩
  case regions =>
    have knows : ∀ start known known', Knows entry B pool table start known → LocalsWeaken known known' →
        (∀ frame, C.frame = some frame → LocalsWeaken frame.locals known') →
          Knows entry C pool table start known' := by
      intro start known known' hk hweakens hlast before hsub hstart frame hb
      rw [hnodes] at hsub
      rcases List.prefix_concat_iff.1 hsub with rfl | hsub
      · rw [← hnodes] at hb
        exact hlast frame (behind frame hb)
      · rw [hs] at hb
        exact (hk before hsub hstart frame hb).trans hweakens
    rw [hr]
    cases hf : C.frame with
    | none =>
      refine h.regions.imp fun start known hk => knows start known known hk (.refl _) fun frame hframe => ?_
      rw [hf] at hframe
      cases hframe
    | some current =>
      apply List.forall₂_map_right_iff.2
      refine h.regions.imp fun start known hk => knows start known _ hk (localsWeaken_left _ _) ?_
      intro frame hframe
      rw [← Option.some.inj (hf.symm.trans hframe)]
      exact localsWeaken_right _ _
  case handled =>
    rw [hh]
    intro handler hm before hsub hstart hstop frame hb
    rw [hnodes] at hsub
    rcases List.prefix_concat_iff.1 hsub with rfl | hsub
    · exact absurd (List.mem_append_left _ (List.mem_reverse.2 (stops handler hm))) hstop
    · rw [hs] at hb
      obtain ⟨f, hr⟩ := h.handled handler hm before hsub hstart hstop frame hb
      exact hr.later after

end Tracks

/-- What the linear check needs of a builder, whose frames any table may have and whose constants any
greater pool. -/
structure Checked (entry : EditFrame) (starts : List Label) (B : Builder) : Prop where
  bookkept : Bookkept B
  awaited : ∀ l f, B.labelFrames.find? l = some f → B.isPlaced l = true ∨ l ∈ B.needsFrame
  started : ∀ start ∈ starts, B.isPlaced start = true
  tracks : ∀ pool table, B.pool ≤ pool → Records B table → Tracks entry starts B pool table

namespace Checked

variable (h : Checked entry starts B)
include h

theorem awaiting (ahead : B.isPlaced label = false) (hf : B.labelFrames.find? label = some frame) :
    label ∈ B.needsFrame := by
  rcases h.awaited label frame hf with hp | hm
  · rw [ahead] at hp
    cases hp
  · exact hm

theorem stops : ∀ handler ∈ B.handlers, .label handler.stop ∈ B.nodes := fun handler hm =>
  (isPlaced_iff B handler.stop).1 (h.bookkept.handlers handler hm).2.1

theorem intern (grows : B.pool ≤ pool) : Checked entry starts { B with pool := pool } where
  bookkept := h.bookkept.congr rfl rfl rfl rfl rfl
  awaited := h.awaited
  started := h.started
  tracks other table hle records :=
    (h.tracks other table (ConstantPool.le_trans grows hle) records).later (.of_later (.of_eq rfl rfl rfl)) rfl rfl rfl
      rfl rfl rfl

theorem fresh : Checked entry starts { B with labels := B.labels.fresh.2 } where
  bookkept := h.bookkept.fresh
  awaited := h.awaited
  started := h.started
  tracks other table hle records :=
    (h.tracks other table hle records).later (.of_later (.of_eq rfl rfl rfl)) rfl rfl rfl rfl rfl rfl

/-- A node is put behind the code, and the check goes on over it. -/
theorem append (bookkept : Bookkept C) (after : After B C)
    (awaited : ∀ l f, C.labelFrames.find? l = some f → C.isPlaced l = true ∨ l ∈ C.needsFrame) {node : Node}
    (hn : C.nodes = node :: B.nodes) (hs : C.shape = B.shape) (hpool : C.pool = B.pool)
    (hr : C.regions = weakened C.frame B.regions) (hh : C.handlers = B.handlers)
    (hnext : ∀ pool table passage, B.pool ≤ pool → Records C table → Follows B table passage →
      ∃ next, passage.advance pool B.shape table node = some next ∧ Follows C table next) :
    Checked entry starts C where
  bookkept := bookkept
  awaited := awaited
  started start hm := after.placed start (h.started start hm)
  tracks other table hle records := by
    rw [hpool] at hle
    exact (h.tracks other table hle (records.before after)).append after hn hs hr hh h.stops
      fun passage follows => hnext other table passage hle records follows

theorem insn {insn : Insn} {before behind : EditFrame} (reachable : B.frame = some before)
    (typed : insn.verify B.pool B.shape.thisClass B.pending before = .ok ((), behind)) :
    Checked entry starts ({ B with frame := some behind }.append (.insn insn) none) := by
  have step : Step B ({ B with frame := some behind }.append (.insn insn) none) := .insn reachable typed
  have after := After.of_later (.step h.bookkept step)
  refine h.append (h.bookkept.step step) after (awaited_step h.bookkept step h.awaited) (append_nodes _ _ _)
    (append_shape _ _ _) (append_pool _ _ _) ?_ (append_handlers _ _ _) ?_
  · rw [append_weakened, append_frame]
  · intro pool table passage hle records follows
    have hv := Insn.verify_of_le hle typed
    refine ⟨⟨passage.passed, none, some behind, [] ++ passage.edges⟩, ?_, ?_⟩
    · simp [Passage.advance, follows.frame, follows.pending, reachable, hv, Except.toOption]
    · exact follows.instruction after rfl (append_nodes _ _ _) (append_pending _ _ _) (append_frame _ _ _)
        fun edge he => absurd he List.not_mem_nil

theorem branch {branch : Branch Label} {before behind : EditFrame} (reachable : B.frame = some before)
    (typed : branch.verify B.shape.returnType before = .ok ((), behind))
    (known : ∀ target ∈ branch.jumpTargets, target.number < B.labels.allocated)
    (jumps : Jumps behind branch.jumpTargets { B with frame := none } D) :
    Checked entry starts ({ D with frame := if branch.fallsThrough then some behind else none }.append
      (.branch branch) none) := by
  have after := After.of_later (.branch jumps)
  have ended : After D ({ D with frame := if branch.fallsThrough then some behind else none }.append
      (.branch branch) none) := .of_later (.ended D _ _)
  refine h.append (h.bookkept.branch known jumps) after ?_ (by rw [append_nodes, jumps.nodes_eq])
    (by rw [append_shape, jumps.shape_eq]) (by rw [append_pool, jumps.pool_eq]) ?_ ?_ ?_
  · intro l f hf
    rw [append_labelFrames] at hf
    by_cases hm : l ∈ branch.jumpTargets
    · right
      rw [append_needsFrame]
      exact jumps.mem_needs.2 (.inl hm)
    · have hb := (jumps.find?_of_notMem hm).symm.trans hf
      exact (h.awaited l f hb).imp (after.placed l) (after.needs l)
  · rw [append_weakened, append_frame]
    exact congrArg _ jumps.regions_eq
  · rw [append_handlers]
    exact jumps.handlers_eq
  · intro pool table passage hle records follows
    refine ⟨⟨passage.passed, none, if branch.fallsThrough then some behind else none,
      branch.jumpTargets.map (fun target => ⟨behind, target, passage.passed.contains target⟩)
        ++ passage.edges⟩, ?_, ?_⟩
    · simp [Passage.advance, follows.frame, reachable, typed, Except.toOption]
    · refine follows.instruction after rfl (by rw [append_nodes, jumps.nodes_eq]) (append_pending _ _ _)
        (append_frame _ _ _) fun edge he => ?_
      obtain ⟨target, ht, rfl⟩ := List.mem_map.1 he
      obtain ⟨f, hr⟩ := jumps.received table target ht
      exact hr.later ended

theorem lays (lays : Lays B C label frame) (bookkept : Bookkept C) (hs : C.shape = B.shape)
    (hpool : C.pool = B.pool) : Checked entry starts C := by
  refine h.append bookkept lays.after ?_ lays.nodes hs hpool ?_ lays.handlers ?_
  · intro l f hf
    rw [lays.framed] at hf
    by_cases he : l = label
    · exact .inl (lays.isPlaced_iff.2 (.inl he))
    · rw [if_neg he] at hf
      exact (h.awaited l f hf).imp (lays.after.placed l) (lays.after.needs l)
  · rw [lays.reached]
    exact lays.regions
  · intro pool table passage _ records follows
    exact ⟨_, rfl, follows.enter lays records⟩

theorem place (known : label.number < B.labels.allocated) (ahead : B.isPlaced label = false)
    (arrives : B.arrival? label = some frame) : Checked entry starts (B.placed label frame) :=
  h.lays (lays_placed ahead arrives fun _ => h.awaiting ahead) (h.bookkept.placed known ahead frame)
    (placed_shape B label frame) (placed_pool B label frame)

theorem put (known : label.number < B.labels.allocated) (ahead : B.isPlaced label = false)
    (flows : ∀ arriving ∈ B.frame.toList ++ (B.labelFrames.find? label).toList, arriving.isAssignableTo frame = true) :
    Checked entry starts (B.put label frame) := by
  refine h.lays (lays_put ahead flows) ?_ ((append_shape _ _ _).trans (require_shape B label))
    ((append_pool _ _ _).trans (require_pool B label))
  have noted : Bookkept { (B.require label).setFrame label frame with frame := some frame } :=
    (h.bookkept.note known frame).congr rfl rfl rfl rfl rfl
  refine noted.append _ _ ?_ (by simp)
  rintro other ⟨⟩
  refine ⟨(isPlaced_congr (require_nodes B label)).trans ahead, ?_⟩
  change label.number < (B.require label).labels.allocated
  rwa [require_labels]

/-- The end of a region where control does not get. -/
theorem stop (unreachable : B.frame = none) :
    Checked entry starts ({ B with labels := B.labels.fresh.2 }.append (.label B.labels.fresh.1)
      (some B.labels.fresh.1)) := by
  have step : Step B ({ B with labels := B.labels.fresh.2 }.append (.label B.labels.fresh.1)
      (some B.labels.fresh.1)) := .stop unreachable
  have after := After.of_later (.step h.bookkept step)
  refine h.append (h.bookkept.step step) after (awaited_step h.bookkept step h.awaited) (append_nodes _ _ _)
    (append_shape _ _ _) (append_pool _ _ _) ?_ (append_handlers _ _ _) ?_
  · rw [append_weakened, append_frame]
  · intro pool table passage _ records follows
    refine ⟨_, rfl, ?_⟩
    have unframed : B.labelFrames.find? B.labels.fresh.1 = none := by
      cases hf : B.labelFrames.find? B.labels.fresh.1 with
      | none => rfl
      | some f => exact absurd (h.bookkept.framed_lt _ f hf) (Nat.lt_irrefl _)
    have unrecorded : table.find? B.labels.fresh.1 = none := by
      rcases records B.labels.fresh.1 ((isPlaced_iff _ _).2 (by simp)) with hf | ⟨-, hf⟩
      · rwa [append_labelFrames, unframed] at hf
      · exact hf
    unfold Passage.enter
    rw [unrecorded]
    refine ⟨fun l => ?_, (append_pending _ _ _).symm, ?_, fun edge hm => ?_⟩
    · rw [List.mem_cons, follows.passed l, isPlaced_iff, isPlaced_iff, append_nodes, List.mem_cons]
      simp
    · rw [append_frame]
      exact follows.frame
    · obtain ⟨f, hr⟩ := follows.edges edge hm
      exact hr.later after

/-- A region is opened at the label that has just been put. -/
theorem opened {current : EditFrame} {rest : List Node} (hn : B.nodes = .label start :: rest)
    (reachable : B.frame = some current) : Checked entry (start :: starts) (B.opened current.locals) where
  bookkept := h.bookkept.congr rfl rfl rfl rfl rfl
  awaited := h.awaited
  started := List.forall_mem_cons.2 ⟨(isPlaced_iff B start).2 (hn ▸ List.mem_cons_self), h.started⟩
  tracks other table hle records := by
    have tracks := h.tracks other table hle records
    have after : After B (B.opened current.locals) := .of_later (.of_eq rfl rfl rfl)
    obtain ⟨passage, hw, follows⟩ := tracks.passage
    constructor
    case passage => exact ⟨passage, hw, follows.later after rfl rfl rfl⟩
    case regions =>
      apply List.Forall₂.cons
      · intro before hsub hstart frame hb
        have hnodes : (B.opened current.locals).nodes.reverse = rest.reverse ++ [.label start] := by
          rw [opened_nodes, hn, List.reverse_cons]
        rw [hnodes] at hsub
        rcases List.prefix_concat_iff.1 hsub with rfl | hsub
        · obtain ⟨found, hfound, hframe⟩ := hb
          rw [hn, List.reverse_cons] at hw
          have he : some passage = some found := hw.symm.trans hfound
          have hcurrent : some current = some frame := by
            rw [← reachable, ← follows.frame, Option.some.inj he, hframe]
          rw [Option.some.inj hcurrent]
          exact .refl _
        · have hnodup := h.bookkept.nodup
          rw [hn] at hnodup
          exact absurd (mem_labels_iff.2 (List.mem_reverse.1 (hsub.subset hstart))) (List.nodup_cons.1 hnodup).1
      · exact tracks.regions.imp fun _ _ hk => hk
    case handled =>
      intro handler hm before hsub hstart hstop frame hb
      obtain ⟨f, hr⟩ := tracks.handled handler hm before hsub hstart hstop frame hb
      exact hr.later after

end Checked

/-- The innermost region ends at the label that has just been put. -/
theorem Checked.left (h : Checked entry (start :: starts) B) {stop : Label}
    (stopped : B.isPlaced stop = true) {catchType : Option String} {known : List EditType}
    {outer : List (List EditType)} (inside : B.regions = known :: outer) :
    Checked entry starts (B.left start stop catchType known outer) := by
  obtain ⟨started, others⟩ := List.forall_mem_cons.1 h.started
  have step : Step B (B.left start stop catchType known outer) := .leave started stopped inside
  have after := After.of_later (.step h.bookkept step)
  have bookkept := h.bookkept.step step
  refine ⟨bookkept, awaited_step h.bookkept step h.awaited, fun l hl => after.placed l (others l hl),
    fun other table hle records => ?_⟩
  rw [left_pool] at hle
  have tracks := h.tracks other table hle (records.before after)
  have hregions := tracks.regions
  rw [inside] at hregions
  obtain ⟨innermost, regions⟩ := List.forall₂_cons.1 hregions
  constructor
  case passage =>
    obtain ⟨passage, hw, follows⟩ := tracks.passage
    refine ⟨passage, ?_, follows.later after (left_nodes _ _ _ _ _ _) (left_pending _ _ _ _ _ _)
      (left_frame _ _ _ _ _ _)⟩
    rw [left_shape, left_nodes, hw]
  case regions =>
    rw [left_regions]
    refine regions.imp fun start known hk => ?_
    unfold Knows
    rw [left_nodes, left_shape]
    exact hk
  case handled =>
    rw [left_handlers, left_nodes, left_shape]
    intro handler hm before hsub hstart hstop frame hb
    rcases List.mem_cons.1 hm with rfl | hm
    · have hframed : (B.left start stop catchType known outer).labelFrames.find? B.labels.fresh.1 =
          some ⟨known, [caughtType catchType]⟩ := by rw [find?_left, if_pos rfl]
      have hneeded : B.labels.fresh.1 ∈ (B.left start stop catchType known outer).needsFrame :=
        (mem_left _ _ _ _ _ _).2 (.inl rfl)
      have flows := (innermost before hsub hstart frame hb).flows [caughtType catchType]
      exact ⟨_, hframed, .inl hneeded, fun _ => flows.assignable, fun _ => flows⟩
    · obtain ⟨f, hr⟩ := tracks.handled handler hm before hsub hstart hstop frame hb
      exact hr.later after

theorem checked_start (pool : ConstantPool) (labels : LabelSupply) (shape : MethodShape) (entry : EditFrame) :
    Checked entry [] (Builder.start pool labels shape entry) where
  bookkept := ⟨List.nodup_nil, .nil, by simp [isPlaced, Builder.start], by simp [Builder.start],
    by simp [Builder.start], by simp [Builder.start], by simp [Builder.start]⟩
  awaited l f hf := by cases hf
  started := List.forall_mem_nil _
  tracks _ table _ _ :=
    ⟨⟨.start entry, rfl, fun l => by simp [Passage.start, isPlaced, Builder.start], rfl, rfl,
      fun edge hm => absurd hm List.not_mem_nil⟩, .nil, fun handler hm => absurd hm List.not_mem_nil⟩

/-- What a call of a builder asks for. -/
inductive Call where
  | fresh
  | push (insn : Insn)
  | pushBranch (branch : Branch Label)
  | place (label : Label)
  | placeWith (label : Label) (frame : EditFrame)
  | beginTry
  | endTry (catchType : Option String)

namespace Call

def labels : Call → List Label
  | .pushBranch branch => branch.jumpTargets
  | .place label | .placeWith label _ => [label]
  | .fresh | .push _ | .beginTry | .endTry _ => []

/-- One call, which gives the starts of the regions that are open behind it, the innermost first. -/
def perform (starts : List Label) : Call → Building (List Label)
  | .fresh => do
    discard Builder.fresh
    return starts
  | .push insn => do
    Builder.push insn
    return starts
  | .pushBranch branch => do
    Builder.pushBranch branch
    return starts
  | .place label => do
    Builder.place label
    return starts
  | .placeWith label frame => do
    Builder.placeWith label frame
    return starts
  | .beginTry => do
    let start ← Builder.beginTry
    return start :: starts
  | .endTry catchType => do
    match starts with
    | [] => throw .unreachableCode
    | start :: outer => do
      discard (Builder.endTry start catchType)
      return outer

/-- Calls one after another, none of which may use a label that has not been handed out. -/
def performAll (starts : List Label) : List Call → Building (List Label)
  | [] => return starts
  | call :: rest => do
    let supply := (← get).labels
    if call.labels.all (·.number < supply.allocated) then
      let starts ← call.perform starts
      performAll starts rest
    else throw .unreachableCode

end Call

/-- An instruction is put behind the label that an allocation gets, if it has none. -/
theorem push_cases {insn : Insn} {u : Unit} (h : push insn B = .ok u C) : ∃ D before behind,
    (D = B ∨ ∃ frame, B.isPlaced B.labels.fresh.1 = false ∧ B.arrival? B.labels.fresh.1 = some frame ∧
      D = { B with labels := B.labels.fresh.2 }.placed B.labels.fresh.1 frame) ∧
    D.frame = some before ∧ insn.verify D.pool D.shape.thisClass D.pending before = .ok ((), behind) ∧
      C = { D with frame := some behind }.append (.insn insn) none := by
  unfold push at h
  obtain ⟨found, D, hfound, h⟩ := bind_eq_ok.1 h
  have hallocation : found = D.pending ∧ (D = B ∨ ∃ frame, B.isPlaced B.labels.fresh.1 = false ∧
      B.arrival? B.labels.fresh.1 = some frame ∧
        D = { B with labels := B.labels.fresh.2 }.placed B.labels.fresh.1 frame) := by
    unfold Builder.allocation at hfound
    rw [get_bind_eq_ok] at hfound
    have kept (hsame : found = B.pending ∧ D = B) : found = D.pending ∧ D = B := ⟨hsame.2 ▸ hsame.1, hsame.2⟩
    cases insn with
    | new index =>
      have hpending : (∃ pending, B.pending = some pending) ∨ B.pending = none := by
        cases B.pending <;> simp
      rcases hpending with ⟨pending, hp⟩ | hp
      · simp only [hp] at hfound
        exact (kept ((pure_eq_ok.1 hfound).imp (Eq.trans · hp.symm) id)).imp id .inl
      · simp only [hp] at hfound
        obtain ⟨label, B₁, hfresh, hfound⟩ := bind_eq_ok.1 hfound
        obtain ⟨rfl, rfl⟩ := fresh_eq_ok.1 hfresh
        obtain ⟨_, B₂, hplace, hfound⟩ := bind_eq_ok.1 hfound
        obtain ⟨rfl, rfl⟩ := pure_eq_ok.1 hfound
        obtain ⟨ahead, frame, arrives, rfl⟩ := place_eq_ok hplace
        exact ⟨(placed_pending _ _ _).symm, .inr ⟨frame, ahead, arrives, rfl⟩⟩
    | _ => exact (kept (pure_eq_ok.1 hfound)).imp id .inl
  rw [get_bind_eq_ok] at h
  cases hf : D.frame with
  | none =>
    simp only [hf] at h
    exact (throw_ne_ok.1 h).elim
  | some before =>
    simp only [hf] at h
    cases hv : insn.verify D.pool D.shape.thisClass found before with
    | error cause =>
      simp only [hv] at h
      exact (throw_ne_ok.1 h).elim
    | ok result =>
      obtain ⟨⟨⟩, behind⟩ := result
      simp only [hv] at h
      exact ⟨D, before, behind, hallocation.2, hf, hallocation.1 ▸ hv, set_eq_ok.1 h⟩

namespace Checked

theorem perform {call : Call} {starts' : List Label} (h : Checked entry starts B)
    (known : ∀ label ∈ call.labels, label.number < B.labels.allocated)
    (hcall : call.perform starts B = .ok starts' C) : Checked entry starts' C ∧ C.shape = B.shape := by
  cases call with
  | fresh =>
    obtain ⟨_, D, hstep, hcall⟩ := bind_eq_ok.1 hcall
    obtain ⟨rfl, rfl⟩ := pure_eq_ok.1 hcall
    obtain ⟨label, hstep⟩ := discard_eq_ok.1 hstep
    obtain ⟨-, rfl⟩ := fresh_eq_ok.1 hstep
    exact ⟨h.fresh, rfl⟩
  | push insn =>
    obtain ⟨_, D, hstep, hcall⟩ := bind_eq_ok.1 hcall
    obtain ⟨rfl, rfl⟩ := pure_eq_ok.1 hcall
    obtain ⟨E, before, behind, hallocation, reachable, typed, rfl⟩ := push_cases hstep
    rcases hallocation with rfl | ⟨frame, ahead, arrives, rfl⟩
    · exact ⟨h.insn reachable typed, append_shape _ _ _⟩
    · have placed := h.fresh.place (Nat.lt_succ_self _) ahead arrives
      have hshape := placed_shape { B with labels := B.labels.fresh.2 } B.labels.fresh.1 frame
      exact ⟨placed.insn reachable typed, (append_shape _ _ _).trans hshape⟩
  | pushBranch branch =>
    obtain ⟨_, D, hstep, hcall⟩ := bind_eq_ok.1 hcall
    obtain ⟨rfl, rfl⟩ := pure_eq_ok.1 hcall
    obtain ⟨before, behind, E, reachable, typed, jumps, rfl⟩ := pushBranch_eq_ok hstep
    exact ⟨h.branch reachable typed known jumps, (append_shape _ _ _).trans jumps.shape_eq⟩
  | place label =>
    obtain ⟨_, D, hstep, hcall⟩ := bind_eq_ok.1 hcall
    obtain ⟨rfl, rfl⟩ := pure_eq_ok.1 hcall
    obtain ⟨ahead, frame, arrives, rfl⟩ := place_eq_ok hstep
    exact ⟨h.place (known label (List.mem_singleton_self _)) ahead arrives, placed_shape _ _ _⟩
  | placeWith label frame =>
    obtain ⟨_, D, hstep, hcall⟩ := bind_eq_ok.1 hcall
    obtain ⟨rfl, rfl⟩ := pure_eq_ok.1 hcall
    obtain ⟨ahead, flows, rfl⟩ := placeWith_eq_ok hstep
    exact ⟨h.put (known label (List.mem_singleton_self _)) ahead flows,
      (append_shape _ _ _).trans (require_shape B label)⟩
  | beginTry =>
    obtain ⟨start, D, hstep, hcall⟩ := bind_eq_ok.1 hcall
    obtain ⟨rfl, rfl⟩ := pure_eq_ok.1 hcall
    obtain ⟨rfl, current, frame, reachable, ahead, arrives, rfl⟩ := beginTry_eq_ok hstep
    have placed := h.fresh.place (Nat.lt_succ_self _) ahead arrives
    -- Nothing has jumped to a fresh label.
    have hframe : frame = current := by
      have unframed : B.labelFrames.find? B.labels.fresh.1 = none := by
        cases hf : B.labelFrames.find? B.labels.fresh.1 with
        | none => rfl
        | some f => exact absurd (h.bookkept.framed_lt _ f hf) (Nat.lt_irrefl _)
      unfold arrival? at arrives
      rw [reachable, unframed] at arrives
      exact (Option.some.inj arrives).symm
    rw [hframe] at placed ⊢
    have hshape := placed_shape { B with labels := B.labels.fresh.2 } B.labels.fresh.1 current
    exact ⟨placed.opened (placed_nodes _ _ _) (placed_frame _ _ _), hshape⟩
  | endTry catchType =>
    cases starts with
    | nil => exact (throw_ne_ok.1 hcall).elim
    | cons start outer =>
      obtain ⟨_, D, hstep, hcall⟩ := bind_eq_ok.1 hcall
      obtain ⟨rfl, rfl⟩ := pure_eq_ok.1 hcall
      obtain ⟨⟨handler, frame⟩, hstep⟩ := discard_eq_ok.1 hstep
      obtain ⟨E, known, regions, stops, inside, -, -, rfl⟩ := endTry_eq_ok hstep
      have stopped : E.isPlaced B.labels.fresh.1 = true := by
        rw [isPlaced_iff, stops.nodes_eq]
        exact List.mem_cons_self
      have checked : Checked entry (start :: starts') E ∧ E.shape = B.shape := by
        cases stops with
        | @reached frame ahead arrives =>
          have hshape := placed_shape { B with labels := B.labels.fresh.2 } B.labels.fresh.1 frame
          exact ⟨h.fresh.place (Nat.lt_succ_self _) ahead arrives, hshape⟩
        | unreached unreachable ahead => exact ⟨h.stop unreachable, append_shape _ _ _⟩
      exact ⟨checked.1.left stopped inside, (left_shape _ _ _ _ _ _).trans checked.2⟩

theorem performAll : ∀ (calls : List Call) {starts starts' : List Label} {B C : Builder},
    Checked entry starts B → Call.performAll starts calls B = .ok starts' C →
      Checked entry starts' C ∧ C.shape = B.shape
  | [], starts, starts', B, C, h, hcalls => by
    obtain ⟨rfl, rfl⟩ := pure_eq_ok.1 hcalls
    exact ⟨h, rfl⟩
  | call :: rest, starts, starts', B, C, h, hcalls => by
    unfold Call.performAll at hcalls
    rw [get_bind_eq_ok] at hcalls
    split at hcalls
    · next hknown =>
      obtain ⟨middle, D, hcall, hcalls⟩ := bind_eq_ok.1 hcalls
      have known : ∀ label ∈ call.labels, label.number < B.labels.allocated := by
        simpa using hknown
      obtain ⟨first, hshape⟩ := h.perform known hcall
      obtain ⟨others, hshape'⟩ := performAll rest first hcalls
      exact ⟨others, hshape'.trans hshape⟩
    · exact (throw_ne_ok.1 hcalls).elim

end Checked

end Builder

namespace Passage

variable {pool : ConstantPool} {shape : MethodShape} {frames : FrameTable} {entry : EditFrame}

/-- Labels without frames are passed where control does not get, and do not change that. -/
theorem dead_of_labels : ∀ (labels : List Label) {first last : Passage}, first.frame = none →
    (∀ label ∈ labels, frames.find? label = none) →
      (labels.map Node.label).foldlM (advance pool shape frames) first = some last → last.frame = none
  | [], first, last, hdead, _, h => by
    rw [← Option.some.inj h]
    exact hdead
  | label :: rest, first, last, hdead, hnone, h => by
    obtain ⟨hlabel, hrest⟩ := List.forall_mem_cons.1 hnone
    have hentered : (first.enter frames label).frame = none := by
      unfold enter
      rw [hlabel]
      exact hdead
    rw [List.map_cons, List.foldlM_cons] at h
    exact dead_of_labels rest hentered hrest h

/-- An instruction is only passed where control gets. -/
theorem reached_of_advance {passage next : Passage} {node : Node} (hnode : node.isLabel = false)
    (h : passage.advance pool shape frames node = some next) : passage.frame ≠ none := by
  intro hdead
  cases node with
  | label label => cases hnode
  | insn insn =>
    rw [advance, hdead] at h
    cases h
  | branch branch =>
    rw [advance, hdead] at h
    cases h

theorem framed_of_through {before behind : List Node} {branch : Branch Label} {labels : List Label} {node : Node}
    {passage : Passage} (h : through pool shape frames entry
      (before ++ .branch branch :: (labels.map .label ++ node :: behind)) = some passage)
    (hbranch : branch.fallsThrough = false) (hnode : node.isLabel = false) :
    ∃ label ∈ labels, (frames.find? label).isSome = true := by
  unfold through at h
  rw [List.foldlM_append] at h
  obtain ⟨first, -, h⟩ := Option.bind_eq_some_iff.1 h
  rw [List.foldlM_cons] at h
  obtain ⟨second, hsecond, h⟩ := Option.bind_eq_some_iff.1 h
  rw [List.foldlM_append] at h
  obtain ⟨third, hthird, h⟩ := Option.bind_eq_some_iff.1 h
  rw [List.foldlM_cons] at h
  obtain ⟨fourth, hfourth, -⟩ := Option.bind_eq_some_iff.1 h
  have hdead : second.frame = none := by
    unfold advance at hsecond
    obtain ⟨_, -, hsecond⟩ := Option.bind_eq_some_iff.1 hsecond
    obtain ⟨_, -, hsecond⟩ := Option.bind_eq_some_iff.1 hsecond
    rw [← Option.some.inj hsecond]
    dsimp only
    rw [hbranch]
    rfl
  by_contra hnone
  apply reached_of_advance hnode hfourth
  apply dead_of_labels labels hdead _ hthird
  intro label hm
  by_contra hsome
  exact hnone ⟨label, hm, Option.isSome_iff_ne_none.2 hsome⟩

end Passage

namespace Builder

variable {B : Builder} {entry : EditFrame} {starts : List Label}

theorem find?_finish (B : Builder) (label : Label) : B.finish.frames.find? label =
    if label ∈ B.needsFrame then B.labelFrames.find? label else none := by
  unfold finish
  dsimp only
  rw [FrameTable.find?_filter]
  simp

theorem records_finish (B : Builder) : Records B B.finish.frames := by
  intro label _
  rw [find?_finish]
  by_cases hm : label ∈ B.needsFrame
  · exact .inl (if_pos hm)
  · exact .inr ⟨hm, if_neg hm⟩

theorem Received.finished {arriving frame : EditFrame} {target : Label}
    (h : Received B B.finish.frames arriving target frame) :
    B.finish.frames.find? target = some frame ∧ arriving.isAssignableTo frame = true := by
  constructor
  · rcases h.recorded with hm | ⟨-, hf⟩
    · rw [find?_finish, if_pos hm]
      exact h.framed
    · exact hf
  · cases hp : B.isPlaced target with
    | true => exact h.fits hp
    | false => exact (h.weakens hp).assignable

theorem checks_of_performAll {pool : ConstantPool} {labels : LabelSupply} {shape : MethodShape} {calls : List Call}
    (h : Call.performAll [] calls (start pool labels shape entry) = .ok starts B) :
    B.finish.Checks B.pool shape entry := by
  obtain ⟨checked, hshape⟩ := (checked_start pool labels shape entry).performAll calls h
  have tracks := checked.tracks B.pool B.finish.frames (ConstantPool.le_refl _) (records_finish B)
  have hshape : B.shape = shape := hshape
  rw [← hshape]
  obtain ⟨passage, hw, follows⟩ := tracks.passage
  constructor
  case passes =>
    refine ⟨passage, hw, follows.frame, fun edge hm => ?_⟩
    obtain ⟨frame, hr⟩ := follows.edges edge hm
    exact ⟨frame, hr.finished⟩
  case resumes =>
    intro before branch labels node behind hnodes hbranch hnode
    have hw : Passage.through B.pool B.shape B.finish.frames entry B.finish.nodes = some passage := hw
    rw [hnodes] at hw
    exact Passage.framed_of_through hw hbranch hnode
  case handled =>
    intro handler hm before hsub hstart hstop frame hb
    obtain ⟨target, hr⟩ := tracks.handled handler (List.mem_reverse.1 hm) before hsub hstart hstop frame hb
    exact ⟨target, hr.finished⟩

/-- A loop in a region whose handler throws again what it catches. -/
def loopCalls : List Call :=
  [.fresh, .place ⟨0⟩, .beginTry, .push (.load .int 2), .pushBranch (.ifZero .eq ⟨0⟩), .endTry none,
    .pushBranch (.return none),
    .placeWith ⟨3⟩ ⟨[.long, .top, .integer], [.object "java/lang/Throwable"]⟩, .pushBranch .raise]

def loopShape : MethodShape := ⟨"a/B", true, false, ⟨[.base .long, .base .int], none⟩⟩

theorem checks_loopCalls : ∃ starts B,
    Call.performAll [] loopCalls (start .empty ⟨0⟩ loopShape loopShape.entryFrame) = .ok starts B ∧
      B.finish.Checks B.pool loopShape loopShape.entryFrame := by
  have performed : (match Call.performAll [] loopCalls (start .empty ⟨0⟩ loopShape loopShape.entryFrame) with
      | .ok _ _ => true
      | .error _ _ => false) = true := by decide +kernel
  split at performed
  · next starts B h => exact ⟨starts, B, h, checks_of_performAll h⟩
  · cases performed

end Builder

end ClassWeave
