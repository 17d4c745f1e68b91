import ClassWeave.Proofs.Code.OffsetFrames

/-!
Why a body cannot be written. If its labels are placed once and the frames are where control jumps
to, only sizes, ranges without code and frames that do not agree are left.
-/

namespace ClassWeave

section Failing

variable {ε σ α β : Type} {P : ε → Prop}

/-- The value is there, or the reason why it is not has the property. -/
def FailsOnly (P : ε → Prop) (value : Except ε α) : Prop := ∀ problem, value = .error problem → P problem

namespace FailsOnly

theorem ok (a : α) : FailsOnly P (.ok a) := fun _ h => by cases h

theorem error {problem : ε} (h : P problem) : FailsOnly P (.error problem : Except ε α) :=
  fun _ he => by cases he; exact h

theorem exists_ok {value : Except ε α} (h : FailsOnly (fun _ => False) value) : ∃ a, value = .ok a := by
  cases value with
  | ok a => exact ⟨a, rfl⟩
  | error problem => exact (h problem rfl).elim

theorem bind {value : Except ε α} {next : α → Except ε β} (hv : FailsOnly P value)
    (hn : ∀ a, value = .ok a → FailsOnly P (next a)) : FailsOnly P (value >>= next) := by
  cases value with
  | ok a => exact hn a rfl
  | error problem => exact fun other h => hv other (by cases h; rfl)

theorem ite {p : Prop} [Decidable p] {a b : Except ε α} (ha : FailsOnly P a) (hb : FailsOnly P b) :
    FailsOnly P (if p then a else b) := by
  split
  · exact ha
  · exact hb

theorem mapM {f : α → Except ε β} {items : List α} (h : ∀ item ∈ items, FailsOnly P (f item)) :
    FailsOnly P (items.mapM f) := by
  induction items with
  | nil => exact .ok []
  | cons item rest ih =>
    rw [List.mapM_cons]
    exact .bind (h item List.mem_cons_self) fun b _ =>
      .bind (ih fun x hx => h x (List.mem_cons_of_mem _ hx)) fun bs _ => .ok (b :: bs)

end FailsOnly

/-- The step ends well, or the reason why it does not has the property. -/
def StopsOnly (P : ε → Prop) (step : EStateM ε σ α) : Prop :=
  ∀ s problem s', step s = .error problem s' → P problem

namespace StopsOnly

theorem pure (a : α) : StopsOnly P (pure a : EStateM ε σ α) := fun _ _ _ h => by cases h

theorem throw {problem : ε} (h : P problem) : StopsOnly P (throw problem : EStateM ε σ α) :=
  fun _ _ _ he => by cases he; exact h

theorem bind {step : EStateM ε σ α} {next : α → EStateM ε σ β} (hs : StopsOnly P step)
    (hn : ∀ a s s', step s = .ok a s' → StopsOnly P (next a)) : StopsOnly P (step >>= next) := by
  intro s problem s' h
  change EStateM.bind step next s = _ at h
  unfold EStateM.bind at h
  cases hstep : step s with
  | ok a t =>
    rw [hstep] at h
    exact hn a s t hstep t problem s' h
  | error other t =>
    rw [hstep] at h
    cases h
    exact hs s problem s' hstep

theorem ite {p : Prop} [Decidable p] {a b : EStateM ε σ α} (ha : StopsOnly P a)
    (hb : StopsOnly P b) : StopsOnly P (if p then a else b) := by
  split
  · exact ha
  · exact hb

/-- A check that may refuse, and what comes behind it. -/
theorem check {p : Prop} [Decidable p] {problem : ε} {next : PUnit → EStateM ε σ α}
    (h : p → P problem) (hn : ¬p → StopsOnly P (next ⟨⟩)) :
    StopsOnly P (if p then MonadExcept.throw problem >>= next else next ⟨⟩) := by
  split
  · next hp => exact .bind (.throw (h hp)) fun _ s s' hthrow => (throw_ne_ok.1 hthrow).elim
  · next hp => exact hn hp

theorem map {step : EStateM ε σ α} (f : α → β) (hs : StopsOnly P step) :
    StopsOnly P (f <$> step) := by
  intro s problem s' h
  change EStateM.map f step s = _ at h
  unfold EStateM.map at h
  cases hstep : step s with
  | ok a t => rw [hstep] at h; cases h
  | error other t =>
    rw [hstep] at h
    cases h
    exact hs s problem s' hstep

theorem imp {Q : ε → Prop} {step : EStateM ε σ α} (h : ∀ problem, P problem → Q problem)
    (hs : StopsOnly P step) : StopsOnly Q step := fun s problem s' he => h _ (hs s problem s' he)

theorem mapM {f : α → EStateM ε σ β} {items : List α} (h : ∀ item ∈ items, StopsOnly P (f item)) :
    StopsOnly P (items.mapM f) := by
  induction items with
  | nil => exact .pure []
  | cons item rest ih =>
    rw [List.mapM_cons]
    exact .bind (h item List.mem_cons_self) fun b _ _ _ =>
      .bind (ih fun x hx => h x (List.mem_cons_of_mem _ hx)) fun bs _ _ _ => .pure (b :: bs)

end StopsOnly

end Failing

/-- A limit of class files that a body does not keep: the constants, the length of the code, the reach
of a conditional jump, or a handler for a range without code. -/
inductive Limit : ClassError → Prop where
  | pool (constant : Constant) (offset : Nat) : Limit (.pool (.overflow constant offset))
  | code (length : Nat) : Limit (.codeOverflow length)
  | jump (label : Label) (distance : Int) : Limit (.branchOutOfRange label distance)
  | range (start stop : Label) : Limit (.emptyRange start stop)

/-- The limit on the constants alone. -/
inductive Full : ClassError → Prop where
  | pool (constant : Constant) (offset : Nat) : Full (.pool (.overflow constant offset))

theorem Full.limit {problem : ClassError} (h : Full problem) : Limit problem := by
  cases h with
  | pool constant offset => exact .pool constant offset

namespace StopsOnly

variable {α : Type} {P : ClassError → Prop}

theorem except {value : Except ClassError α} (h : FailsOnly P value) :
    StopsOnly P (liftM value : Encoding α) := by
  intro s problem s' hs
  cases value with
  | ok a => cases hs
  | error other => cases hs; exact h _ rfl

theorem intern {step : Interning α}
    (h : ∀ p problem q, step p = .error problem q → P (.pool problem)) :
    StopsOnly P (liftM step : Encoding α) := by
  intro s problem s' hs
  change step.adaptExcept ClassError.pool s = _ at hs
  unfold EStateM.adaptExcept at hs
  cases hstep : step s with
  | ok a t => rw [hstep] at hs; cases hs
  | error other t =>
    rw [hstep] at hs
    cases hs
    exact h s other _ hstep

end StopsOnly

theorem except_eq_ok {α : Type} {value : Except ClassError α} {a : α} {p q : ConstantPool} :
    (liftM value : Encoding α) p = .ok a q ↔ value = .ok a ∧ q = p := by
  cases value with
  | ok b =>
    change EStateM.Result.ok b p = _ ↔ _
    simp [eq_comm]
  | error problem =>
    change EStateM.Result.error problem p = _ ↔ _
    simp

theorem except_bind_run {α β : Type} {value : Except ClassError α} {next : α → Encoding β} {b : β}
    {p q : ConstantPool} :
    ((liftM value : Encoding α) >>= next) p = .ok b q ↔ ∃ a, value = .ok a ∧ next a p = .ok b q := by
  rw [bind_eq_ok]
  constructor
  · rintro ⟨a, t, ha, hb⟩
    obtain ⟨hvalue, rfl⟩ := except_eq_ok.1 ha
    exact ⟨a, hvalue, hb⟩
  · rintro ⟨a, hvalue, hb⟩
    exact ⟨a, p, except_eq_ok.2 ⟨hvalue, rfl⟩, hb⟩

theorem intern_stops (constant : Constant) :
    StopsOnly (fun problem => Full (.pool problem)) (ConstantPool.intern constant) := by
  intro p problem q h
  unfold ConstantPool.intern at h
  split at h
  · cases h
  · split at h
    · cases h
    · cases h
      exact .pool constant p.size

theorem internUtf8_stops (text : String) :
    StopsOnly Full (liftM (ConstantPool.internUtf8 text) : Encoding PoolIndex) :=
  .intern (intern_stops _)

theorem internClass_stops (name : String) :
    StopsOnly Full (liftM (ConstantPool.internClass name) : Encoding PoolIndex) :=
  .intern (StopsOnly.bind (intern_stops _) fun _ _ _ _ => intern_stops _)

section Labels

variable {labels : LabelTable} {label : Label} {P : ClassError → Prop}

/-- The label has an offset in the table. -/
def LabelTable.Has (labels : LabelTable) (label : Label) : Prop :=
  ∃ offset, labels.offset? label = some offset

theorem LabelTable.Has.offset_ok (h : labels.Has label) :
    ∃ offset, labels.offset label = .ok offset := by
  obtain ⟨offset, ho⟩ := h
  unfold LabelTable.offset
  rw [ho]
  exact ⟨offset, rfl⟩

theorem LabelTable.Has.offset_fails (h : labels.Has label) : FailsOnly P (labels.offset label) := by
  obtain ⟨offset, ho⟩ := h.offset_ok
  rw [ho]
  exact .ok offset

theorem LabelTable.offset_fails (h : P (.unboundLabel label)) : FailsOnly P (labels.offset label) := by
  unfold LabelTable.offset
  split
  · exact .ok _
  · exact .error h

theorem LabelTable.index_fails (h : FailsOnly P (labels.offset label)) :
    FailsOnly P (labels.index label) := .bind h fun _ _ => .ok _

theorem LabelTable.longJump_fails (h : FailsOnly P (labels.offset label)) (offset : Nat) :
    FailsOnly P (labels.longJump offset label) := .bind (.bind h fun _ _ => .ok _) fun _ _ => .ok _

theorem LabelTable.shortJump_fails {offset : Nat} (h : FailsOnly P (labels.offset label))
    (hfar : ∀ distance, labels.distance offset label = .ok distance → isShortDistance distance = false →
      P (.branchOutOfRange label distance)) (opcode : UInt8) :
    FailsOnly P (labels.shortJump offset opcode label) := by
  refine .bind (.bind h fun _ _ => .ok _) fun distance hdistance => ?_
  split
  · exact .ok _
  · next hnot => exact .error (hfar distance hdistance (Bool.eq_false_iff.2 hnot))

/-- A branch is refused if a target has no offset, or the jump has to be short and is not. -/
theorem Branch.bytes_fails {branch : Branch Label} {offset : Nat} {wide : Bool}
    (h : ∀ target ∈ branch.jumpTargets, FailsOnly P (labels.offset target))
    (hfar : ∀ target, branch.near? wide = some target → ∀ distance,
      labels.distance offset target = .ok distance → isShortDistance distance = false →
      P (.branchOutOfRange target distance)) : FailsOnly P (branch.bytes labels offset wide) := by
  have short : ∀ target ∈ branch.jumpTargets, branch.near? wide = some target → ∀ opcode,
      FailsOnly P (labels.shortJump offset opcode target) := fun target ht hnear opcode =>
    LabelTable.shortJump_fails (h target ht) (hfar target hnear) opcode
  have long : ∀ target ∈ branch.jumpTargets, FailsOnly P (labels.longJump offset target) :=
    fun target ht => LabelTable.longJump_fails (h target ht) offset
  cases branch with
  | ifZero comparison target => exact short target (by simp [jumpTargets]) rfl _
  | ifInts comparison target => exact short target (by simp [jumpTargets]) rfl _
  | ifRefs equality target => exact short target (by simp [jumpTargets]) rfl _
  | ifNull equality target => exact short target (by simp [jumpTargets]) rfl _
  | goto target =>
    have ht : target ∈ (Branch.goto target).jumpTargets := by simp [jumpTargets]
    cases wide with
    | true => exact .bind (long target ht) fun _ _ => .ok _
    | false => exact short target ht rfl _
  | tableSwitch default low targets =>
    refine .bind (long default (by simp [jumpTargets])) fun _ _ =>
      .bind (.mapM fun target ht => ?_) fun _ _ => .ok _
    exact long target (by simp [jumpTargets, ht])
  | lookupSwitch default targets =>
    refine .bind (long default (by simp [jumpTargets])) fun _ _ =>
      .bind (.mapM fun pair hp => ?_) fun _ _ => .ok _
    obtain ⟨key, target⟩ := pair
    have ht : target ∈ targets.map Prod.snd := List.mem_map_of_mem hp
    exact .bind (long target (by simp only [jumpTargets, List.mem_cons, ht, or_true])) fun _ _ => .ok _
  | raise => exact .ok _
  | «return» kind =>
    cases kind with
    | none => exact .ok _
    | some kind => exact .ok _

end Labels

/-- A frame written as a difference has a form in the file. -/
theorem StoredFrame.stackMapFrame_bytes (frame previous : StoredFrame) (delta : UInt16) :
    ∃ content, (StoredFrame.stackMapFrame frame delta previous).bytes = .ok content := by
  unfold StoredFrame.stackMapFrame
  extract_lets locals before full fewer
  have hfull : ∃ content, full.bytes = .ok content := ⟨_, rfl⟩
  split
  · split
    · split
      · next h =>
        split
        · exact ⟨_, rfl⟩
        · next hne =>
          have small : ∀ n < 4, n ≠ 0 → 1 ≤ UInt8.ofNat n ∧ UInt8.ofNat n ≤ 3 := by decide
          have hchop := small fewer h.1 hne
          unfold StackMapFrame.bytes
          simp only [hchop, and_self, if_true]
          exact ⟨_, rfl⟩
      · exact hfull
    · split
      · next hlong h =>
        have happend : 1 ≤ (locals.drop before.length).length ∧
            (locals.drop before.length).length ≤ 3 := by
          have hlt : locals.length - before.length < 4 := h.1
          rw [List.length_drop]
          omega
        unfold StackMapFrame.bytes
        simp only [happend, and_self, if_true]
        exact ⟨_, rfl⟩
      · exact hfull
  · split
    · exact ⟨_, rfl⟩
    · exact hfull
  · exact hfull

section Body

variable {labels : LabelTable} {P : ClassError → Prop} (full : ∀ problem, Full problem → P problem)

/-- Offsets of the allocations that the type names are missing only for such a reason. -/
def LabelTable.Holds (labels : LabelTable) (P : ClassError → Prop) (type : EditType) : Prop :=
  ∀ label, type = .uninitialized label → FailsOnly P (labels.offset label)

theorem EditType.position_fails {type : EditType} (h : labels.Holds P type) :
    FailsOnly P (type.mapM pure labels.index : Except ClassError (VerificationType String UInt16)) := by
  cases type with
  | uninitialized label => exact .bind (LabelTable.index_fails (h label rfl)) fun _ _ => .ok _
  | object name => exact .bind (.ok _) fun _ _ => .ok _
  | _ => exact .ok _

include full

theorem EditFrame.store_stops {frame : EditFrame} (h : frame.All (labels.Holds P)) :
    StopsOnly P (EditFrame.store labels frame) := by
  refine .bind (.except ?_) fun positioned _ _ _ => ?_
  · refine .bind (.mapM fun type ht => (EditType.position_fails (h.1 type ht))) fun _ _ => ?_
    refine .bind (.mapM fun type ht => ?_) fun _ _ => .ok _
    exact EditType.position_fails (h.2 type (List.mem_reverse.1 ht))
  · have hclass : ∀ type : VerificationType String UInt16, StopsOnly P
        (type.mapM (fun name => (ConstantPool.internClass name : Interning PoolIndex)) pure :
          Encoding StoredType) := by
      intro type
      cases type with
      | object name => exact .bind ((internClass_stops name).imp full) fun _ _ _ _ => .pure _
      | uninitialized offset => exact .bind (.pure _) fun _ _ _ _ => .pure _
      | _ => exact .pure _
    exact .bind (.mapM fun type _ => hclass type) fun _ _ _ _ =>
      .bind (.mapM fun type _ => hclass type) fun _ _ _ _ => .pure _

theorem OffsetFrames.compress_stops {frames : OffsetFrames}
    (h : ∀ entry ∈ frames, entry.2.All (labels.Holds P)) (previous : StoredFrame)
    (previousOffset : Option Nat) (done : List StackMapFrame) :
    StopsOnly P (frames.compress labels previous previousOffset done) := by
  induction frames generalizing previous previousOffset done with
  | nil => exact .pure _
  | cons entry rest ih =>
    exact .bind (EditFrame.store_stops full (h entry List.mem_cons_self)) fun _ _ _ _ =>
      ih (fun e he => h e (List.mem_cons_of_mem _ he)) _ _ _

omit full in
theorem OffsetFrames.compress_bytes {frames : OffsetFrames} {previous : StoredFrame}
    {previousOffset : Option Nat} {done out : List StackMapFrame} {p q : ConstantPool}
    (hdone : ∀ frame ∈ done, ∃ content, frame.bytes = .ok content)
    (h : frames.compress labels previous previousOffset done p = .ok out q) :
    ∀ frame ∈ out, ∃ content, frame.bytes = .ok content := by
  induction frames generalizing previous previousOffset done p with
  | nil =>
    obtain ⟨rfl, rfl⟩ := pure_eq_ok.1 h
    exact fun frame hf => hdone frame (List.mem_reverse.1 hf)
  | cons entry rest ih =>
    obtain ⟨stored, p₁, -, h⟩ := bind_eq_ok.1 h
    refine ih (fun frame hf => ?_) h
    rcases List.mem_cons.1 hf with rfl | hf
    · exact StoredFrame.stackMapFrame_bytes _ _ _
    · exact hdone frame hf

theorem AttributeFormat.store_stops {α : Type} {format : AttributeFormat α} {value : α}
    (h : ∃ content, format.bytes value = .ok content) : StopsOnly P (format.store value) := by
  obtain ⟨content, hc⟩ := h
  refine .bind ((internUtf8_stops _).imp full) fun _ _ _ _ => .bind ?_ fun _ _ _ _ => .pure _
  rw [hc]
  exact .except (.ok content)

theorem storeUnlessEmpty_stops {α : Type} {format : AttributeFormat (List α)} {entries : List α}
    (h : ∃ content, format.bytes entries = .ok content) :
    StopsOnly P (MethodBody.storeUnlessEmpty format entries) :=
  .ite (.pure _) (.bind (AttributeFormat.store_stops full h) fun _ _ _ _ => .pure _)

omit full in
theorem Layout.bytes_fails {layout : Layout}
    (h : ∀ placed ∈ layout.nodes, ∀ branch, placed.node = .branch branch →
      ∀ target ∈ branch.jumpTargets, FailsOnly P (layout.labels.offset target))
    (hfar : ∀ placed ∈ layout.nodes, ∀ branch, placed.node = .branch branch →
      ∀ target, branch.near? placed.wide = some target → ∀ distance,
      layout.labels.distance placed.offset target = .ok distance → isShortDistance distance = false →
      P (.branchOutOfRange target distance)) : FailsOnly P layout.bytes := by
  refine .bind (.mapM fun placed hm => ?_) fun _ _ => .ok _
  unfold Placed.bytes
  split
  · exact .ok _
  · exact .ok _
  · next branch he => exact Branch.bytes_fails (h placed hm branch he) (hfar placed hm branch he)

theorem Handler.encode_stops {handler : Handler} (hstart : FailsOnly P (labels.offset handler.start))
    (hstop : FailsOnly P (labels.offset handler.stop))
    (hhandler : FailsOnly P (labels.offset handler.handler))
    (hrange : ∀ start stop, labels.index handler.start = .ok start → labels.index handler.stop = .ok stop →
      stop ≤ start → P (.emptyRange handler.start handler.stop)) : StopsOnly P (handler.encode labels) := by
  refine .bind (.except (LabelTable.index_fails hstart)) fun start _ _ hfirst =>
    .bind (.except (LabelTable.index_fails hstop)) fun stop _ _ hlast => ?_
  have last : ∀ catchType : Option PoolIndex, StopsOnly P (do
      return ⟨start, stop, ← labels.index handler.handler, catchType⟩ :
      Encoding ExceptionEntry) := fun catchType =>
    .bind (.except (LabelTable.index_fails hhandler)) fun _ _ _ _ => .pure _
  refine .check (hrange start stop (except_eq_ok.1 hfirst).1 (except_eq_ok.1 hlast).1) fun _ => ?_
  split
  · exact .bind (.pure _) fun _ _ _ _ => last _
  · exact .bind (.map _ ((internClass_stops _).imp full)) fun _ _ _ _ => last _

namespace MethodBody

omit full in
theorem encodeLine_fails {entry : LineEntry} (h : FailsOnly P (labels.offset entry.start)) :
    FailsOnly P (encodeLine labels entry) := .bind (LabelTable.index_fails h) fun _ _ => .ok _

theorem encodeLocal_stops {entry : LocalEntry} (hstart : FailsOnly P (labels.offset entry.start))
    (hstop : FailsOnly P (labels.offset entry.stop)) : StopsOnly P (encodeLocal labels entry) :=
  .bind (.except hstart) fun _ _ _ _ => .bind (.except hstop) fun _ _ _ _ =>
    .bind ((internUtf8_stops _).imp full) fun _ _ _ _ =>
    .bind ((internUtf8_stops _).imp full) fun _ _ _ _ => .pure _

omit full in
theorem stackMap_bytes {body : MethodBody} {layout : Layout} {p q : ConstantPool}
    {frames : List StackMapFrame} (hs : body.stackMap layout p = .ok frames q) :
    ∃ content, stackMapTable.bytes frames = .ok content := by
  obtain ⟨placed, p₁, -, hs⟩ := bind_eq_ok.1 hs
  obtain ⟨_, p₂, -, hs⟩ := bind_eq_ok.1 hs
  obtain ⟨_, p₃, -, hs⟩ := bind_eq_ok.1 hs
  obtain ⟨entry, p₄, -, hs⟩ := bind_eq_ok.1 hs
  obtain ⟨parts, hparts⟩ := Layout.mapM_ok (OffsetFrames.compress_bytes (by simp) hs)
  exact ⟨_, except_bind_eq_ok.2 ⟨parts, hparts, rfl⟩⟩

/-- Offsets of what the code and the tables refer to are missing only for such a reason. -/
structure Located (body : MethodBody) (labels : LabelTable) (P : ClassError → Prop) : Prop where
  targets : ∀ branch : Branch Label, .branch branch ∈ body.nodes →
    ∀ target ∈ branch.jumpTargets, FailsOnly P (labels.offset target)
  handlers : ∀ handler ∈ body.handlers, FailsOnly P (labels.offset handler.start) ∧
    FailsOnly P (labels.offset handler.stop) ∧ FailsOnly P (labels.offset handler.handler)
  lines : ∀ entry ∈ body.lines, FailsOnly P (labels.offset entry.start)
  locals : ∀ entry ∈ body.locals ++ body.localTypes, FailsOnly P (labels.offset entry.start) ∧
    FailsOnly P (labels.offset entry.stop)

variable {body : MethodBody} {version : Version} {codeLimit : Nat}

omit full in
theorem Located.targets_of_placed {layout : Layout} (located : body.Located layout.labels P)
    (h : layout.IsOf body.nodes) (placed : Placed) (hm : placed ∈ layout.nodes) (branch : Branch Label)
    (hb : placed.node = .branch branch) :
    ∀ target ∈ branch.jumpTargets, FailsOnly P (layout.labels.offset target) :=
  located.targets branch (h.map_node ▸ hb ▸ List.mem_map_of_mem hm)

theorem encodeDebug_stops (located : body.Located labels P) :
    StopsOnly P (body.encodeDebug labels) := by
  have rows : ∀ entry ∈ body.locals ++ body.localTypes, StopsOnly P (encodeLocal labels entry) :=
    fun entry hm => encodeLocal_stops full (located.locals entry hm).1 (located.locals entry hm).2
  exact .bind (.except (.mapM fun entry hm => encodeLine_fails (located.lines entry hm))) fun _ _ _ _ =>
    .bind (storeUnlessEmpty_stops full ⟨_, rfl⟩) fun _ _ _ _ =>
    .bind (.mapM fun entry hm => rows entry (List.mem_append_left _ hm)) fun _ _ _ _ =>
    .bind (storeUnlessEmpty_stops full ⟨_, rfl⟩) fun _ _ _ _ =>
    .bind (.mapM fun entry hm => rows entry (List.mem_append_right _ hm)) fun _ _ _ _ =>
    .bind (storeUnlessEmpty_stops full ⟨_, rfl⟩) fun _ _ _ _ => .pure _

/-- Stack maps are refused where the frames have no place or the checks fail, and otherwise for a limit or
an allocation that has no offset. -/
theorem stackMap_stops_of {layout : Layout} (hplace : FailsOnly P (OffsetFrames.ofLabels layout body.frames))
    (hchecks : ∀ frames, OffsetFrames.ofLabels layout body.frames = .ok frames →
      FailsOnly P (frames.checkTargets layout body.jumpTargets) ∧
        FailsOnly P (frames.checkAfterJumps layout.nodes false none))
    (holds : ∀ frame ∈ body.shape.entryFrame :: body.frames.map Prod.snd,
      frame.All (layout.labels.Holds P)) : StopsOnly P (body.stackMap layout) := by
  refine .bind (.except hplace) fun frames p q hframes => ?_
  have hplaced := (except_eq_ok.1 hframes).1
  obtain ⟨htargets, hafter⟩ := hchecks frames hplaced
  refine .bind (.except htargets) fun _ _ _ _ => .bind (.except hafter) fun _ _ _ _ =>
    .bind (EditFrame.store_stops full (holds _ List.mem_cons_self)) fun _ _ _ _ =>
      OffsetFrames.compress_stops full (fun entry hm => ?_) _ _ _
  obtain ⟨l, hl, -⟩ := OffsetFrames.mem_ofLabels hplaced hm
  exact holds _ (List.mem_cons_of_mem _ (List.mem_map_of_mem hl))

/-- The parts of a body with a layout are refused only for such a reason. -/
structure Parts (body : MethodBody) (P : ClassError → Prop) (version : Version) (codeLimit : Nat)
    (layout : Layout) : Prop where
  located : body.Located layout.labels P
  length : min codeLimit maxCodeLength < layout.length → P (.codeOverflow layout.length)
  code : layout.length ≤ maxCodeLength → FailsOnly P layout.bytes
  ranges : layout.length ≤ maxCodeLength → ∀ handler ∈ body.handlers, ∀ start stop,
    layout.labels.index handler.start = .ok start → layout.labels.index handler.stop = .ok stop →
    stop ≤ start → P (.emptyRange handler.start handler.stop)
  maps : version.hasStackMaps = true → StopsOnly P (body.stackMap layout)

/-- Writing a body stops for the reasons for which it has no layout or a part of it is refused, and
otherwise for want of room in the pool. -/
theorem encodeWithLimit_stops_parts (hlayout : FailsOnly P (Layout.compute body.nodes))
    (hparts : ∀ layout, Layout.compute body.nodes = .ok layout → body.Parts P version codeLimit layout) :
    StopsOnly P (body.encodeWithLimit version codeLimit) := by
  refine .bind (.except hlayout) fun layout _ _ hfound => ?_
  have parts := hparts layout (except_eq_ok.1 hfound).1
  have hdebug : ∀ (make : List Attribute → Code),
      StopsOnly P (do return make (← body.encodeDebug layout.labels)) := fun _ =>
    .bind (encodeDebug_stops full parts.located) fun _ _ _ _ => .pure _
  refine .check parts.length fun hfits => ?_
  have hlength : layout.length ≤ maxCodeLength :=
    Nat.le_trans (Nat.le_of_not_lt hfits) (Nat.min_le_right _ _)
  refine .bind (.except (parts.code hlength)) fun code _ _ _ =>
    .bind (.mapM fun handler hm => ?_) fun exceptions _ _ _ => ?_
  · obtain ⟨hstart, hstop, hhandler⟩ := parts.located.handlers handler hm
    exact Handler.encode_stops full hstart hstop hhandler (parts.ranges hlength handler hm)
  split
  · next hv =>
    exact .bind (parts.maps hv) fun frames p q hframes =>
      .bind (storeUnlessEmpty_stops full (stackMap_bytes hframes)) fun _ _ _ _ => hdebug _
  · exact .bind (.pure _) fun _ _ _ _ => hdebug _

omit full in
/-- Writing a body stops for the reasons for which it has no layout or its stack maps cannot be made, and
otherwise for a limit or a label that has no offset. -/
theorem encodeWithLimit_stops_of (limit : ∀ problem, Limit problem → P problem)
    (hlayout : FailsOnly P (Layout.compute body.nodes))
    (located : ∀ layout, Layout.compute body.nodes = .ok layout → body.Located layout.labels P)
    (hmaps : ∀ layout, Layout.compute body.nodes = .ok layout → version.hasStackMaps = true →
      StopsOnly P (body.stackMap layout)) :
    StopsOnly P (body.encodeWithLimit version codeLimit) :=
  encodeWithLimit_stops_parts (fun problem h => limit problem h.limit) hlayout fun layout hfound => {
    located := located layout hfound
    length := fun _ => limit _ (.code _)
    code := fun _ => Layout.bytes_fails ((located layout hfound).targets_of_placed
      (Layout.isOf_of_compute hfound).1) fun _ _ _ _ _ _ _ _ _ => limit _ (.jump _ _)
    ranges := fun _ _ _ _ _ _ _ _ => limit _ (.range _ _)
    maps := hmaps layout hfound }

end MethodBody

end Body

namespace MethodBody

/-- Each label is placed once, and all that anything refers to are placed. -/
structure WellPlaced (body : MethodBody) : Prop where
  nodup : (body.nodes.filterMap Node.label?).Nodup
  targets : ∀ branch : Branch Label, .branch branch ∈ body.nodes →
    ∀ target ∈ branch.jumpTargets, .label target ∈ body.nodes
  handlers : ∀ handler ∈ body.handlers, .label handler.start ∈ body.nodes ∧
    .label handler.stop ∈ body.nodes ∧ .label handler.handler ∈ body.nodes
  lines : ∀ entry ∈ body.lines, .label entry.start ∈ body.nodes
  locals : ∀ entry ∈ body.locals ++ body.localTypes, .label entry.start ∈ body.nodes ∧
    .label entry.stop ∈ body.nodes

/-- Frames are at labels in front of instructions, wherever control jumps to or cannot fall, and
allocations in them are at placed labels. -/
structure WellFramed (body : MethodBody) : Prop where
  framed : ∀ target ∈ body.jumpTargets, ∃ frame, (target, frame) ∈ body.frames
  inside : ∀ entry ∈ body.frames, ∃ before after, body.nodes = before ++ .label entry.1 :: after ∧
    ∃ node ∈ after, node.isLabel = false
  gaps : ∀ before node after, body.nodes = before ++ node :: after → node.isLabel = false →
    Builder.Entered (body.frames.map Prod.fst) before.reverse
  anchored : ∀ frame ∈ body.shape.entryFrame :: body.frames.map Prod.snd,
    frame.All fun type => ∀ label, type = .uninitialized label → .label label ∈ body.nodes

/-- Instructions in front of a label. -/
def instructionsBefore (body : MethodBody) (label : Label) : Nat :=
  (body.nodes.takeWhile (· ≠ .label label)).countP (!·.isLabel)

/-- Labels in front of the same instruction agree on its frame. -/
def FramesAgree (body : MethodBody) : Prop :=
  ∀ a ∈ body.frames, ∀ b ∈ body.frames,
    body.instructionsBefore a.1 = body.instructionsBefore b.1 → a.2.sameAs b.2 = true

/-- Why a body that is otherwise well formed is not written: a limit, or frames that do not agree. -/
def Refusal (body : MethodBody) (version : Version) (problem : ClassError) : Prop :=
  Limit problem ∨ version.hasStackMaps = true ∧
    (∃ offset, problem = .conflictingFrames offset) ∧ ¬body.FramesAgree

variable {body : MethodBody} {layout : Layout}

theorem has_of_isOf (h : layout.IsOf body.nodes) (hp : body.WellPlaced) {label : Label}
    (hl : .label label ∈ body.nodes) : layout.labels.Has label := h.isBound hp.nodup hl

theorem WellPlaced.located {P : ClassError → Prop} (h : layout.IsOf body.nodes) (hp : body.WellPlaced) :
    body.Located layout.labels P where
  targets branch hb target ht := (has_of_isOf h hp (hp.targets branch hb target ht)).offset_fails
  handlers handler hm := by
    obtain ⟨hstart, hstop, hhandler⟩ := hp.handlers handler hm
    exact ⟨(has_of_isOf h hp hstart).offset_fails, (has_of_isOf h hp hstop).offset_fails,
      (has_of_isOf h hp hhandler).offset_fails⟩
  lines entry hm := (has_of_isOf h hp (hp.lines entry hm)).offset_fails
  locals entry hm := by
    obtain ⟨hstart, hstop⟩ := hp.locals entry hm
    exact ⟨(has_of_isOf h hp hstart).offset_fails, (has_of_isOf h hp hstop).offset_fails⟩

theorem takeWhile_eq_take (nodes : List Node) (label : Label) :
    nodes.takeWhile (· ≠ .label label) =
      nodes.take (nodes.takeWhile (· ≠ .label label)).length :=
  (List.prefix_iff_eq_take.1 (List.takeWhile_prefix _))

/-- Labels have one offset if they are in front of the same instruction. -/
theorem offset_eq_iff (h : layout.IsOf body.nodes) (hp : body.WellPlaced) {a b : Label}
    {i j : Nat} (ha : .label a ∈ body.nodes) (hb : .label b ∈ body.nodes)
    (hi : layout.labels.offset? a = some i) (hj : layout.labels.offset? b = some j) :
    i = j ↔ body.instructionsBefore a = body.instructionsBefore b := by
  obtain ⟨flagged, hflagged, rfl⟩ := h
  have hnodup := hp.nodup
  unfold instructionsBefore
  rw [takeWhile_eq_take body.nodes a, takeWhile_eq_take body.nodes b]
  rw [← hflagged] at ha hb hnodup ⊢
  have hi := (Layout.offset?_eq_take hnodup ha).symm.trans hi
  have hj := (Layout.offset?_eq_take hnodup hb).symm.trans hj
  rw [← Option.some.inj hi, ← Option.some.inj hj, Layout.reach_take_eq_iff, List.map_take,
    List.map_take]

theorem offset_ne_length (h : layout.IsOf body.nodes)
    (hnodup : (body.nodes.filterMap Node.label?).Nodup) {label : Label} {before after : List Node}
    {offset : Nat} {node : Node}
    (hsplit : body.nodes = before ++ .label label :: after) (hm : node ∈ after)
    (hnode : node.isLabel = false) (ho : layout.labels.offset? label = some offset) :
    offset ≠ layout.length := by
  obtain ⟨front, back, wide, -, rfl, -, hlength, hoffset⟩ := h.offset? hnodup hsplit
  rw [hoffset] at ho
  cases ho
  rw [hlength, Layout.reach_append]
  intro he
  have hall := (Layout.reach_eq_iff _ _).1 he.symm
  obtain ⟨entry, hentry, rfl⟩ := List.mem_map.1 hm
  rw [hall entry (List.mem_cons_of_mem _ hentry)] at hnode
  cases hnode

theorem mem_nodes_of_framed (hf : body.WellFramed) {entry : Label × EditFrame}
    (hm : entry ∈ body.frames) : .label entry.1 ∈ body.nodes := by
  obtain ⟨before, after, hsplit, -⟩ := hf.inside entry hm
  rw [hsplit]
  exact List.mem_append_right _ List.mem_cons_self

theorem framed_offset (h : layout.IsOf body.nodes) (hp : body.WellPlaced) (hf : body.WellFramed)
    {entry : Label × EditFrame} (hm : entry ∈ body.frames) :
    ∃ offset, layout.labels.offset? entry.1 = some offset ∧ offset ≠ layout.length := by
  obtain ⟨offset, ho⟩ := has_of_isOf h hp (mem_nodes_of_framed hf hm)
  obtain ⟨before, after, hsplit, node, hn, hnode⟩ := hf.inside entry hm
  exact ⟨offset, ho, offset_ne_length h hp.nodup hsplit hn hnode ho⟩

/-- The frames have places in the layout just when labels in front of one instruction agree. -/
theorem agree_inside_iff (h : layout.IsOf body.nodes) (hp : body.WellPlaced)
    (hf : body.WellFramed) :
    (OffsetFrames.inside layout body.frames).Agree ↔ body.FramesAgree := by
  constructor
  · intro hagree a ha b hb he
    obtain ⟨i, hi, hin⟩ := framed_offset h hp hf ha
    obtain ⟨j, hj, hjn⟩ := framed_offset h hp hf hb
    have hij : i = j := (offset_eq_iff h hp (mem_nodes_of_framed hf ha)
      (mem_nodes_of_framed hf hb) hi hj).2 he
    exact hagree (i, a.2) (OffsetFrames.mem_inside.2 ⟨a.1, ha, hi, hin⟩) (j, b.2)
      (OffsetFrames.mem_inside.2 ⟨b.1, hb, hj, hjn⟩) hij
  · intro hagree a ha b hb he
    obtain ⟨l, hl, hi, -⟩ := OffsetFrames.mem_inside.1 ha
    obtain ⟨m, hm, hj, -⟩ := OffsetFrames.mem_inside.1 hb
    exact hagree (l, a.2) hl (m, b.2) hm ((offset_eq_iff h hp (mem_nodes_of_framed hf hl)
      (mem_nodes_of_framed hf hm) hi hj).1 he)

/-- Of all the ways in which the frames could be wrong, only that some do not agree is left. -/
theorem stackMap_stops (h : layout.IsOf body.nodes) (hp : body.WellPlaced) (hf : body.WellFramed) :
    StopsOnly (fun problem => Limit problem ∨
      (∃ offset, problem = .conflictingFrames offset) ∧ ¬body.FramesAgree)
      (body.stackMap layout) := by
  refine stackMap_stops_of (fun _ hfull => .inl hfull.limit)
    (fun problem he => .inr ⟨OffsetFrames.ofLabels_error he, fun ha => ?_⟩) (fun frames hplaced => ?_)
    fun frame hm => (hf.anchored frame hm).imp fun type ht label he =>
      (has_of_isOf h hp (ht label he)).offset_fails
  · obtain ⟨out, hout⟩ := (OffsetFrames.ofLabels_ok_iff layout body.frames).2
      ((agree_inside_iff h hp hf).2 ha)
    rw [hout] at he
    cases he
  · have hoffset : ∀ entry ∈ body.frames, ∃ offset, layout.labels.offset? entry.1 = some offset ∧
        frames.hasOffset offset = true := by
      intro entry hm
      obtain ⟨offset, ho, hne⟩ := framed_offset h hp hf hm
      exact ⟨offset, ho, OffsetFrames.hasOffset_ofLabels hplaced hm ho hne⟩
    have htargets : frames.checkTargets layout body.jumpTargets = .ok () :=
      OffsetFrames.checkTargets_ok fun target ht => by
        obtain ⟨frame, hm⟩ := hf.framed target ht
        exact hoffset (target, frame) hm
    have hafter : frames.checkAfterJumps layout.nodes false none = .ok () := by
      obtain ⟨flagged, hflagged, rfl⟩ := h
      refine OffsetFrames.checkAfterJumps_ok (body.frames.map Prod.fst)
        (Layout.bindAll .empty (Layout.spread 0 flagged)) ?_ flagged 0 [] false none ?_
        (by rintro l ⟨⟩) (by rintro ⟨⟩) ?_
      · intro l hl offset ho
        obtain ⟨entry, hm, rfl⟩ := List.mem_map.1 hl
        obtain ⟨found, hfound, hhas⟩ := hoffset entry hm
        exact Option.some.inj (hfound.symm.trans ho) ▸ hhas
      · intro placed hm l hl
        exact Layout.offset?_of_mem (hflagged ▸ hp.nodup) hm hl
      · intro before node after he hnode
        rw [List.append_nil]
        exact hf.gaps before node after (hflagged ▸ he) hnode
    exact ⟨htargets ▸ .ok (), hafter ▸ .ok ()⟩

theorem stackMap_ne_ok (h : layout.IsOf body.nodes) (hp : body.WellPlaced) (hf : body.WellFramed)
    (ha : ¬body.FramesAgree) (p q : ConstantPool) (frames : List StackMapFrame) :
    body.stackMap layout p ≠ .ok frames q := by
  intro hs
  obtain ⟨placed, p₁, hplaced, -⟩ := bind_eq_ok.1 hs
  exact ha ((agree_inside_iff h hp hf).1
    ((OffsetFrames.ofLabels_ok_iff layout body.frames).1 ⟨placed, (except_eq_ok.1 hplaced).1⟩))

variable {version : Version} {limit : Nat}

theorem compute_isOf (hp : body.WellPlaced) :
    ∃ layout, Layout.compute body.nodes = .ok layout ∧ layout.IsOf body.nodes :=
  Layout.compute_ok hp.nodup fun target ht =>
    hp.targets _ ht target List.mem_cons_self

/-- A body whose labels are placed and whose frames are where they have to be fails to be written for
a limit, or because its frames do not agree. -/
theorem encodeWithLimit_stops (hp : body.WellPlaced)
    (hf : version.hasStackMaps = true → body.WellFramed) :
    StopsOnly (body.Refusal version) (body.encodeWithLimit version limit) := by
  obtain ⟨layout, hlayout, h⟩ := compute_isOf hp
  refine encodeWithLimit_stops_of (fun _ => Or.inl) (hlayout ▸ .ok layout) (fun found hfound => ?_)
    fun found hfound hv => ?_
  all_goals
    rw [hlayout] at hfound
    cases hfound
  · exact WellPlaced.located h hp
  · exact (stackMap_stops h hp (hf hv)).imp fun _ hr => hr.imp id fun hc => ⟨hv, hc⟩

/-- Where stack maps are written, frames that do not agree cannot be. -/
theorem encodeWithLimit_ne_ok (hp : body.WellPlaced) (hf : body.WellFramed)
    (hv : version.hasStackMaps = true) (ha : ¬body.FramesAgree) (p q : ConstantPool) (code : Code) :
    body.encodeWithLimit version limit p ≠ .ok code q := by
  intro hs
  obtain ⟨layout, hlayout, h⟩ := compute_isOf hp
  obtain ⟨found, p₁, hfound, hs⟩ := bind_eq_ok.1 hs
  have he := (except_eq_ok.1 hfound).1
  rw [hlayout] at he
  cases he
  split at hs
  · exact throw_bind_ne_ok.1 hs
  · obtain ⟨_, p₂, -, hs⟩ := bind_eq_ok.1 hs
    obtain ⟨_, p₃, -, hs⟩ := bind_eq_ok.1 hs
    obtain ⟨frames, p₄, hframes, -⟩ := bind_eq_ok.1 hs
    exact stackMap_ne_ok h hp hf ha p₃ p₄ frames hframes

end MethodBody

end ClassWeave
