import ClassWeave.Code.Encode
import ClassWeave.Proofs.Pool.Settled

/-!
What a step leaves behind, also when it fails. A property of pools that no interned constant breaks is
kept by every step that is put together from interning, however the step ends.
-/

namespace ClassWeave

open ConstantPool

variable {ε δ σ α β : Type}

/-- The state behind a step, whether it ends well or fails. -/
def stateAfter (step : EStateM ε σ α) (s : σ) : σ :=
  match step s with
  | .ok _ s' => s'
  | .error _ s' => s'

theorem stateAfter_of_ok {step : EStateM ε σ α} {s s' : σ} {a : α} (h : step s = .ok a s') :
    stateAfter step s = s' := by
  unfold stateAfter
  rw [h]

/-- The step keeps what holds, whether it ends well or fails. -/
def Leaves (holds : σ → Prop) (step : EStateM ε σ α) : Prop := ∀ s, holds s → holds (stateAfter step s)

namespace Leaves

variable {holds : σ → Prop}

theorem pure (a : α) : Leaves holds (Pure.pure a : EStateM ε σ α) := fun _ h => h

theorem throw (problem : ε) : Leaves holds (throw problem : EStateM ε σ α) := fun _ h => h

theorem set {t : σ} (h : holds t) : Leaves holds (set t : EStateM ε σ PUnit) := fun _ _ => h

theorem modify {f : σ → σ} (h : ∀ s, holds s → holds (f s)) :
    Leaves holds (modify f : EStateM ε σ PUnit) := h

/-- What was read holds too. -/
theorem get {next : σ → EStateM ε σ β} (hn : ∀ t, holds t → Leaves holds (next t)) :
    Leaves holds (get >>= next) := fun s h => hn s h s h

theorem bind {step : EStateM ε σ α} {next : α → EStateM ε σ β} (hs : Leaves holds step)
    (hn : ∀ a, Leaves holds (next a)) : Leaves holds (step >>= next) := by
  intro s h
  have hfirst : holds (stateAfter step s) := hs s h
  change holds (stateAfter (EStateM.bind step next) s)
  unfold stateAfter EStateM.bind at *
  cases hstep : step s with
  | ok a t =>
    rw [hstep] at hfirst
    exact hn a t hfirst
  | error problem t =>
    rw [hstep] at hfirst
    exact hfirst

theorem ite {p : Prop} [Decidable p] {a b : EStateM ε σ α} (ha : Leaves holds a)
    (hb : Leaves holds b) : Leaves holds (if p then a else b) := by
  split
  · exact ha
  · exact hb

theorem map {step : EStateM ε σ α} (f : α → β) (hs : Leaves holds step) : Leaves holds (f <$> step) := by
  intro s h
  have hfirst : holds (stateAfter step s) := hs s h
  change holds (stateAfter (EStateM.map f step) s)
  unfold stateAfter EStateM.map at *
  cases hstep : step s <;> simpa only [hstep] using hfirst

/-- Nothing behind a refusal is run. -/
theorem refuse {problem : ε} {next : α → EStateM ε σ β} : Leaves holds (MonadExcept.throw problem >>= next) :=
  fun _ h => h

theorem adaptExcept (f : ε → δ) {step : EStateM ε σ α} (hs : Leaves holds step) :
    Leaves holds (step.adaptExcept f) := by
  intro s h
  have hfirst : holds (stateAfter step s) := hs s h
  unfold stateAfter EStateM.adaptExcept at *
  cases hstep : step s <;> simpa only [hstep] using hfirst

theorem mapM {step : α → EStateM ε σ β} (hs : ∀ a, Leaves holds (step a)) (items : List α) :
    Leaves holds (items.mapM step) := by
  induction items with
  | nil => exact .pure []
  | cons item rest ih =>
    rw [List.mapM_cons]
    exact .bind (hs item) fun b => .bind ih fun bs => .pure (b :: bs)

theorem forM {step : α → EStateM ε σ PUnit} (hs : ∀ a, Leaves holds (step a)) (items : List α) :
    Leaves holds (items.forM step) := by
  induction items with
  | nil => exact .pure _
  | cons item rest ih =>
    change Leaves holds (step item >>= fun _ => rest.forM step)
    exact .bind (hs item) fun _ => ih

theorem forIn {step : α → β → EStateM ε σ (ForInStep β)} (hs : ∀ a b, Leaves holds (step a b))
    (items : List α) (start : β) : Leaves holds (forIn items start step) := by
  induction items generalizing start with
  | nil => exact .pure start
  | cons item rest ih =>
    rw [List.forIn_cons]
    refine .bind (hs item start) fun result => ?_
    cases result with
    | done b => exact .pure b
    | yield b => exact ih b

theorem except {holds : ConstantPool → Prop} (value : Except ClassError α) :
    Leaves holds (liftM value : Encoding α) := by
  cases value with
  | ok a => exact .pure a
  | error problem => exact .throw problem

end Leaves

variable {holds : ConstantPool → Prop}

/-- Is the constant a text that could not be decoded? Such texts are read, but never interned. -/
def Constant.isUndecoded : Constant → Bool
  | .undecodedUtf8 _ => true
  | _ => false

/-- Interning any constant that may be interned keeps what holds of the pool. -/
def KeptByInterning (holds : ConstantPool → Prop) : Prop :=
  ∀ constant, constant.isUndecoded = false → Leaves holds (intern constant)

namespace ConstantPool

/-- What holds of a pool still holds with a constant behind it that it did not hold before. -/
theorem kept_of_push (h : ∀ (p : ConstantPool) (constant : Constant)
    (room : p.size + constant.width ≤ 65535), constant.isUndecoded = false → p.find? constant = none →
      holds p → holds (p.push constant room)) : KeptByInterning holds := by
  intro constant hdecoded p hp
  unfold stateAfter intern
  cases hfind : p.find? constant with
  | some index => exact hp
  | none =>
    by_cases room : p.size + constant.width ≤ 65535
    · simp only [dif_pos room]
      exact h p constant room hdecoded hfind hp
    · simp only [dif_neg room]
      exact hp

/-- Interning leaves everything in place. -/
theorem kept_le (start : ConstantPool) : KeptByInterning (start ≤ ·) :=
  kept_of_push fun _ _ room _ hfind hp => ConstantPool.le_trans hp (le_push hfind room)

variable (interns : KeptByInterning holds)

include interns

theorem leaves_internUtf8 (text : String) : Leaves holds (internUtf8 text) := interns _ rfl

theorem leaves_internClass (name : String) : Leaves holds (internClass name) :=
  .bind (interns _ rfl) fun _ => interns _ rfl

theorem leaves_internString (text : String) : Leaves holds (internString text) :=
  .bind (interns _ rfl) fun _ => interns _ rfl

theorem leaves_internInteger (value : Int32) : Leaves holds (internInteger value) := interns _ rfl

theorem leaves_internLong (value : Int64) : Leaves holds (internLong value) := interns _ rfl

theorem leaves_internNameAndType (name descriptor : String) :
    Leaves holds (internNameAndType name descriptor) :=
  .bind (interns _ rfl) fun _ => .bind (interns _ rfl) fun _ => interns _ rfl

theorem leaves_internField (owner name descriptor : String) :
    Leaves holds (internField owner name descriptor) :=
  .bind (leaves_internClass interns owner) fun _ =>
    .bind (leaves_internNameAndType interns name descriptor) fun _ => interns _ rfl

theorem leaves_internMethod (owner name descriptor : String) (ofInterface : Bool) :
    Leaves holds (internMethod owner name descriptor ofInterface) :=
  .bind (leaves_internClass interns owner) fun _ =>
    .bind (leaves_internNameAndType interns name descriptor) fun _ => interns _ rfl

end ConstantPool

section Writing

variable (interns : KeptByInterning holds) (labels : LabelTable)

include interns

theorem leaves_utf8 (text : String) : Leaves holds (liftM (internUtf8 text) : Encoding PoolIndex) :=
  .adaptExcept _ (leaves_internUtf8 interns text)

theorem leaves_class (name : String) : Leaves holds (liftM (internClass name) : Encoding PoolIndex) :=
  .adaptExcept _ (leaves_internClass interns name)

theorem Handler.leaves_encode (handler : Handler) : Leaves holds (handler.encode labels) := by
  refine .bind (.except _) fun start => .bind (.except _) fun stop => .ite .refuse ?_
  obtain ⟨_, _, _, catchType⟩ := handler
  cases catchType with
  | none => exact .bind (.pure _) fun _ => .bind (.except _) fun _ => .pure _
  | some name =>
    exact .bind (.map some (leaves_class interns name)) fun _ => .bind (.except _) fun _ => .pure _

theorem VerificationType.leaves_intern (type : VerificationType String UInt16) :
    Leaves holds (type.mapM (fun name => (internClass name : Interning PoolIndex)) pure :
      Encoding StoredType) := by
  cases type with
  | object name => exact .bind (leaves_class interns name) fun _ => .pure _
  | uninitialized offset => exact .bind (.pure _) fun _ => .pure _
  | _ => exact .pure _

theorem EditFrame.leaves_store (frame : EditFrame) : Leaves holds (EditFrame.store labels frame) :=
  .bind (.except _) fun _ => .bind (.mapM (VerificationType.leaves_intern interns) _) fun _ =>
    .bind (.mapM (VerificationType.leaves_intern interns) _) fun _ => .pure _

theorem OffsetFrames.leaves_compress (frames : OffsetFrames) (previous : StoredFrame)
    (previousOffset : Option Nat) (done : List StackMapFrame) :
    Leaves holds (frames.compress labels previous previousOffset done) := by
  induction frames generalizing previous previousOffset done with
  | nil => exact .pure _
  | cons entry rest ih => exact .bind (EditFrame.leaves_store interns labels entry.2) fun _ => ih _ _ _

theorem AttributeFormat.leaves_store (format : AttributeFormat α) (value : α) :
    Leaves holds (format.store value) :=
  .bind (leaves_utf8 interns _) fun _ => .bind (.except _) fun _ => .pure _

namespace MethodBody

theorem leaves_storeUnlessEmpty (format : AttributeFormat (List α)) (entries : List α) :
    Leaves holds (storeUnlessEmpty format entries) :=
  .ite (.pure _) (.bind (format.leaves_store interns entries) fun _ => .pure _)

theorem leaves_encodeLocal (entry : LocalEntry) : Leaves holds (encodeLocal labels entry) :=
  .bind (.except _) fun _ => .bind (.except _) fun _ => .bind (leaves_utf8 interns _) fun _ =>
    .bind (leaves_utf8 interns _) fun _ => .pure _

theorem leaves_stackMap (body : MethodBody) (layout : Layout) : Leaves holds (body.stackMap layout) :=
  .bind (.except _) fun frames => .bind (.except _) fun _ => .bind (.except _) fun _ =>
    .bind (EditFrame.leaves_store interns _ _) fun entry =>
      OffsetFrames.leaves_compress interns _ frames entry none []

theorem leaves_encodeDebug (body : MethodBody) : Leaves holds (body.encodeDebug labels) := by
  have stored {α : Type} (format : AttributeFormat (List α)) (entries : List α) :
      Leaves holds (storeUnlessEmpty format entries) := leaves_storeUnlessEmpty interns format entries
  have rows (entries : List LocalEntry) : Leaves holds (entries.mapM (encodeLocal labels)) :=
    .mapM (leaves_encodeLocal interns labels) entries
  exact .bind (.except _) fun _ => .bind (stored _ _) fun _ => .bind (rows _) fun _ =>
    .bind (stored _ _) fun _ => .bind (rows _) fun _ => .bind (stored _ _) fun _ => .pure _

theorem leaves_encodeWithLimit (body : MethodBody) (version : Version) (limit : Nat) :
    Leaves holds (body.encodeWithLimit version limit) := by
  refine .bind (.except _) fun layout => .ite .refuse <| .bind (.except _) fun code =>
    .bind (.mapM (Handler.leaves_encode interns layout.labels) _) fun exceptions => ?_
  have debug : Leaves holds (body.encodeDebug layout.labels) := leaves_encodeDebug interns _ body
  split
  · exact .bind (leaves_stackMap interns body layout) fun _ =>
      .bind (leaves_storeUnlessEmpty interns _ _) fun _ => .bind debug fun _ => .pure _
  · exact .bind (.pure _) fun _ => .bind debug fun _ => .pure _

end MethodBody

end Writing

end ClassWeave
