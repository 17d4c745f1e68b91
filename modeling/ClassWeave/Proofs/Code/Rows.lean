import ClassWeave.Proofs.Code.Writing
import ClassWeave.Proofs.Frame.Rebuilding

/-!
Rows of the tables. Writing a row is settled, so what it is written as can be told on the pool that is
left in the end: offsets for labels, and indices where the texts and the classes are found.
-/

namespace ClassWeave

section Settled

variable {labels : LabelTable}

theorem settled_internUtf8 (text : String) :
    Settled (liftM (ConstantPool.internUtf8 text) : Encoding PoolIndex) :=
  .adaptExcept _ (ConstantPool.settled_internUtf8 text)

theorem settled_internClass (name : String) :
    Settled (liftM (ConstantPool.internClass name) : Encoding PoolIndex) :=
  .adaptExcept _ (ConstantPool.settled_internClass name)

theorem Handler.settled_encode (handler : Handler) : Settled (handler.encode labels) := by
  refine .bind (.except _) fun start => .bind (.except _) fun stop => .check ?_
  obtain ⟨_, _, _, catchType⟩ := handler
  cases catchType with
  | none => exact .bind (.pure _) fun _ => .bind (.except _) fun _ => .pure _
  | some name =>
    exact .bind (.map some (settled_internClass name)) fun _ => .bind (.except _) fun _ => .pure _

theorem VerificationType.settled_intern (type : VerificationType String UInt16) :
    Settled (type.mapM (fun name => (ConstantPool.internClass name : Interning PoolIndex)) pure :
      Encoding StoredType) := by
  cases type with
  | object name => exact .bind (settled_internClass name) fun _ => .pure _
  | uninitialized offset => exact .bind (.pure _) fun _ => .pure _
  | _ => exact .pure _

theorem EditFrame.settled_store (frame : EditFrame) : Settled (EditFrame.store labels frame) :=
  .bind (.except _) fun _ => .bind (.mapM VerificationType.settled_intern _) fun _ =>
    .bind (.mapM VerificationType.settled_intern _) fun _ => .pure _

theorem OffsetFrames.settled_compress (frames : OffsetFrames) (previous : StoredFrame)
    (previousOffset : Option Nat) (done : List StackMapFrame) :
    Settled (frames.compress labels previous previousOffset done) := by
  induction frames generalizing previous previousOffset done with
  | nil => exact .pure _
  | cons entry rest ih => exact .bind (EditFrame.settled_store entry.2) fun _ => ih _ _ _

theorem AttributeFormat.settled_store {α : Type} (format : AttributeFormat α) (value : α) :
    Settled (format.store value) :=
  .bind (settled_internUtf8 _) fun _ => .bind (.except _) fun _ => .pure _

namespace MethodBody

theorem settled_storeUnlessEmpty {α : Type} (format : AttributeFormat (List α)) (entries : List α) :
    Settled (storeUnlessEmpty format entries) :=
  .ite (.pure _) (.bind (format.settled_store entries) fun _ => .pure _)

theorem settled_encodeLocal (entry : LocalEntry) : Settled (encodeLocal labels entry) :=
  .bind (.except _) fun _ => .bind (.except _) fun _ => .bind (settled_internUtf8 _) fun _ =>
    .bind (settled_internUtf8 _) fun _ => .pure _

theorem settled_stackMap (body : MethodBody) (layout : Layout) : Settled (body.stackMap layout) :=
  .bind (.except _) fun frames => .bind (.except _) fun _ => .bind (.except _) fun _ =>
    .bind (EditFrame.settled_store _) fun entry => frames.settled_compress entry none []

theorem settled_encodeDebug (body : MethodBody) : Settled (body.encodeDebug labels) :=
  .bind (.except _) fun _ => .bind (settled_storeUnlessEmpty _ _) fun _ =>
    .bind (.mapM settled_encodeLocal _) fun _ => .bind (settled_storeUnlessEmpty _ _) fun _ =>
    .bind (.mapM settled_encodeLocal _) fun _ => .bind (settled_storeUnlessEmpty _ _) fun _ => .pure _

theorem settled_encodeWithLimit (body : MethodBody) (version : Version) (limit : Nat) :
    Settled (body.encodeWithLimit version limit) := by
  refine .bind (.except _) fun layout => .check <| .bind (.except _) fun code =>
    .bind (.mapM Handler.settled_encode _) fun exceptions => ?_
  split
  · exact .bind (body.settled_stackMap layout) fun _ => .bind (settled_storeUnlessEmpty _ _) fun _ =>
      .bind body.settled_encodeDebug fun _ => .pure _
  · exact .bind (.pure _) fun _ => .bind body.settled_encodeDebug fun _ => .pure _

end MethodBody

end Settled

section Rows

variable {labels : LabelTable} {pool : ConstantPool}

/-- A handler is written as a row with its offsets, if the range is one, and with its class. -/
theorem Handler.encode_eq_ok {handler : Handler} {entry : ExceptionEntry} :
    handler.encode labels pool = .ok entry pool ↔
      labels.index handler.start = .ok entry.start ∧ labels.index handler.stop = .ok entry.stop ∧
      entry.start < entry.stop ∧ labels.index handler.handler = .ok entry.handler ∧
      Option.Rel (fun name index => ConstantPool.internClass name pool = .ok index pool)
        handler.catchType entry.catchType := by
  obtain ⟨first, last, target, catchType⟩ := handler
  constructor
  · intro h
    obtain ⟨start, hstart, h⟩ := except_bind_run.1 h
    obtain ⟨stop, hstop, h⟩ := except_bind_run.1 h
    split at h
    · exact (throw_bind_ne_ok.1 h).elim
    next hrange =>
    have hrange : start < stop := UInt16.not_le.1 hrange
    cases catchType with
    | none =>
      obtain ⟨found, htarget, h⟩ := except_bind_run.1 h
      obtain ⟨rfl, -⟩ := pure_eq_ok.1 h
      exact ⟨hstart, hstop, hrange, htarget, .none⟩
    | some name =>
      obtain ⟨caught, hcaught, h⟩ := (Settled.bind_eq_ok (.map some (settled_internClass name))
        fun _ => .bind (.except _) fun _ => .pure _).1 h
      obtain ⟨index, hindex, rfl⟩ := map_eq_ok.1 hcaught
      obtain ⟨found, htarget, h⟩ := except_bind_run.1 h
      obtain ⟨rfl, -⟩ := pure_eq_ok.1 h
      exact ⟨hstart, hstop, hrange, htarget, .some (adaptExcept_eq_ok.1 hindex)⟩
  · rintro ⟨hstart, hstop, hrange, htarget, hcatch⟩
    obtain ⟨start, stop, found, caught⟩ := entry
    refine except_bind_run.2 ⟨start, hstart, except_bind_run.2 ⟨stop, hstop, ?_⟩⟩
    rw [if_neg (UInt16.not_le.2 hrange)]
    have hlast : ∀ caught, (do return ⟨start, stop, ← labels.index target, caught⟩ :
        Encoding ExceptionEntry) pool = .ok ⟨start, stop, found, caught⟩ pool := fun caught =>
      except_bind_run.2 ⟨found, htarget, rfl⟩
    cases hcatch with
    | none => exact hlast none
    | some hname =>
      exact bind_eq_ok.2 ⟨_, pool, map_eq_ok.2 ⟨_, adaptExcept_eq_ok.2 hname, rfl⟩, hlast _⟩

namespace EditType

/-- A type is stored with its class in the pool and the offset of its allocation. -/
def StoredAs (labels : LabelTable) (pool : ConstantPool) : EditType → StoredType → Prop :=
  VerificationType.Related (fun name index => ConstantPool.internClass name pool = .ok index pool)
    fun label offset => labels.index label = .ok offset

theorem storedAs_iff {type : EditType} {stored : StoredType} :
    StoredAs labels pool type stored ↔ ∃ positioned : VerificationType String UInt16,
      type.mapM pure labels.index = .ok positioned ∧
      (positioned.mapM (fun name => (ConstantPool.internClass name : Interning PoolIndex)) pure :
        Encoding StoredType) pool = .ok stored pool := by
  constructor
  · intro h
    cases h with
    | object hname =>
      exact ⟨_, rfl, bind_eq_ok.2 ⟨_, pool, adaptExcept_eq_ok.2 hname, rfl⟩⟩
    | uninitialized hlabel => exact ⟨_, except_bind_eq_ok.2 ⟨_, hlabel, rfl⟩, rfl⟩
    | _ => exact ⟨_, rfl, rfl⟩
  · rintro ⟨positioned, hpositioned, h⟩
    have first := VerificationType.mapM_eq_ok_iff.1 hpositioned
    have second : VerificationType.Related
        (fun name index => ConstantPool.internClass name pool = .ok index pool) Eq positioned stored := by
      clear hpositioned first
      cases positioned with
      | object name =>
        obtain ⟨index, hindex, h⟩ := (Settled.bind_eq_ok (settled_internClass name) fun _ => .pure _).1 h
        obtain ⟨rfl, -⟩ := pure_eq_ok.1 h
        exact .object (adaptExcept_eq_ok.1 hindex)
      | uninitialized allocation =>
        obtain ⟨rfl, -⟩ := pure_eq_ok.1 h
        exact .uninitialized rfl
      | _ =>
        obtain ⟨rfl, -⟩ := pure_eq_ok.1 h
        constructor
    exact first.comp second (fun _ _ _ he hi => Except.ok.inj he ▸ hi) fun _ _ _ hl he => he ▸ hl

end EditType

/-- A frame is stored type by type. -/
theorem EditFrame.store_eq_ok {frame : EditFrame} {stored : StoredFrame} :
    EditFrame.store labels frame pool = .ok stored pool ↔
      List.Forall₂ (EditType.StoredAs labels pool) frame.locals stored.locals ∧
      List.Forall₂ (EditType.StoredAs labels pool) frame.stack stored.stack := by
  have split : ∀ {types : List EditType} {out : List StoredType},
      List.Forall₂ (EditType.StoredAs labels pool) types out ↔
        ∃ positioned : List (VerificationType String UInt16),
          types.mapM (·.mapM pure labels.index) = .ok positioned ∧
          (positioned.mapM (·.mapM (fun name => (ConstantPool.internClass name : Interning PoolIndex))
            pure) : Encoding (List StoredType)) pool = .ok out pool := by
    intro types out
    constructor
    · intro h
      obtain ⟨positioned, hpositioned, hstored⟩ :=
        forall₂_exists (h.imp fun _ _ => EditType.storedAs_iff.1)
      exact ⟨positioned, mapM_eq_ok.2 hpositioned, Settled.mapM_ok hstored⟩
    · rintro ⟨positioned, hpositioned, hstored⟩
      exact forall₂_comp (mapM_eq_ok.1 hpositioned)
        (Settled.mapM_eq_ok VerificationType.settled_intern hstored)
        fun _ positioned _ h h' => EditType.storedAs_iff.2 ⟨positioned, h, h'⟩
  constructor
  · intro h
    obtain ⟨positioned, hpositioned, h⟩ := except_bind_run.1 h
    obtain ⟨locals, hl, hpositioned⟩ := except_bind_eq_ok.1 hpositioned
    obtain ⟨stack, hs, hpositioned⟩ := except_bind_eq_ok.1 hpositioned
    cases hpositioned
    obtain ⟨storedLocals, hlocals, h⟩ := (Settled.bind_eq_ok
      (.mapM VerificationType.settled_intern _) fun _ =>
      .bind (.mapM VerificationType.settled_intern _) fun _ => .pure _).1 h
    obtain ⟨storedStack, hstack, h⟩ := (Settled.bind_eq_ok
      (.mapM VerificationType.settled_intern _) fun _ => .pure _).1 h
    obtain ⟨rfl, -⟩ := pure_eq_ok.1 h
    dsimp only at hlocals hstack
    rw [List.reverse_reverse] at hstack
    have hreversed := List.forall₂_reverse_iff.2 (split.2 ⟨stack, hs, hstack⟩)
    rw [List.reverse_reverse] at hreversed
    exact ⟨split.2 ⟨locals, hl, hlocals⟩, hreversed⟩
  · rintro ⟨hlocals, hstack⟩
    obtain ⟨locals, hl, hlocals⟩ := split.1 hlocals
    obtain ⟨stack, hs, hstack⟩ := split.1 (List.forall₂_reverse_iff.2 hstack)
    refine except_bind_run.2 ⟨⟨locals, stack.reverse⟩, ?_, ?_⟩
    · exact except_bind_eq_ok.2 ⟨locals, hl, except_bind_eq_ok.2 ⟨stack, hs, rfl⟩⟩
    · refine bind_eq_ok.2 ⟨stored.locals, pool, hlocals, bind_eq_ok.2 ⟨stored.stack.reverse, pool, ?_, ?_⟩⟩
      · dsimp only
        rwa [List.reverse_reverse]
      · rw [List.reverse_reverse]
        rfl

namespace MethodBody

/-- Stack maps are made of the frames that have a place, if there is one wherever it is needed. -/
theorem stackMap_eq_ok {body : MethodBody} {layout : Layout} {frames : List StackMapFrame} :
    body.stackMap layout pool = .ok frames pool ↔ ∃ placed entry,
      OffsetFrames.ofLabels layout body.frames = .ok placed ∧
      placed.checkTargets layout body.jumpTargets = .ok () ∧
      placed.checkAfterJumps layout.nodes false none = .ok () ∧
      EditFrame.store layout.labels body.shape.entryFrame pool = .ok entry pool ∧
      placed.compress layout.labels entry none [] pool = .ok frames pool := by
  constructor
  · intro h
    obtain ⟨placed, hplaced, h⟩ := except_bind_run.1 h
    obtain ⟨_, htargets, h⟩ := except_bind_run.1 h
    obtain ⟨_, hafter, h⟩ := except_bind_run.1 h
    obtain ⟨entry, hentry, h⟩ := (Settled.bind_eq_ok (EditFrame.settled_store _) fun _ =>
      OffsetFrames.settled_compress _ _ _ _).1 h
    exact ⟨placed, entry, hplaced, htargets, hafter, hentry, h⟩
  · rintro ⟨placed, entry, hplaced, htargets, hafter, hentry, h⟩
    exact except_bind_run.2 ⟨placed, hplaced, except_bind_run.2 ⟨(), htargets,
      except_bind_run.2 ⟨(), hafter, bind_eq_ok.2 ⟨entry, pool, hentry, h⟩⟩⟩⟩

/-- A line is written as a row with its offset. -/
theorem encodeLine_eq_ok {entry : LineEntry} {line : LineNumber} :
    encodeLine labels entry = .ok line ↔ labels.index entry.start = .ok line.start ∧
      line.line = entry.line := by
  constructor
  · intro h
    obtain ⟨start, hstart, h⟩ := except_bind_eq_ok.1 h
    cases h
    exact ⟨hstart, rfl⟩
  · rintro ⟨hstart, hline⟩
    obtain ⟨start, number⟩ := line
    dsimp only at hline
    exact except_bind_eq_ok.2 ⟨start, hstart, hline ▸ rfl⟩

/-- A variable is written as a row with its start and the distance to its end. -/
theorem encodeLocal_eq_ok {entry : LocalEntry} {row : LocalVariable} :
    encodeLocal labels entry pool = .ok row pool ↔ ∃ start stop,
      labels.offset entry.start = .ok start ∧ labels.offset entry.stop = .ok stop ∧
      row.start = UInt16.ofNat start ∧ row.length = UInt16.ofNat (stop - start) ∧
      ConstantPool.internUtf8 entry.name pool = .ok row.name pool ∧
      ConstantPool.internUtf8 entry.descriptor pool = .ok row.descriptor pool ∧
      row.slot = entry.slot := by
  constructor
  · intro h
    obtain ⟨start, hstart, h⟩ := except_bind_run.1 h
    obtain ⟨stop, hstop, h⟩ := except_bind_run.1 h
    obtain ⟨name, hname, h⟩ := (Settled.bind_eq_ok (settled_internUtf8 _) fun _ =>
      .bind (settled_internUtf8 _) fun _ => .pure _).1 h
    obtain ⟨descriptor, hdescriptor, h⟩ := (Settled.bind_eq_ok (settled_internUtf8 _) fun _ =>
      .pure _).1 h
    obtain ⟨rfl, -⟩ := pure_eq_ok.1 h
    exact ⟨start, stop, hstart, hstop, rfl, rfl, adaptExcept_eq_ok.1 hname,
      adaptExcept_eq_ok.1 hdescriptor, rfl⟩
  · rintro ⟨start, stop, hstart, hstop, hfirst, hlength, hname, hdescriptor, hslot⟩
    obtain ⟨first, length, name, descriptor, slot⟩ := row
    dsimp only at hfirst hlength hname hdescriptor hslot
    subst hfirst hlength hslot
    exact except_bind_run.2 ⟨start, hstart, except_bind_run.2 ⟨stop, hstop,
      bind_eq_ok.2 ⟨name, pool, adaptExcept_eq_ok.2 hname,
      bind_eq_ok.2 ⟨descriptor, pool, adaptExcept_eq_ok.2 hdescriptor, rfl⟩⟩⟩⟩

end MethodBody

end Rows

end ClassWeave
