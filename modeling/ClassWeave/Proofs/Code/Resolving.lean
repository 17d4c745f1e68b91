import ClassWeave.Proofs.Code.Decoding

/-!
When code can be decoded. All that decoding needs of the pool is to find what the tables name, so code
that was decoded with a pool is decoded with one that holds more.
-/

namespace ClassWeave

section Refines

variable {ε α β : Type}

/-- What the first gives, the second gives too. -/
def Refines (first second : Except ε α) : Prop := ∀ a, first = .ok a → second = .ok a

namespace Refines

theorem refl (value : Except ε α) : Refines value value := fun _ => id

theorem bind {x y : Except ε α} {f g : α → Except ε β} (h : Refines x y)
    (hn : ∀ a, Refines (f a) (g a)) : Refines (x >>= f) (y >>= g) := fun b hb => by
  obtain ⟨a, ha, hb⟩ := except_bind_eq_ok.1 hb
  exact except_bind_eq_ok.2 ⟨a, h a ha, hn a b hb⟩

theorem mapError {δ : Type} {x y : Except ε α} (f : ε → δ) (h : Refines x y) :
    Refines (x.mapError f) (y.mapError f) := fun a ha => by
  cases x with
  | ok b =>
    cases ha
    rw [h _ rfl]
    rfl
  | error problem => cases ha

theorem mapM {f g : α → Except ε β} (h : ∀ a, Refines (f a) (g a)) (items : List α) :
    Refines (items.mapM f) (items.mapM g) := fun _ hv =>
  mapM_eq_ok.2 ((mapM_eq_ok.1 hv).imp fun a b hb => h a b hb)

theorem foldlM {f g : β → α → Except ε β} (h : ∀ b a, Refines (f b a) (g b a)) (items : List α)
    (start : β) : Refines (items.foldlM f start) (items.foldlM g start) := by
  induction items generalizing start with
  | nil => exact .refl _
  | cons item rest ih =>
    rw [List.foldlM_cons, List.foldlM_cons]
    exact .bind (h start item) ih

end Refines

end Refines

section Pools

variable {p q : ConstantPool}

theorem ConstantPool.refines_utf8 (h : p ≤ q) (index : PoolIndex) :
    Refines (p.utf8 index) (q.utf8 index) := fun _ => utf8_of_le h

theorem ConstantPool.refines_className (h : p ≤ q) (index : PoolIndex) :
    Refines (p.className index) (q.className index) := fun _ => className_of_le h

theorem CodeTables.refines_add (h : p ≤ q) (tables : CodeTables) (item : Attribute) :
    Refines (CodeTables.add p tables item) (CodeTables.add q tables item) :=
  .bind (.mapError _ (ConstantPool.refines_utf8 h item.name)) fun _ => .refl _

namespace Frame

variable {C P : Type} [DecidableEq C] [DecidableEq P]

theorem refines_applyStackMap {convert more : StoredType → Except FrameFault (VerificationType C P)}
    (h : ∀ type, Refines (convert type) (more type)) (previous : Frame C P) (frame : StackMapFrame) :
    Refines (previous.applyStackMap frame convert) (previous.applyStackMap frame more) := by
  cases frame with
  | same delta => exact .refl _
  | sameOne delta type => exact .bind (h type) fun _ => .refl _
  | chop delta count => exact .refl _
  | append delta added => exact .bind (.mapM h added) fun _ => .refl _
  | full delta locals stack => exact .bind (.mapM h locals) fun _ => .bind (.mapM h stack) fun _ => .refl _

end Frame

namespace OffsetLabels

variable (labels : OffsetLabels)

theorem refines_convert (h : p ≤ q) (type : StoredType) :
    Refines (labels.convert p type) (labels.convert q type) := by
  cases type with
  | object index => exact .bind (.mapError _ (ConstantPool.refines_className h index)) fun _ => .refl _
  | _ => exact .refl _

theorem refines_handler (h : p ≤ q) (entry : ExceptionEntry) :
    Refines (labels.handler p entry) (labels.handler q entry) := by
  obtain ⟨start, stop, handler, catchType⟩ := entry
  cases catchType with
  | none => exact .refl _
  | some index =>
    have hname := (ConstantPool.refines_className h index).mapError ClassError.pool
    have hcatch : Refines (some <$> (p.className index).mapError ClassError.pool)
        (some <$> (q.className index).mapError ClassError.pool) := fun found hf => by
      cases hp : (p.className index).mapError ClassError.pool with
      | ok name =>
        rw [hp] at hf
        rw [hname name hp]
        exact hf
      | error problem =>
        rw [hp] at hf
        cases hf
    exact .bind hcatch fun _ => .refl _

theorem refines_frames (h : p ≤ q) (frames : List (Nat × StackMapFrame)) (previous : EditFrame)
    (found : FrameTable) :
    Refines (labels.frames p frames previous found) (labels.frames q frames previous found) := by
  induction frames generalizing previous found with
  | nil => exact .refl _
  | cons entry rest ih =>
    obtain ⟨offset, frame⟩ := entry
    intro out hout
    unfold OffsetLabels.frames at hout ⊢
    cases hnext : previous.applyStackMap frame (labels.convert p) with
    | error fault =>
      rw [hnext] at hout
      cases hout
    | ok next =>
      rw [hnext] at hout
      rw [Frame.refines_applyStackMap (labels.refines_convert h) previous frame next hnext]
      dsimp only at hout ⊢
      cases hlabel : labels.label offset with
      | error problem =>
        rw [hlabel] at hout
        cases hout
      | ok label =>
        rw [hlabel] at hout
        exact ih next _ out hout

theorem refines_localEntry (h : p ≤ q) (entry : LocalVariable) :
    Refines (labels.localEntry p entry) (labels.localEntry q entry) :=
  .bind (.refl _) fun _ => .bind (.refl _) fun _ =>
    .bind (.mapError _ (ConstantPool.refines_utf8 h entry.name)) fun _ =>
    .bind (.mapError _ (ConstantPool.refines_utf8 h entry.descriptor)) fun _ => .refl _

end OffsetLabels

namespace MethodBody

/-- A pool that holds more decodes the same body. -/
theorem decode_of_le (h : p ≤ q) (code : Code) (shape : MethodShape) :
    Refines (decode code p shape) (decode code q shape) :=
  .bind (.refl _) fun _ => .bind (.foldlM (CodeTables.refines_add h) _ _) fun _ =>
    .bind (.refl _) fun labels => .bind (.refl _) fun _ =>
    .bind (.mapM (labels.refines_handler h) _) fun _ =>
    .bind (labels.refines_frames h _ _ _) fun _ => .bind (.refl _) fun _ =>
    .bind (.mapM (labels.refines_localEntry h) _) fun _ =>
    .bind (.mapM (labels.refines_localEntry h) _) fun _ => .refl _

end MethodBody

end Pools

namespace OffsetLabels

variable {labels : OffsetLabels} {pool : ConstantPool}

/-- The offset has a label. -/
def Knows (labels : OffsetLabels) (offset : Nat) : Prop := ∃ label, labels.label offset = .ok label

theorem handler_ok {entry : ExceptionEntry} (hrange : entry.start < entry.stop)
    (hcatch : ∀ index, entry.catchType = some index → ∃ name, pool.className index = .ok name)
    (hstart : labels.Knows entry.start.toNat) (hstop : labels.Knows entry.stop.toNat)
    (hhandler : labels.Knows entry.handler.toNat) :
    ∃ handler, labels.handler pool entry = .ok handler := by
  obtain ⟨start, hstart⟩ := hstart
  obtain ⟨stop, hstop⟩ := hstop
  obtain ⟨target, htarget⟩ := hhandler
  have hrest : ∀ catchType, ∃ handler, (do
      if entry.stop ≤ entry.start then throw (.malformedCode entry.start.toNat .badRange)
      let start ← labels.label entry.start.toNat
      let stop ← labels.label entry.stop.toNat
      return ⟨start, stop, ← labels.label entry.handler.toNat, catchType⟩ :
        Except ClassError Handler) = .ok handler := by
    intro catchType
    rw [if_neg (UInt16.not_le.2 hrange)]
    exact ⟨_, except_bind_eq_ok.2 ⟨start, hstart, except_bind_eq_ok.2 ⟨stop, hstop,
      except_bind_eq_ok.2 ⟨target, htarget, rfl⟩⟩⟩⟩
  obtain ⟨start, stop, handler, catchType⟩ := entry
  cases catchType with
  | none =>
    obtain ⟨found, hfound⟩ := hrest none
    exact ⟨found, except_bind_eq_ok.2 ⟨none, rfl, hfound⟩⟩
  | some index =>
    obtain ⟨name, hname⟩ := hcatch index rfl
    obtain ⟨found, hfound⟩ := hrest (some name)
    refine ⟨found, except_bind_eq_ok.2 ⟨some name, ?_, hfound⟩⟩
    change some <$> Except.mapError ClassError.pool (pool.className index) = _
    rw [hname]
    rfl

theorem lineEntry_ok {entry : LineNumber} (h : labels.Knows entry.start.toNat) :
    ∃ line, labels.lineEntry entry = .ok line := by
  obtain ⟨start, hstart⟩ := h
  exact ⟨_, except_bind_eq_ok.2 ⟨start, hstart, rfl⟩⟩

theorem localEntry_ok {entry : LocalVariable} (hstart : labels.Knows entry.start.toNat)
    (hstop : labels.Knows (entry.start.toNat + entry.length.toNat)) {name descriptor : String}
    (hname : pool.utf8 entry.name = .ok name)
    (hdescriptor : pool.utf8 entry.descriptor = .ok descriptor) :
    ∃ found, labels.localEntry pool entry = .ok found := by
  obtain ⟨start, hstart⟩ := hstart
  obtain ⟨stop, hstop⟩ := hstop
  refine ⟨_, except_bind_eq_ok.2 ⟨start, hstart, except_bind_eq_ok.2 ⟨stop, hstop,
    except_bind_eq_ok.2 ⟨name, ?_, except_bind_eq_ok.2 ⟨descriptor, ?_, rfl⟩⟩⟩⟩⟩
  · change Except.mapError ClassError.pool (pool.utf8 entry.name) = _
    rw [hname]
    rfl
  · change Except.mapError ClassError.pool (pool.utf8 entry.descriptor) = _
    rw [hdescriptor]
    rfl

end OffsetLabels

namespace MethodBody

/-- What refers to an offset. -/
theorem mem_references {decoded : List (Nat × Decoded)} {code : Code} {tables : CodeTables}
    {frames : List (Nat × StackMapFrame)} {offset : Nat} :
    offset ∈ references decoded code tables frames ↔
      (∃ entry ∈ decoded, offset ∈ entry.2.targets) ∨
      (∃ entry ∈ code.exceptions,
        offset = entry.start.toNat ∨ offset = entry.stop.toNat ∨ offset = entry.handler.toNat) ∨
      (∃ entry ∈ frames, offset = entry.1 ∨
        ∃ allocation, .uninitialized allocation ∈ entry.2.types ∧ offset = allocation.toNat) ∨
      (∃ entry ∈ tables.lines, offset = entry.start.toNat) ∨
      ∃ entry ∈ tables.locals ++ tables.localTypes,
        offset = entry.start.toNat ∨ offset = entry.start.toNat + entry.length.toNat := by
  unfold references
  simp only [List.mem_append, List.mem_flatMap, List.mem_map, List.mem_cons, List.mem_filterMap,
    List.not_mem_nil, or_false, or_assoc, eq_comm]
  refine or_congr_right (or_congr_right (or_congr_left (exists_congr fun frame =>
    and_congr_right fun _ => or_congr_right ⟨?_, ?_⟩)))
  · rintro ⟨type, hm, ht⟩
    cases type with
    | uninitialized allocation =>
      cases ht
      exact ⟨allocation, hm, rfl⟩
    | _ => cases ht
  · rintro ⟨allocation, hm, rfl⟩
    exact ⟨_, hm, rfl⟩

/-- Code is decoded if its instructions and tables can be read, what refers to an offset refers to an
instruction or the end, and the pool has what the tables name. -/
theorem decode_ok {code : Code} {pool : ConstantPool} {shape : MethodShape}
    {entries : List (Nat × Decoded)} {tables : CodeTables}
    (hread : Decoded.readAll code.code = .ok entries)
    (htables : code.attributes.foldlM (CodeTables.add pool) .empty = .ok tables)
    (hreferences : ∀ offset ∈ references entries code tables (stackMapOffsets none tables.frames),
      offset ∈ entries.map Prod.fst ++ [code.code.length])
    (hhandlers : ∀ entry ∈ code.exceptions, entry.start < entry.stop ∧
      ∀ index, entry.catchType = some index → ∃ name, pool.className index = .ok name)
    (hframes : ∀ labels : OffsetLabels,
      (∀ offset ∈ references entries code tables (stackMapOffsets none tables.frames),
        labels.Knows offset) →
      ∃ frames, labels.frames pool (stackMapOffsets none tables.frames) shape.entryFrame [] =
        .ok frames)
    (hnames : ∀ entry ∈ tables.locals ++ tables.localTypes,
      (∃ name, pool.utf8 entry.name = .ok name) ∧
        ∃ descriptor, pool.utf8 entry.descriptor = .ok descriptor) :
    ∃ body, decode code pool shape = .ok body := by
  have hlabels := OffsetLabels.ofReferences_eq_ok.2 ⟨hreferences, rfl⟩
  generalize OffsetLabels.assign _ _ = labels at hlabels
  have known : ∀ offset ∈ references entries code tables (stackMapOffsets none tables.frames),
      labels.Knows offset := fun offset hm => OffsetLabels.label_ok hlabels hm
  have htargets : ∀ entry ∈ entries, ∀ target ∈ entry.2.targets, labels.Knows target :=
    fun entry hm target ht => known target (mem_references.2 (.inl ⟨entry, hm, ht⟩))
  obtain ⟨nodes, hnodes⟩ := OffsetLabels.nodesOnto_ok htargets []
  obtain ⟨handlers, hh⟩ : ∃ handlers, code.exceptions.mapM (labels.handler pool) = .ok handlers := by
    refine Layout.mapM_ok fun entry hm => ?_
    have hoffsets : ∀ offset, offset = entry.start.toNat ∨ offset = entry.stop.toNat ∨
        offset = entry.handler.toNat → labels.Knows offset := fun offset ho =>
      known offset (mem_references.2 (.inr (.inl ⟨entry, hm, ho⟩)))
    exact OffsetLabels.handler_ok (hhandlers entry hm).1 (hhandlers entry hm).2
      (hoffsets _ (.inl rfl)) (hoffsets _ (.inr (.inl rfl))) (hoffsets _ (.inr (.inr rfl)))
  obtain ⟨frames, hf⟩ := hframes labels known
  obtain ⟨lines, hl⟩ : ∃ lines, tables.lines.mapM labels.lineEntry = .ok lines := by
    refine Layout.mapM_ok fun entry hm => OffsetLabels.lineEntry_ok (known _ ?_)
    exact mem_references.2 (.inr (.inr (.inr (.inl ⟨entry, hm, rfl⟩))))
  have hlocals : ∀ entry ∈ tables.locals ++ tables.localTypes,
      ∃ found, labels.localEntry pool entry = .ok found := by
    intro entry hm
    have hoffsets : ∀ offset, offset = entry.start.toNat ∨
        offset = entry.start.toNat + entry.length.toNat → labels.Knows offset := fun offset ho =>
      known offset (mem_references.2 (.inr (.inr (.inr (.inr ⟨entry, hm, ho⟩)))))
    obtain ⟨⟨name, hname⟩, descriptor, hdescriptor⟩ := hnames entry hm
    exact OffsetLabels.localEntry_ok (hoffsets _ (.inl rfl)) (hoffsets _ (.inr rfl)) hname
      hdescriptor
  obtain ⟨locals, hv⟩ := Layout.mapM_ok fun entry hm => hlocals entry (List.mem_append_left _ hm)
  obtain ⟨localTypes, ht⟩ := Layout.mapM_ok fun entry hm =>
    hlocals entry (List.mem_append_right _ hm)
  exact ⟨_, except_bind_eq_ok.2 ⟨entries, hread, except_bind_eq_ok.2 ⟨tables, htables,
    except_bind_eq_ok.2 ⟨labels, hlabels, except_bind_eq_ok.2 ⟨nodes, hnodes,
    except_bind_eq_ok.2 ⟨handlers, hh, except_bind_eq_ok.2 ⟨frames, hf,
    except_bind_eq_ok.2 ⟨lines, hl, except_bind_eq_ok.2 ⟨locals, hv,
    except_bind_eq_ok.2 ⟨localTypes, ht, rfl⟩⟩⟩⟩⟩⟩⟩⟩⟩⟩

end MethodBody

end ClassWeave
