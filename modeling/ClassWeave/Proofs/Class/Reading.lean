import ClassWeave.Class.File
import ClassWeave.Proofs.Pool.Reading

/-!
Reading back a class. Every part is read back as it was if the lengths in it fit the fields that hold
them, and all that was read fits.
-/

namespace ClassWeave

theorem Version.reads_bytes (version : Version) : Reads Version.read version.bytes version :=
  (Reader.reads_u16 version.minor).bind (Reader.reads_u16 version.major).map

theorem Flags.reads_bytes {kind : FlagKind} (flags : Flags kind) :
    Reads (Flags.read kind) flags.bytes flags := by
  obtain ⟨bits, known⟩ := flags
  have hread := (Reader.reads_u16 bits).map (f := Flags.ofBits kind)
  have hbits : Flags.ofBits kind bits = ⟨bits, known⟩ := by
    unfold Flags.ofBits
    simp only [known]
  rwa [hbits] at hread

namespace Attribute

/-- The number of bytes fits its four bytes. -/
def Fits (item : Attribute) : Prop := item.content.length < 4294967296

instance (item : Attribute) : Decidable item.Fits :=
  inferInstanceAs (Decidable (item.content.length < 4294967296))

theorem reads_bytes {item : Attribute} (h : item.Fits) : Reads Attribute.read item.bytes item :=
  item.name.reads_bytes.bind (Reader.reads_sized h).map

theorem gives_read : Gives Attribute.read Fits :=
  .skip fun _ => .bind Reader.gives_sized fun _ h => .pure h

theorem parse_of_reads {α : Type} {format : AttributeFormat α} {content : Bytes} {value : α}
    (h : Reads format.read content value) (name : PoolIndex) :
    Attribute.parse format ⟨name, content⟩ = .ok value := by
  unfold Attribute.parse
  rw [h.all]

end Attribute

namespace ExceptionEntry

/-- The index zero is not that of a class. -/
def Fits (entry : ExceptionEntry) : Prop := entry.catchType ≠ some ⟨0⟩

theorem reads_bytes {entry : ExceptionEntry} (h : entry.Fits) :
    Reads ExceptionEntry.read entry.bytes entry := by
  unfold bytes
  simp only [List.append_assoc]
  exact (Reader.reads_u16 entry.start).bind <| (Reader.reads_u16 entry.stop).bind <|
    (Reader.reads_u16 entry.handler).bind (PoolIndex.reads_bytes? h).map

end ExceptionEntry

namespace Code

/-- The counts and lengths fit their fields. -/
structure Fits (code : Code) : Prop where
  length : code.code.length < 4294967296
  exceptions : code.exceptions.length < 65536
  catches : ∀ entry ∈ code.exceptions, entry.Fits
  attributes : code.attributes.length < 65536
  contents : ∀ item ∈ code.attributes, item.Fits

theorem reads_bytes {code : Code} (h : code.Fits) : Reads Code.read code.bytes code := by
  have hexceptions := Reader.reads_list h.exceptions fun entry hm =>
    ExceptionEntry.reads_bytes (h.catches entry hm)
  have hattributes := Reader.reads_list h.attributes fun item hm =>
    Attribute.reads_bytes (h.contents item hm)
  unfold bytes
  simp only [List.append_assoc]
  exact (Reader.reads_u16 code.maxStack).bind <| (Reader.reads_u16 code.maxLocals).bind <|
    (Reader.reads_sized h.length).bind <| hexceptions.bind hattributes.map

end Code

theorem LineNumber.reads_bytes (entry : LineNumber) : Reads LineNumber.read entry.bytes entry :=
  (Reader.reads_u16 entry.start).bind (Reader.reads_u16 entry.line).map

theorem LocalVariable.reads_bytes (entry : LocalVariable) :
    Reads LocalVariable.read entry.bytes entry := by
  unfold bytes
  simp only [List.append_assoc]
  exact (Reader.reads_u16 entry.start).bind <| (Reader.reads_u16 entry.length).bind <|
    entry.name.reads_bytes.bind <| entry.descriptor.reads_bytes.bind (Reader.reads_u16 entry.slot).map

namespace Member

variable {kind : FlagKind}

/-- The attributes fit their fields. -/
structure Fits (declared : Member kind) : Prop where
  attributes : declared.attributes.length < 65536
  contents : ∀ item ∈ declared.attributes, item.Fits

instance (declared : Member kind) : Decidable declared.Fits :=
  decidable_of_iff (declared.attributes.length < 65536 ∧ ∀ item ∈ declared.attributes, item.Fits)
    ⟨fun h => ⟨h.1, h.2⟩, fun h => ⟨h.attributes, h.contents⟩⟩

theorem reads_bytes {declared : Member kind} (h : declared.Fits) :
    Reads (Member.read kind) declared.bytes declared := by
  have hattributes := Reader.reads_list h.attributes fun item hm =>
    Attribute.reads_bytes (h.contents item hm)
  unfold bytes
  simp only [List.append_assoc]
  exact declared.flags.reads_bytes.bind <| declared.name.reads_bytes.bind <|
    declared.descriptor.reads_bytes.bind hattributes.map

theorem gives_read : Gives (Member.read kind) Fits :=
  .skip fun _ => .skip fun _ => .skip fun _ =>
    .bind (Reader.gives_list Attribute.gives_read) fun _ h => .pure ⟨h.1, h.2⟩

end Member

namespace ClassFile

/-- All but the texts of the pool fits the fields that hold it. -/
structure Fits (file : ClassFile) : Prop where
  superClass : file.superClass ≠ some ⟨0⟩
  interfaces : file.interfaces.length < 65536
  fields : file.fields.length < 65536
  fieldsFit : ∀ declared ∈ file.fields, declared.Fits
  methods : file.methods.length < 65536
  methodsFit : ∀ declared ∈ file.methods, declared.Fits
  attributes : file.attributes.length < 65536
  contents : ∀ item ∈ file.attributes, item.Fits

instance (file : ClassFile) : Decidable file.Fits :=
  decidable_of_iff (file.superClass ≠ some ⟨0⟩ ∧ file.interfaces.length < 65536 ∧
    file.fields.length < 65536 ∧ (∀ declared ∈ file.fields, declared.Fits) ∧
    file.methods.length < 65536 ∧ (∀ declared ∈ file.methods, declared.Fits) ∧
    file.attributes.length < 65536 ∧ ∀ item ∈ file.attributes, item.Fits)
    ⟨fun ⟨h₁, h₂, h₃, h₄, h₅, h₆, h₇, h₈⟩ => ⟨h₁, h₂, h₃, h₄, h₅, h₆, h₇, h₈⟩,
      fun h => ⟨h.1, h.2, h.3, h.4, h.5, h.6, h.7, h.8⟩⟩

/-- What is parsed is all that stands behind the magic number. -/
theorem parse_eq_ok {image : Bytes} {file : ClassFile} : ClassFile.parse image = .ok file ↔
    ∃ rest, Reader.u32 image = .ok (magic, rest) ∧ ClassFile.read rest = .ok (file, []) := by
  unfold ClassFile.parse
  rw [except_bind_eq_ok]
  constructor
  · rintro ⟨⟨found, rest⟩, hmagic, h⟩
    dsimp only at h
    split at h
    · cases h
    next hfound =>
    obtain ⟨⟨parsed, left⟩, hread, h⟩ := except_bind_eq_ok.1 h
    dsimp only at h
    split at h
    · next hempty =>
      cases h
      rw [Classical.not_not.1 hfound] at hmagic
      rw [List.isEmpty_iff.1 hempty] at hread
      exact ⟨rest, mapError_eq_ok.1 hmagic, mapError_eq_ok.1 hread⟩
    · cases h
  · rintro ⟨rest, hmagic, hread⟩
    refine ⟨_, mapError_eq_ok.2 hmagic, ?_⟩
    dsimp only
    rw [if_neg (by simp)]
    exact except_bind_eq_ok.2 ⟨_, mapError_eq_ok.2 hread, rfl⟩

theorem reads_bytes {file : ClassFile} (h : file.Fits)
    (texts : ∀ constant ∈ file.pool.constants, constant.Fits) :
    ∃ pool : ConstantPool, pool.slots = file.pool.slots ∧
      ClassFile.parse file.bytes = .ok { file with pool } := by
  obtain ⟨pool, hpool, hslots⟩ := ConstantPool.reads_bytes texts
  have hfields := Reader.reads_list h.fields fun declared hm =>
    Member.reads_bytes (h.fieldsFit declared hm)
  have hmethods := Reader.reads_list h.methods fun declared hm =>
    Member.reads_bytes (h.methodsFit declared hm)
  have hattributes := Reader.reads_list h.attributes fun item hm =>
    Attribute.reads_bytes (h.contents item hm)
  have hread : Reads ClassFile.read (file.version.bytes ++ (file.pool.bytes ++ (file.flags.bytes ++
      (file.thisClass.bytes ++ (PoolIndex.bytes? file.superClass ++
      (Bytes.list PoolIndex.bytes file.interfaces ++ (Bytes.list Member.bytes file.fields ++
      (Bytes.list Member.bytes file.methods ++ Bytes.list Attribute.bytes file.attributes))))))))
      { file with pool } :=
    file.version.reads_bytes.bind <| hpool.bind <| file.flags.reads_bytes.bind <|
    file.thisClass.reads_bytes.bind <| (PoolIndex.reads_bytes? h.superClass).bind <|
    (Reader.reads_list h.interfaces fun index _ => index.reads_bytes).bind <| hfields.bind <|
    hmethods.bind hattributes.map
  refine ⟨pool, hslots, parse_eq_ok.2 ⟨_, ?_, hread.all⟩⟩
  unfold bytes
  simp only [List.append_assoc]
  exact Reader.reads_u32 magic _

theorem gives_read : Gives ClassFile.read fun file =>
    file.Fits ∧ ∀ constant ∈ file.pool.constants, constant.Fits := by
  refine .skip fun version => .bind ConstantPool.gives_read fun pool texts => .skip fun flags =>
    .skip fun thisClass => .bind PoolIndex.gives_read? fun superClass hsuper =>
    .bind Reader.gives_length fun interfaces hinterfaces =>
    .bind (Reader.gives_list Member.gives_read) fun fields hfields =>
    .bind (Reader.gives_list Member.gives_read) fun methods hmethods =>
    .bind (Reader.gives_list Attribute.gives_read) fun attributes hattributes => .pure ?_
  exact ⟨⟨hsuper, hinterfaces, hfields.1, hfields.2, hmethods.1, hmethods.2, hattributes.1,
    hattributes.2⟩, texts⟩

/-- What was parsed fits. -/
theorem fits_of_parse {image : Bytes} {file : ClassFile} (h : ClassFile.parse image = .ok file) :
    file.Fits ∧ ∀ constant ∈ file.pool.constants, constant.Fits := by
  obtain ⟨rest, -, hread⟩ := parse_eq_ok.1 h
  exact gives_read rest file [] hread

end ClassFile

end ClassWeave
