import ClassWeave.Proofs.Class.Consuming
import ClassWeave.Proofs.Code.Rereading

/-!
Attributes that lose nothing. A value whose counts and lengths fit is read back from its bytes, also out of code that
it is nested in. What was read fits, and is written as it was read; only a stack map may have been read from more bytes
than it is written on.
-/

namespace ClassWeave

namespace StoredType

theorem restores_read : Restores StoredType.read StoredType.bytes := by
  refine Reader.restores_u8.bind fun tag => ?_
  split
  · exact .pure rfl
  · exact .pure rfl
  · exact .pure rfl
  · exact .pure rfl
  · exact .pure rfl
  · exact .pure rfl
  · exact .pure rfl
  · exact PoolIndex.restores_read.map fun _ => rfl
  · exact Reader.restores_u16.map fun _ => rfl
  · exact .throw _

end StoredType

namespace StackMapFrame

/-- A chop and an append are of one to three locals. -/
def Countable : StackMapFrame → Prop
  | .chop _ count => 1 ≤ count ∧ count ≤ 3
  | .append _ locals => 1 ≤ locals.length ∧ locals.length ≤ 3
  | _ => True

/-- The frames that have bytes are those. -/
theorem countable_iff {frame : StackMapFrame} : frame.Countable ↔ ∃ content, frame.bytes = .ok content := by
  cases frame with
  | same | sameOne | full => exact iff_of_true trivial ⟨_, rfl⟩
  | chop delta count =>
    unfold bytes
    dsimp only
    split
    · next hcount => exact iff_of_true hcount ⟨_, rfl⟩
    · next hcount => exact iff_of_false hcount fun ⟨_, h⟩ => (by cases h)
  | append delta locals =>
    unfold bytes
    dsimp only
    split
    · next hcount => exact iff_of_true hcount ⟨_, rfl⟩
    · next hcount => exact iff_of_false hcount fun ⟨_, h⟩ => (by cases h)

/-- The frame can be written, on no more bytes than these. -/
def Within (frame : StackMapFrame) (taken : Bytes) : Prop :=
  frame.Fits ∧ ∃ content, frame.bytes = .ok content ∧ content.length ≤ taken.length

theorem within_same {delta : UInt16} {taken : Bytes} (h : delta ≤ 63 ∧ 1 ≤ taken.length ∨ 3 ≤ taken.length) :
    (same delta).Within taken := by
  refine ⟨trivial, _, rfl, ?_⟩
  split
  · show 1 ≤ taken.length
    omega
  · next hlong => exact h.resolve_left fun hshort => hlong hshort.1

theorem within_sameOne {delta : UInt16} {type : StoredType} {front : Bytes}
    (h : delta ≤ 63 ∧ 1 ≤ front.length ∨ 3 ≤ front.length) : (sameOne delta type).Within (front ++ type.bytes) := by
  refine ⟨trivial, _, rfl, ?_⟩
  rw [List.length_append, List.length_append]
  refine Nat.add_le_add_right ?_ _
  split
  · show 1 ≤ front.length
    omega
  · next hlong => exact h.resolve_left fun hshort => hlong hshort.1

theorem within_chop {delta : UInt16} {count tag : UInt8} (h : 1 ≤ count ∧ count ≤ 3) :
    (chop delta count).Within ([tag] ++ Bytes.u16 delta) :=
  ⟨trivial, _, if_pos h, Nat.le_refl _⟩

theorem within_append {delta : UInt16} {locals : List StoredType} {tag : UInt8}
    (h : 1 ≤ locals.length ∧ locals.length ≤ 3) :
    (append delta locals).Within ([tag] ++ (Bytes.u16 delta ++ locals.flatMap StoredType.bytes)) :=
  ⟨trivial, _, if_pos h, Nat.le_refl _⟩

theorem consumes_types : Consumes (Reader.list StoredType.read) fun types taken =>
    taken = Bytes.list StoredType.bytes types ∧ types.length < 65536 :=
  ((Reader.restores_list StoredType.restores_read).and Reader.gives_length).imp fun _ _ h => h

theorem consumes_read : Consumes StackMapFrame.read Within := by
  refine Reader.restores_u8.bind fun tag => ?_
  unfold readTagged
  split
  · next hshort =>
    have hdelta : tag.toUInt16 ≤ 63 := by
      rw [UInt16.le_iff_toNat_le, UInt8.toNat_toUInt16]
      exact UInt8.le_iff_toNat_le.1 hshort
    exact .pure (within_same (.inl ⟨hdelta, Nat.le_refl _⟩))
  next hsame =>
  split
  · next hone =>
    have hdelta : tag.toUInt16 - 64 ≤ 63 := by
      have hlow := UInt8.lt_iff_toNat_lt.1 (UInt8.not_le.1 hsame)
      have hhigh := UInt8.le_iff_toNat_le.1 hone
      have hle : (64 : UInt16) ≤ tag.toUInt16 := by
        rw [UInt16.le_iff_toNat_le, UInt8.toNat_toUInt16]
        exact hlow
      rw [UInt16.le_iff_toNat_le, UInt16.toNat_sub_of_le _ _ hle, UInt8.toNat_toUInt16]
      exact Nat.sub_le_of_le_add hhigh
    exact StoredType.restores_read.map fun type => within_sameOne (.inl ⟨hdelta, Nat.le_refl _⟩)
  next hone =>
  split
  · exact .throw _
  next hreserved =>
  split
  · refine Reader.restores_u16.bind fun delta => StoredType.restores_read.map fun type => ?_
    rw [← List.append_assoc]
    exact within_sameOne (.inr (Nat.le_refl _))
  next hextended =>
  split
  · next hchop =>
    have hcount : 1 ≤ 251 - tag ∧ 251 - tag ≤ 3 := by
      have hlow := UInt8.lt_iff_toNat_lt.1 (UInt8.not_le.1 hreserved)
      have hlow : 246 < tag.toNat := hlow
      have hne : tag.toNat ≠ 247 := fun h => hextended (UInt8.toNat_inj.1 h)
      have hhigh : tag.toNat ≤ 250 := UInt8.le_iff_toNat_le.1 hchop
      have hsub : (251 - tag).toNat = 251 - tag.toNat :=
        UInt8.toNat_sub_of_le _ _ (UInt8.le_iff_toNat_le.2 (Nat.le_succ_of_le hhigh))
      rw [UInt8.le_iff_toNat_le, UInt8.le_iff_toNat_le, hsub]
      show 1 ≤ 251 - tag.toNat ∧ 251 - tag.toNat ≤ 3
      omega
    exact Reader.restores_u16.map fun delta => within_chop hcount
  next hchop =>
  split
  · exact Reader.restores_u16.map fun delta => within_same (.inr (Nat.le_refl _))
  next hlong =>
  split
  · next happend =>
    have hcount : 1 ≤ tag.toNat - 251 ∧ tag.toNat - 251 ≤ 3 := by
      have hlow : 250 < tag.toNat := UInt8.lt_iff_toNat_lt.1 (UInt8.not_le.1 hchop)
      have hne : tag.toNat ≠ 251 := fun h => hlong (UInt8.toNat_inj.1 h)
      have hhigh : tag.toNat ≤ 254 := UInt8.le_iff_toNat_le.1 happend
      omega
    refine Reader.restores_u16.bind fun delta =>
      (Reader.consumes_repeatOnto StoredType.restores_read _ []).map ?_
    rintro locals taken ⟨more, parts, (rfl : locals = more), hlength, rfl, hparts⟩
    rw [Reader.flatten_parts hparts]
    exact within_append (hlength ▸ hcount)
  · refine Reader.restores_u16.bind fun delta => consumes_types.bind ?_
    rintro locals _ ⟨rfl, hlocals⟩
    refine consumes_types.map ?_
    rintro stack _ ⟨rfl, hstack⟩
    exact ⟨⟨hlocals, hstack⟩, _, rfl, by simp⟩

/-- Frames that can each be written on no more bytes than a part can all be written on no more than the parts. -/
theorem within_parts {frames : List StackMapFrame} {parts : List Bytes} (h : List.Forall₂ Within frames parts) :
    (∀ frame ∈ frames, frame.Fits ∧ frame.Countable) ∧ ∃ written,
      frames.mapM StackMapFrame.bytes = .ok written ∧ written.flatten.length ≤ parts.flatten.length := by
  induction h with
  | nil => exact ⟨fun _ hm => absurd hm List.not_mem_nil, [], rfl, Nat.le_refl _⟩
  | cons first _ ih =>
    obtain ⟨hfits, content, hcontent, hle⟩ := first
    obtain ⟨hrest, written, hwritten, hless⟩ := ih
    refine ⟨List.forall_mem_cons.2 ⟨⟨hfits, countable_iff.2 ⟨_, hcontent⟩⟩, hrest⟩, content :: written, ?_, ?_⟩
    · rw [List.mapM_cons]
      exact except_bind_eq_ok.2 ⟨_, hcontent, except_bind_eq_ok.2 ⟨_, hwritten, rfl⟩⟩
    · rw [List.flatten_cons, List.flatten_cons, List.length_append, List.length_append]
      exact Nat.add_le_add hle hless

end StackMapFrame

theorem Attribute.parse_eq_ok {α : Type} {format : AttributeFormat α} {item : Attribute}
    {value : α} :
    item.parse format = .ok value ↔ format.read item.content = .ok (value, []) := by
  unfold Attribute.parse
  split
  · next found hread =>
    rw [hread]
    exact ⟨fun h => by rw [Except.ok.inj h], fun h => by rw [(Prod.mk.inj (Except.ok.inj h)).1]⟩
  · next found rest hne hread =>
    rw [hread]
    exact ⟨fun h => (by cases h), fun h => (by cases h; exact absurd rfl hne)⟩
  · next problem hread =>
    rw [hread]
    exact ⟨fun h => (by cases h), fun h => (by cases h)⟩

namespace AttributeFormat

variable {α : Type} {format : AttributeFormat α} {fits : α → Prop} {kept : Bytes → Bytes → Prop}

/-- The values that fit are those that the format reads. Each has bytes and is read from them; the bytes that a value
was read from are kept in those that it is written on. -/
structure Lossless (format : AttributeFormat α) (fits : α → Prop) (kept : Bytes → Bytes → Prop) : Prop where
  stores : ∀ value, fits value → ∃ content, format.bytes value = .ok content
  reads : ∀ value content, fits value → format.bytes value = .ok content → Reads format.read content value
  consumes : Consumes format.read fun value taken =>
    fits value ∧ ∃ content, format.bytes value = .ok content ∧ kept taken content

/-- Attributes go to bytes and back. A value that fits is parsed from its bytes, to the last one, also when these are
an attribute of code that is itself parsed from its bytes. A value that was parsed fits, is written on bytes that stand
for those it was parsed from, and is parsed from them again. -/
structure RoundTrips (format : AttributeFormat α) (fits : α → Prop) (kept : Bytes → Bytes → Prop) : Prop where
  parses : ∀ value, fits value → ∃ content, format.bytes value = .ok content ∧
    ∀ name, Attribute.parse format ⟨name, content⟩ = .ok value
  nested : ∀ value content, fits value → format.bytes value = .ok content →
    ∀ (code : Code) (i : Nat) (name : PoolIndex), code.Fits → code.attributes[i]? = some ⟨name, content⟩ →
      ∀ outer, ∃ parsed item, Attribute.parse Code.format ⟨outer, code.bytes⟩ = .ok parsed ∧
        parsed.attributes[i]? = some item ∧ item.name = name ∧ item.parse format = .ok value
  restores : ∀ item value, Attribute.parse format item = .ok value → fits value ∧
    ∃ content, format.bytes value = .ok content ∧ kept item.content content ∧
      ∀ name, Attribute.parse format ⟨name, content⟩ = .ok value

theorem Lossless.toRoundTrips (h : format.Lossless fits kept) : format.RoundTrips fits kept := by
  have parses (value : α) (content : Bytes) (hfits : fits value) (hbytes : format.bytes value = .ok content)
      (name : PoolIndex) : Attribute.parse format ⟨name, content⟩ = .ok value :=
    Attribute.parse_of_reads (h.reads value content hfits hbytes) name
  refine ⟨fun value hfits => ?_, ?_, fun item value hparse => ?_⟩
  · obtain ⟨content, hbytes⟩ := h.stores value hfits
    exact ⟨content, hbytes, parses value content hfits hbytes⟩
  · intro value content hfits hbytes code i name hcode hitem outer
    have houter : Attribute.parse Code.format ⟨outer, code.bytes⟩ = .ok code :=
      @Attribute.parse_of_reads _ Code.format _ _ (Code.reads_bytes hcode) outer
    exact ⟨code, _, houter, hitem, rfl, parses value content hfits hbytes name⟩
  · obtain ⟨taken, htaken, hfits, content, hbytes, hkept⟩ := h.consumes _ _ _ (Attribute.parse_eq_ok.1 hparse)
    rw [List.append_nil] at htaken
    exact ⟨hfits, content, hbytes, htaken ▸ hkept, parses value content hfits hbytes⟩

/-- A table of rows that are written as they were read. -/
theorem lossless_list {item : Reader α} {bytes : α → Bytes} (name : String) (hreads : ∀ row, Reads item (bytes row) row)
    (hrestores : Restores item bytes) :
    AttributeFormat.Lossless ⟨name, Reader.list item, fun rows => .ok (Bytes.list bytes rows)⟩
      (fun rows => rows.length < 65536) (fun taken content => content = taken) where
  stores _ _ := ⟨_, rfl⟩
  reads rows content hfits hbytes := by
    cases hbytes
    exact Reader.reads_list hfits fun row _ => hreads row
  consumes := by
    refine ((Reader.restores_list hrestores).and Reader.gives_length).imp ?_
    rintro rows taken ⟨rfl, hfits⟩
    exact ⟨hfits, _, rfl, rfl⟩

end AttributeFormat

namespace ExceptionEntry

theorem restores_read : Restores ExceptionEntry.read ExceptionEntry.bytes := by
  refine Reader.restores_u16.bind fun start => Reader.restores_u16.bind fun stop =>
    Reader.restores_u16.bind fun handler => PoolIndex.restores_read?.map fun catchType => ?_
  unfold bytes
  simp only [List.append_assoc]

theorem gives_read : Gives ExceptionEntry.read Fits :=
  .skip fun _ => .skip fun _ => .skip fun _ => .bind PoolIndex.gives_read? fun _ h => .pure h

end ExceptionEntry

theorem LineNumber.restores_read : Restores LineNumber.read LineNumber.bytes :=
  Reader.restores_u16.bind fun _ => Reader.restores_u16.map fun _ => rfl

theorem LocalVariable.restores_read : Restores LocalVariable.read LocalVariable.bytes := by
  refine Reader.restores_u16.bind fun start => Reader.restores_u16.bind fun length =>
    PoolIndex.restores_read.bind fun name => PoolIndex.restores_read.bind fun descriptor =>
    Reader.restores_u16.map fun slot => ?_
  unfold bytes
  simp only [List.append_assoc]

namespace Code

theorem restores_read : Restores Code.read Code.bytes := by
  refine Reader.restores_u16.bind fun maxStack => Reader.restores_u16.bind fun maxLocals =>
    Reader.restores_sized.bind fun code => (Reader.restores_list ExceptionEntry.restores_read).bind fun exceptions =>
    (Reader.restores_list Attribute.restores_read).map fun attributes => ?_
  unfold bytes
  simp only [List.append_assoc]

theorem gives_read : Gives Code.read Fits :=
  .skip fun _ => .skip fun _ => .bind Reader.gives_sized fun _ hlength =>
    .bind (Reader.gives_list ExceptionEntry.gives_read) fun _ hexceptions =>
    .bind (Reader.gives_list Attribute.gives_read) fun _ hattributes =>
    .pure ⟨hlength, hexceptions.1, hexceptions.2, hattributes.1, hattributes.2⟩

theorem lossless_format : format.Lossless Fits fun taken content => content = taken where
  stores _ _ := ⟨_, rfl⟩
  reads code content hfits hbytes := by
    cases hbytes
    exact reads_bytes hfits
  consumes := by
    refine (restores_read.and gives_read).imp ?_
    rintro code taken ⟨rfl, hfits⟩
    exact ⟨hfits, _, rfl, rfl⟩

end Code

/-- The counts of a table of stack maps fit, those of its frames too. -/
structure StackMapFrame.TableFits (frames : List StackMapFrame) : Prop where
  length : frames.length < 65536
  fits : ∀ frame ∈ frames, frame.Fits
  countable : ∀ frame ∈ frames, frame.Countable

theorem lossless_stackMapTable :
    stackMapTable.Lossless StackMapFrame.TableFits fun taken content => content.length ≤ taken.length where
  stores frames hfits := by
    obtain ⟨parts, hparts⟩ := Layout.mapM_ok fun frame hm =>
      StackMapFrame.countable_iff.1 (hfits.countable frame hm)
    exact ⟨_, except_bind_eq_ok.2 ⟨parts, hparts, rfl⟩⟩
  reads frames content hfits hbytes := reads_stackMapTable hfits.length hfits.fits hbytes
  consumes := by
    refine ((Reader.consumes_list StackMapFrame.consumes_read).and Reader.gives_length).imp ?_
    rintro frames taken ⟨⟨parts, hparts, rfl⟩, hlength⟩
    obtain ⟨hfits, written, hwritten, hle⟩ := StackMapFrame.within_parts hparts
    refine ⟨⟨hlength, fun frame hm => (hfits frame hm).1, fun frame hm => (hfits frame hm).2⟩,
      _, except_bind_eq_ok.2 ⟨written, hwritten, rfl⟩, ?_⟩
    rw [List.length_append, List.length_append]
    exact Nat.add_le_add_left hle _

/-- Code and the tables of debugging are written as they were read; stack maps are written on no more bytes. -/
theorem AttributeFormat.roundTrips :
    Code.format.RoundTrips Code.Fits (fun taken content => content = taken) ∧
    stackMapTable.RoundTrips StackMapFrame.TableFits (fun taken content => content.length ≤ taken.length) ∧
    LineNumber.table.RoundTrips (fun rows => rows.length < 65536) (fun taken content => content = taken) ∧
    LocalVariable.table.RoundTrips (fun rows => rows.length < 65536) (fun taken content => content = taken) ∧
    LocalVariable.typeTable.RoundTrips (fun rows => rows.length < 65536) (fun taken content => content = taken) :=
  ⟨Code.lossless_format.toRoundTrips, lossless_stackMapTable.toRoundTrips,
    (lossless_list _ LineNumber.reads_bytes LineNumber.restores_read).toRoundTrips,
    (lossless_list _ LocalVariable.reads_bytes LocalVariable.restores_read).toRoundTrips,
    (lossless_list _ LocalVariable.reads_bytes LocalVariable.restores_read).toRoundTrips⟩

/-- Stack maps with deltas in the long form, which are written in the short one. -/
def longForms : Bytes := [0, 2, 251, 0, 5, 247, 0, 9, 1]

theorem AttributeFormat.roundTrips_longForms : ∃ frames content,
    Attribute.parse stackMapTable ⟨⟨1⟩, longForms⟩ = .ok frames ∧ stackMapTable.bytes frames = .ok content ∧
    content.length ≤ longForms.length ∧ content.length = 5 ∧
    Code.Fits ⟨1, 1, [0xB1], [], [⟨⟨1⟩, content⟩]⟩ ∧
    ∃ parsed item, Attribute.parse Code.format ⟨⟨2⟩, (Code.mk 1 1 [0xB1] [] [⟨⟨1⟩, content⟩]).bytes⟩ = .ok parsed ∧
      parsed.attributes[0]? = some item ∧ item.name = ⟨1⟩ ∧ item.parse stackMapTable = .ok frames := by
  have hparse : Attribute.parse stackMapTable ⟨⟨1⟩, longForms⟩ = .ok [.same 5, .sameOne 9 .integer] := by rfl
  have hcontent : stackMapTable.bytes [.same 5, .sameOne 9 .integer] = .ok [0, 2, 5, 73, 1] := by rfl
  have hcode : Code.Fits ⟨1, 1, [0xB1], [], [⟨⟨1⟩, [0, 2, 5, 73, 1]⟩]⟩ :=
    ⟨by decide, by decide, by simp, by decide, by simp [Attribute.Fits]⟩
  obtain ⟨hfits, content, hbytes, hle, -⟩ := AttributeFormat.roundTrips.2.1.restores _ _ hparse
  rw [hcontent] at hbytes
  cases hbytes
  exact ⟨_, _, hparse, hcontent, hle, rfl, hcode,
    AttributeFormat.roundTrips.2.1.nested _ _ hfits hcontent _ 0 ⟨1⟩ hcode rfl ⟨2⟩⟩

end ClassWeave
