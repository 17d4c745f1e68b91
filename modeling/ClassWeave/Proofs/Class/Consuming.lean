import ClassWeave.Proofs.Class.Reading
import ClassWeave.Proofs.Format.Consuming

/-!
Writing what was read. A class that was parsed is written as the image it was parsed from, but for the
bits without a meaning in the flag words of the class and its members.
-/

namespace ClassWeave

theorem PoolIndex.restores_read : Restores PoolIndex.read PoolIndex.bytes :=
  Reader.restores_u16.map fun _ => rfl

theorem PoolIndex.restores_read? : Restores PoolIndex.read? PoolIndex.bytes? := by
  refine PoolIndex.restores_read.map fun index => ?_
  split
  · next hzero =>
    show Bytes.u16 index.value = Bytes.u16 0
    rw [hzero]
  · rfl

theorem HandleKind.restores_read : Restores HandleKind.read fun kind => [kind.code] := by
  refine Reader.restores_u8.bind fun code => ?_
  split
  all_goals first
    | exact .pure rfl
    | exact .throw _

namespace Constant

/-- A text is written as the bytes it was read from, be they modified UTF-8 or not. -/
theorem bytes_ofTextBytes (content : Bytes) : (ofTextBytes content).bytes = 1 :: textBytes content := by
  unfold ofTextBytes
  split
  · next text hdecode =>
    unfold bytes
    dsimp only
    rw [String.toList_ofList, ModifiedUtf8.encode_decode hdecode]
  · rfl

theorem restores_read : Restores Constant.read Constant.bytes := by
  refine Reader.restores_u8.bind fun tag => ?_
  split
  · refine Reader.restores_u16.bind fun length => (Reader.consumes_bytes length.toNat).map ?_
    rintro content taken ⟨rfl, hlength⟩
    rw [bytes_ofTextBytes]
    unfold textBytes
    rw [hlength, UInt16.ofNat_toNat]
    rfl
  · exact Reader.restores_i32.map fun _ => rfl
  · exact Reader.restores_u32.map fun _ => rfl
  · exact Reader.restores_i64.map fun _ => rfl
  · exact Reader.restores_u64.map fun _ => rfl
  · exact PoolIndex.restores_read.map fun _ => rfl
  · exact PoolIndex.restores_read.map fun _ => rfl
  · exact PoolIndex.restores_read.bind fun _ => PoolIndex.restores_read.map fun _ => rfl
  · exact PoolIndex.restores_read.bind fun _ => PoolIndex.restores_read.map fun _ => rfl
  · exact PoolIndex.restores_read.bind fun _ => PoolIndex.restores_read.map fun _ => rfl
  · exact PoolIndex.restores_read.bind fun _ => PoolIndex.restores_read.map fun _ => rfl
  · exact HandleKind.restores_read.bind fun _ => PoolIndex.restores_read.map fun _ => rfl
  · exact PoolIndex.restores_read.map fun _ => rfl
  · exact Reader.restores_u16.bind fun _ => PoolIndex.restores_read.map fun _ => rfl
  · exact Reader.restores_u16.bind fun _ => PoolIndex.restores_read.map fun _ => rfl
  · exact PoolIndex.restores_read.map fun _ => rfl
  · exact PoolIndex.restores_read.map fun _ => rfl
  · exact .throw _

end Constant

namespace ConstantPool

/-- Constants are read until the slots are full, and then are all that was read. -/
theorem consumes_readOnto {limit : Nat} {limit_le : limit ≤ 65535} {fuel : Nat} {pool : ConstantPool}
    (hsize : pool.size ≤ limit) (hfuel : limit ≤ pool.size + fuel) :
    Consumes (readOnto limit limit_le fuel pool) fun found taken => found.size = limit ∧
      ∃ more, found.constants = pool.constants ++ more ∧ taken = more.flatMap Constant.bytes := by
  induction fuel generalizing pool with
  | zero =>
    intro input found rest h
    cases h
    exact ⟨[], rfl, by omega, [], by simp, rfl⟩
  | succ fuel ih =>
    intro input found rest h
    unfold readOnto at h
    split at h
    · next hroom =>
      cases hread : Constant.read input with
      | error problem =>
        rw [hread] at h
        cases h
      | ok first =>
        obtain ⟨constant, middle⟩ := first
        rw [hread] at h
        dsimp only at h
        split at h
        · next hfits =>
          have hgrown : (pool.push constant (Nat.le_trans hfits limit_le)).size = pool.size + constant.width :=
            size_extend pool.slots constant
          have hpos := constant.width_pos
          obtain ⟨first, rfl, rfl⟩ := Constant.restores_read _ _ _ hread
          obtain ⟨taken, rfl, hend, more, hmore, rfl⟩ := ih (by omega) (by omega) _ _ _ h
          refine ⟨_, (List.append_assoc _ _ _).symm, hend, constant :: more, ?_, by rw [List.flatMap_cons]⟩
          rw [hmore, constants_push, List.append_assoc, List.singleton_append]
        · cases h
    · cases h
      exact ⟨[], rfl, by omega, [], by simp, rfl⟩

theorem restores_read : Restores ConstantPool.read ConstantPool.bytes := by
  refine Reader.restores_u16.bind fun count => ?_
  split
  · apply Consumes.bind
    case stands => exact fun _ _ => False
    · exact fun _ _ _ h => (stateT_throw_ne_ok.1 h).elim
    · exact fun _ _ h => h.elim
  · next hne =>
    have hpos : count.toNat ≠ 0 := fun hzero => hne (UInt16.toNat_inj.1 hzero)
    refine (consumes_readOnto (show empty.size ≤ count.toNat from ?_) (Nat.le_add_left _ _)).imp ?_
    · show 1 ≤ count.toNat
      omega
    · rintro pool taken ⟨hsize, more, hmore, rfl⟩
      unfold bytes
      rw [hsize, UInt16.ofNat_toNat, hmore]
      rfl

end ConstantPool

theorem Version.restores_read : Restores Version.read Version.bytes :=
  Reader.restores_u16.bind fun _ => Reader.restores_u16.map fun _ => rfl

theorem Attribute.restores_read : Restores Attribute.read Attribute.bytes :=
  PoolIndex.restores_read.bind fun _ => Reader.restores_sized.map fun _ => rfl

/-- A word of flags in the bytes of a class, with its position. -/
structure FlagWord where
  position : Nat
  kind : FlagKind
  flags : Flags kind

/-- The word at a position of some bytes. -/
def Bytes.HasWord (content : Bytes) (position : Nat) (word : UInt16) : Prop :=
  ∃ front back, content = front ++ Bytes.u16 word ++ back ∧ front.length = position

/-- The bytes of a part of an image that starts at an offset, and the bytes written for it. They differ
in the given words of flags only, and there in the bits without a meaning. -/
structure Masked (words : List FlagWord) (offset : Nat) (image written : Bytes) : Prop where
  length : written.length = image.length
  inside : ∀ word ∈ words, offset ≤ word.position ∧ word.position + 2 ≤ offset + image.length
  kept : ∀ i, (∀ word ∈ words, offset + i ≠ word.position ∧ offset + i ≠ word.position + 1) →
    written[i]? = image[i]?
  masked : ∀ word ∈ words, ∃ bits, image.HasWord (word.position - offset) bits ∧
    word.flags.bits = bits &&& word.kind.mask ∧ written.HasWord (word.position - offset) word.flags.bits

namespace Bytes

theorem length_u16 (n : UInt16) : (u16 n).length = 2 := length_ofNat 2 n.toNat

theorem length_u32 (n : UInt32) : (u32 n).length = 4 := length_ofNat 4 n.toNat

variable {content : Bytes} {position : Nat} {bits : UInt16}

theorem HasWord.append (h : content.HasWord position bits) (more : Bytes) :
    (content ++ more).HasWord position bits := by
  obtain ⟨front, back, rfl, rfl⟩ := h
  exact ⟨front, back ++ more, by simp only [List.append_assoc], rfl⟩

theorem HasWord.append_front (h : content.HasWord position bits) (front : Bytes) :
    (front ++ content).HasWord (front.length + position) bits := by
  obtain ⟨before, back, rfl, rfl⟩ := h
  exact ⟨front ++ before, back, by simp only [List.append_assoc], List.length_append⟩

theorem HasWord.getElem? (h : content.HasWord position bits) (i : Nat) (hi : i < 2) :
    content[position + i]? = (u16 bits)[i]? := by
  obtain ⟨front, back, rfl, rfl⟩ := h
  rw [List.append_assoc, List.getElem?_append_right (by omega), Nat.add_sub_cancel_left,
    List.getElem?_append_left (by rw [length_u16]; exact hi)]

end Bytes

theorem PoolIndex.length_bytes (index : PoolIndex) : index.bytes.length = 2 := Bytes.length_u16 _

theorem PoolIndex.length_bytes? (index : Option PoolIndex) : (PoolIndex.bytes? index).length = 2 := by
  cases index <;> exact Bytes.length_u16 _

theorem Flags.length_bytes {kind : FlagKind} (flags : Flags kind) : flags.bytes.length = 2 :=
  Bytes.length_u16 _

namespace Masked

variable {words words' : List FlagWord} {offset : Nat} {a a' b b' : Bytes}

theorem refl (offset : Nat) (a : Bytes) : Masked [] offset a a :=
  ⟨rfl, nofun, fun _ _ => rfl, nofun⟩

theorem word (offset : Nat) (kind : FlagKind) (bits : UInt16) :
    Masked [⟨offset, kind, .ofBits kind bits⟩] offset (Bytes.u16 bits) (Flags.ofBits kind bits).bytes := by
  have hlength := Bytes.length_u16 bits
  have hlength' := (Flags.ofBits kind bits).length_bytes
  refine ⟨hlength'.trans hlength.symm, fun word hm => ?_, fun i hi => ?_, fun word hm => ?_⟩
  · cases List.mem_singleton.1 hm
    dsimp only
    omega
  · have hapart := hi ⟨offset, kind, .ofBits kind bits⟩ List.mem_cons_self
    dsimp only at hapart
    rw [List.getElem?_eq_none (by omega), List.getElem?_eq_none (by omega)]
  · cases List.mem_singleton.1 hm
    dsimp only
    rw [Nat.sub_self]
    exact ⟨bits, ⟨[], [], (List.append_nil _).symm, rfl⟩, rfl, ⟨[], [], (List.append_nil _).symm, rfl⟩⟩

theorem append (h : Masked words offset a b) (h' : Masked words' (offset + b.length) a' b') :
    Masked (words ++ words') offset (a ++ a') (b ++ b') := by
  have hlength := h.length
  have hlength' := h'.length
  refine ⟨?_, fun word hm => ?_, fun i hi => ?_, fun word hm => ?_⟩
  · rw [List.length_append, List.length_append, hlength, hlength']
  · rw [List.length_append]
    rcases List.mem_append.1 hm with hm | hm
    · have hinside := h.inside word hm
      omega
    · have hinside := h'.inside word hm
      omega
  · by_cases hlt : i < b.length
    · rw [List.getElem?_append_left hlt, List.getElem?_append_left (by omega)]
      exact h.kept i fun word hm => hi word (List.mem_append_left _ hm)
    · rw [List.getElem?_append_right (by omega), List.getElem?_append_right (by omega), ← hlength]
      refine h'.kept _ fun word hm => ?_
      have hapart := hi word (List.mem_append_right _ hm)
      rwa [Nat.add_assoc, Nat.add_sub_cancel' (by omega)]
  · rcases List.mem_append.1 hm with hm | hm
    · obtain ⟨bits, himage, hflags, hwritten⟩ := h.masked word hm
      exact ⟨bits, himage.append a', hflags, hwritten.append b'⟩
    · obtain ⟨bits, himage, hflags, hwritten⟩ := h'.masked word hm
      have hinside := h'.inside word hm
      have hshift : word.position - offset = b.length + (word.position - (offset + b.length)) := by omega
      rw [hshift]
      exact ⟨bits, hlength ▸ himage.append_front a, hflags, hwritten.append_front b⟩

/-- Words that only have bits with a meaning are not changed. -/
theorem eq_of_known (h : Masked words offset a b) (known : ∀ word ∈ words, ∀ bits,
    a.HasWord (word.position - offset) bits → bits &&& word.kind.mask = bits) : b = a := by
  apply List.ext_getElem?
  intro i
  by_cases hfree : ∀ word ∈ words, offset + i ≠ word.position ∧ offset + i ≠ word.position + 1
  · exact h.kept i hfree
  · obtain ⟨word, hm, hat⟩ : ∃ word ∈ words,
        offset + i = word.position ∨ offset + i = word.position + 1 := by
      by_contra hnone
      exact hfree fun word hm => ⟨fun h => hnone ⟨word, hm, .inl h⟩, fun h => hnone ⟨word, hm, .inr h⟩⟩
    obtain ⟨bits, himage, hflags, hwritten⟩ := h.masked word hm
    have hinside := h.inside word hm
    rw [hflags, known word hm bits himage] at hwritten
    obtain ⟨j, hj, hi⟩ : ∃ j < 2, i = word.position - offset + j := by
      rcases hat with hat | hat
      · exact ⟨0, by omega, by omega⟩
      · exact ⟨1, by omega, by omega⟩
    rw [hi, himage.getElem? j hj, hwritten.getElem? j hj]

end Masked

theorem Flags.consumes_read (kind : FlagKind) : Consumes (Flags.read kind) fun flags taken =>
    ∀ offset, Masked [⟨offset, kind, flags⟩] offset taken flags.bytes :=
  Reader.restores_u16.map fun bits offset => .word offset kind bits

namespace Member

variable {kind : FlagKind}

/-- The flags of members that are written one behind the other. -/
def flagWords : (offset : Nat) → List (Member kind) → List FlagWord
  | _, [] => []
  | offset, declared :: rest => ⟨offset, kind, declared.flags⟩ :: flagWords (offset + declared.bytes.length) rest

theorem consumes_read : Consumes (Member.read kind) fun declared taken =>
    ∀ offset, Masked [⟨offset, kind, declared.flags⟩] offset taken declared.bytes := by
  refine (Flags.consumes_read kind).bind fun flags word hword => ?_
  refine PoolIndex.restores_read.bind fun name => PoolIndex.restores_read.bind fun descriptor =>
    (Reader.restores_list Attribute.restores_read).map fun attributes offset => ?_
  unfold bytes
  simp only [← List.append_assoc]
  exact ((hword offset).append (.refl _ _)).append (.refl _ _) |>.append (.refl _ _)

/-- The flags of each member are the only ones that change. -/
theorem masked_flatten {declared : List (Member kind)} {parts : List Bytes}
    (h : List.Forall₂ (fun declared part =>
      ∀ offset, Masked [⟨offset, kind, declared.flags⟩] offset part declared.bytes) declared parts) (offset : Nat) :
    Masked (flagWords offset declared) offset parts.flatten (declared.flatMap bytes) := by
  induction h generalizing offset with
  | nil => exact .refl offset []
  | cons first _ ih => exact (first offset).append (ih _)

theorem consumes_list : Consumes (Reader.list (Member.read kind)) fun declared taken =>
    ∀ offset, Masked (flagWords (offset + 2) declared) offset taken (Bytes.list bytes declared) := by
  refine (Reader.consumes_list consumes_read).imp ?_
  rintro declared taken ⟨parts, hparts, rfl⟩ offset
  exact (Masked.refl offset _).append (Bytes.length_u16 _ ▸ masked_flatten hparts _)

end Member

namespace ClassFile

/-- All flags of a class that is written, those of the class first. -/
def flagWords (file : ClassFile) : List FlagWord :=
  let flags := 8 + file.pool.bytes.length
  let fields := flags + 6 + (Bytes.list PoolIndex.bytes file.interfaces).length
  let methods := fields + (Bytes.list Member.bytes file.fields).length
  ⟨flags, .ofClass, file.flags⟩ :: Member.flagWords (fields + 2) file.fields ++
    Member.flagWords (methods + 2) file.methods

/-- Behind the magic number a class is written as it was read, but for the flags. -/
theorem consumes_read : Consumes ClassFile.read fun file taken =>
    Masked file.flagWords 0 (Bytes.u32 magic ++ taken) file.bytes := by
  refine Version.restores_read.bind fun version => ConstantPool.restores_read.bind fun pool =>
    (Flags.consumes_read .ofClass).bind fun flags classWord hclass =>
    PoolIndex.restores_read.bind fun thisClass => PoolIndex.restores_read?.bind fun superClass =>
    (Reader.restores_list PoolIndex.restores_read).bind fun interfaces =>
    Member.consumes_list.bind fun fields fieldBytes hfields =>
    Member.consumes_list.bind fun methods methodBytes hmethods =>
    (Reader.restores_list Attribute.restores_read).map fun attributes => ?_
  let front := Bytes.u32 magic ++ version.bytes ++ pool.bytes
  let middle := thisClass.bytes ++ PoolIndex.bytes? superClass ++ Bytes.list PoolIndex.bytes interfaces
  have hfront : front.length = 8 + pool.bytes.length := by
    simp only [front, Version.bytes, List.length_append, Bytes.length_u16, Bytes.length_u32]
  have hmiddle : middle.length = 4 + (Bytes.list PoolIndex.bytes interfaces).length := by
    simp only [middle, List.length_append, PoolIndex.length_bytes, PoolIndex.length_bytes?]
  have hmembers : (front ++ flags.bytes ++ middle).length =
      8 + pool.bytes.length + 6 + (Bytes.list PoolIndex.bytes interfaces).length := by
    rw [List.length_append, List.length_append, Flags.length_bytes, hfront, hmiddle]
    omega
  have written := (((((Masked.refl 0 front).append (hclass _)).append (.refl _ middle)).append
    (hfields _)).append (hmethods _)).append (.refl _ (Bytes.list Attribute.bytes attributes))
  rw [@List.length_append _ (front ++ flags.bytes ++ middle), hmembers, hfront] at written
  simp only [front, middle, Nat.zero_add, List.nil_append, List.append_nil, List.append_assoc] at written
  unfold flagWords bytes
  simpa only [List.cons_append, List.nil_append, List.append_assoc] using written

theorem masked_of_parse {image : Bytes} {file : ClassFile} (h : ClassFile.parse image = .ok file) :
    Masked file.flagWords 0 image file.bytes := by
  obtain ⟨rest, hmagic, hread⟩ := parse_eq_ok.1 h
  obtain ⟨_, rfl, rfl⟩ := Reader.restores_u32 image magic rest hmagic
  obtain ⟨taken, rfl, written⟩ := consumes_read rest file [] hread
  rw [List.append_nil]
  exact written

/-- A class that was parsed is written with the length of its image, and differs from it in the words of
its flags only. There it has the bits with a meaning. -/
theorem bytes_of_parse {image : Bytes} {file : ClassFile} (h : ClassFile.parse image = .ok file) :
    file.bytes.length = image.length ∧
      (∀ i, (∀ word ∈ file.flagWords, i ≠ word.position ∧ i ≠ word.position + 1) →
        file.bytes[i]? = image[i]?) ∧
      (∀ word ∈ file.flagWords, ∃ bits, image.HasWord word.position bits ∧
        word.flags.bits = bits &&& word.kind.mask ∧ file.bytes.HasWord word.position word.flags.bits) ∧
      ((∀ word ∈ file.flagWords, ∀ bits, image.HasWord word.position bits →
        bits &&& word.kind.mask = bits) → file.bytes = image) := by
  have written := masked_of_parse h
  refine ⟨written.length, fun i hi => written.kept i fun word hm => ?_, written.masked,
    written.eq_of_known⟩
  rw [Nat.zero_add]
  exact hi word hm

/-- A class with a field, and with flags that have all bits. -/
def flagged : Bytes :=
  [0xCA, 0xFE, 0xBA, 0xBE, 0, 0, 0, 52, 0, 3, 1, 0, 1, 65, 7, 0, 1, 0xFF, 0xFF, 0, 2, 0, 0, 0, 0,
    0, 1, 0xFF, 0xFF, 0, 1, 0, 1, 0, 0, 0, 0, 0, 0]

theorem bytes_of_parse_flagged : ∃ file, ClassFile.parse flagged = .ok file ∧
    file.bytes.length = flagged.length ∧
      (∀ i, (∀ word ∈ file.flagWords, i ≠ word.position ∧ i ≠ word.position + 1) →
        file.bytes[i]? = flagged[i]?) ∧
      (∀ word ∈ file.flagWords, ∃ bits, flagged.HasWord word.position bits ∧
        word.flags.bits = bits &&& word.kind.mask ∧ file.bytes.HasWord word.position word.flags.bits) ∧
      ((∀ word ∈ file.flagWords, ∀ bits, flagged.HasWord word.position bits →
        bits &&& word.kind.mask = bits) → file.bytes = flagged) := by
  have parsed : (ClassFile.parse flagged).toOption.isSome = true := by decide +kernel
  cases h : ClassFile.parse flagged with
  | ok file => exact ⟨file, rfl, bytes_of_parse h⟩
  | error problem =>
    rw [h] at parsed
    cases parsed

end ClassFile

end ClassWeave
