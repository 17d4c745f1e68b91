import ClassWeave.Format.ModifiedUtf8

/-!
Modified UTF-8 loses nothing: the bytes of a text are read back as the text, and a text that was read
has the bytes it was read from.
-/

namespace ClassWeave.ModifiedUtf8

theorem toNat_byte {n : Nat} (h : n < 256) : (UInt8.ofNat n).toNat = n := by
  rw [UInt8.toNat_ofNat']
  exact Nat.mod_eq_of_lt h

theorem continuationBits?_byte (n : Nat) :
    continuationBits? (UInt8.ofNat (0x80 + n % 0x40)) = some (n % 0x40) := by
  have hlt : n % 0x40 < 0x40 := Nat.mod_lt n (by decide)
  unfold continuationBits?
  rw [toNat_byte (by omega), if_pos (by omega), Nat.add_sub_cancel_left]

/-- Each unit is read from its own bytes. -/
theorem unitsOnto_unitBytes {unit : Nat} (h : unit < 0x10000) (rest : Bytes) (units : List Nat) :
    unitsOnto (unitBytes unit ++ rest) units = unitsOnto rest (unit :: units) := by
  unfold unitBytes
  dsimp only
  by_cases h₁ : 0 < unit ∧ unit < 0x80
  · rw [if_pos h₁, List.singleton_append, unitsOnto.eq_def]
    dsimp only
    rw [toNat_byte (by omega), if_pos h₁]
  · rw [if_neg h₁]
    by_cases h₂ : unit < 0x800
    · rw [if_pos h₂]
      have hlead : (UInt8.ofNat (0xC0 + unit / 0x40)).toNat = 0xC0 + unit / 0x40 :=
        toNat_byte (by omega)
      have hunit : (0xC0 + unit / 0x40 - 0xC0) * 0x40 + unit % 0x40 = unit := by omega
      rw [List.cons_append, List.singleton_append, unitsOnto.eq_def]
      dsimp only
      rw [hlead, if_neg (by omega), if_pos (by omega)]
      simp only [continuationBits?_byte, hunit]
      rw [if_neg (by omega)]
    · rw [if_neg h₂]
      have hlead : (UInt8.ofNat (0xE0 + unit / 0x1000)).toNat = 0xE0 + unit / 0x1000 :=
        toNat_byte (by omega)
      have hunit : (0xE0 + unit / 0x1000 - 0xE0) * 0x1000 + unit / 0x40 % 0x40 * 0x40
          + unit % 0x40 = unit := by omega
      rw [List.cons_append, List.cons_append, List.singleton_append, unitsOnto.eq_def]
      dsimp only
      rw [hlead, if_neg (by omega), if_neg (by omega), if_pos (by omega)]
      simp only [continuationBits?_byte, hunit]
      rw [if_neg (by omega)]

theorem units?_flatMap {units : List Nat} (h : ∀ unit ∈ units, unit < 0x10000) :
    units? (units.flatMap unitBytes) = some units := by
  have onto : ∀ (units found : List Nat), (∀ unit ∈ units, unit < 0x10000) →
      unitsOnto (units.flatMap unitBytes) found = some (units.reverse ++ found) := by
    intro units
    induction units with
    | nil => intro found _; rfl
    | cons unit rest ih =>
      intro found h
      rw [List.flatMap_cons, unitsOnto_unitBytes (h unit List.mem_cons_self),
        ih _ fun u hu => h u (List.mem_cons_of_mem _ hu)]
      simp
  unfold units?
  rw [onto units [] h]
  simp

theorem toNat_valid (c : Char) : (c.toNat < 0xD800 ∨ 0xDFFF < c.toNat) ∧ c.toNat < 0x110000 := by
  rcases c.valid with h | h
  · exact ⟨.inl h, Nat.lt_trans h (by decide)⟩
  · exact ⟨.inr h.1, h.2⟩

theorem unitsOf_lt {c : Char} : ∀ unit ∈ unitsOf c, unit < 0x10000 := by
  have hmax := (toNat_valid c).2
  intro unit hm
  unfold unitsOf at hm
  dsimp only at hm
  split at hm
  · rw [List.mem_singleton] at hm
    omega
  · rcases List.mem_cons.1 hm with rfl | hm
    · omega
    · rw [List.mem_singleton] at hm
      omega

/-- A character is read from its one or two units; no character is itself a surrogate. -/
theorem charsOnto_unitsOf (c : Char) (rest : List Nat) (chars : List Char) :
    charsOnto (unitsOf c ++ rest) chars = charsOnto rest (c :: chars) := by
  obtain ⟨hvalid, hmax⟩ := toNat_valid c
  unfold unitsOf
  dsimp only
  by_cases h : c.toNat < 0x10000
  · rw [if_pos h, List.singleton_append, charsOnto.eq_def (c.toNat :: rest)]
    dsimp only
    rw [if_pos (by omega), Char.ofNat_toNat]
  · rw [if_neg h, List.cons_append, List.singleton_append]
    have hpair : 0x10000 + (0xD800 + (c.toNat - 0x10000) / 0x400 - 0xD800) * 0x400
        + (0xDC00 + (c.toNat - 0x10000) % 0x400 - 0xDC00) = c.toNat := by omega
    rw [charsOnto.eq_def (_ :: _ :: rest)]
    dsimp only
    rw [if_neg (by omega), if_pos (by omega), if_pos (by omega), hpair, Char.ofNat_toNat]

theorem decode_encode (text : List Char) : decode (encode text) = some text := by
  have onto : ∀ (text found : List Char),
      charsOnto (text.flatMap unitsOf) found = some (text.reverse ++ found) := by
    intro text
    induction text with
    | nil => intro found; unfold charsOnto; rfl
    | cons c rest ih =>
      intro found
      rw [List.flatMap_cons, charsOnto_unitsOf, ih]
      simp
  have hunits : units? (encode text) = some (text.flatMap unitsOf) := by
    have hbytes : encode text = (text.flatMap unitsOf).flatMap unitBytes := by
      rw [List.flatMap_assoc]
      rfl
    rw [hbytes]
    refine units?_flatMap fun unit hm => ?_
    obtain ⟨c, -, hc⟩ := List.mem_flatMap.1 hm
    exact unitsOf_lt unit hc
  unfold decode
  rw [hunits]
  simp [onto]

theorem toNat_continuation {b : UInt8} {low : Nat} (h : continuationBits? b = some low) :
    low < 0x40 ∧ b.toNat = 0x80 + low := by
  unfold continuationBits? at h
  split at h
  · have hlow := Option.some.inj h
    omega
  · cases h

theorem byte_eq {b : UInt8} {n : Nat} (h : b.toNat = n) : UInt8.ofNat n = b := by
  rw [← h, UInt8.ofNat_toNat]

theorem unitBytes_one {lead : UInt8} (h : 0 < lead.toNat ∧ lead.toNat < 0x80) :
    unitBytes lead.toNat = [lead] := by
  unfold unitBytes
  dsimp only
  rw [if_pos h, UInt8.ofNat_toNat]

theorem unitBytes_two {lead b₁ : UInt8} {low : Nat} (h : 0xC0 ≤ lead.toNat ∧ lead.toNat < 0xE0)
    (h₁ : continuationBits? b₁ = some low)
    (hlong : ¬((lead.toNat - 0xC0) * 0x40 + low ≠ 0 ∧ (lead.toNat - 0xC0) * 0x40 + low < 0x80)) :
    unitBytes ((lead.toNat - 0xC0) * 0x40 + low) = [lead, b₁] := by
  obtain ⟨hlow, hb₁⟩ := toNat_continuation h₁
  unfold unitBytes
  dsimp only
  rw [if_neg (by omega), if_pos (by omega), byte_eq (b := lead) (by omega),
    byte_eq (b := b₁) (by omega)]

theorem unitBytes_three {lead b₁ b₂ : UInt8} {middle low : Nat}
    (h : 0xE0 ≤ lead.toNat ∧ lead.toNat < 0xF0) (h₁ : continuationBits? b₁ = some middle)
    (h₂ : continuationBits? b₂ = some low)
    (hlong : ¬(lead.toNat - 0xE0) * 0x1000 + middle * 0x40 + low < 0x800) :
    unitBytes ((lead.toNat - 0xE0) * 0x1000 + middle * 0x40 + low) = [lead, b₁, b₂] := by
  obtain ⟨hmiddle, hb₁⟩ := toNat_continuation h₁
  obtain ⟨hlow, hb₂⟩ := toNat_continuation h₂
  unfold unitBytes
  dsimp only
  rw [if_neg (by omega), if_neg (by omega), byte_eq (b := lead) (by omega),
    byte_eq (b := b₁) (by omega), byte_eq (b := b₂) (by omega)]

/-- The units of bytes have these bytes again, and fit two bytes each. -/
theorem flatMap_unitsOnto {bytes : Bytes} {units found : List Nat}
    (h : unitsOnto bytes units = some found) (hunits : ∀ unit ∈ units, unit < 0x10000) :
    found.reverse.flatMap unitBytes = units.reverse.flatMap unitBytes ++ bytes ∧
      ∀ unit ∈ found, unit < 0x10000 := by
  fun_induction unitsOnto bytes units with
  | case1 units =>
    cases h
    exact ⟨(List.append_nil _).symm, hunits⟩
  | case2 lead units rest _ hlead ih =>
    obtain ⟨hbytes, hall⟩ := ih h (List.forall_mem_cons.2 ⟨by omega, hunits⟩)
    refine ⟨?_, hall⟩
    rw [hbytes, List.reverse_cons, List.flatMap_append, List.flatMap_singleton,
      unitBytes_one hlead, List.append_assoc, List.singleton_append]
  | case4 lead units _ _ hlead b₁ rest low hlow _ hlong ih =>
    have hbound := (toNat_continuation hlow).1
    obtain ⟨hbytes, hall⟩ := ih h (List.forall_mem_cons.2 ⟨by omega, hunits⟩)
    refine ⟨?_, hall⟩
    rw [hbytes, List.reverse_cons, List.flatMap_append, List.flatMap_singleton,
      unitBytes_two hlead hlow hlong, List.append_assoc]
    rfl
  | case8 lead units _ _ _ hlead b₁ b₂ rest middle low hlow hmiddle _ hlong ih =>
    have hbound := (toNat_continuation hlow).1
    have hbound' := (toNat_continuation hmiddle).1
    obtain ⟨hbytes, hall⟩ := ih h (List.forall_mem_cons.2 ⟨by omega, hunits⟩)
    refine ⟨?_, hall⟩
    rw [hbytes, List.reverse_cons, List.flatMap_append, List.flatMap_singleton,
      unitBytes_three hlead hmiddle hlow hlong, List.append_assoc]
    rfl
  | _ => cases h

theorem toNat_char {n : Nat} (h : n < 0xD800 ∨ 0xE000 ≤ n) (hmax : n < 0x110000) :
    (Char.ofNat n).toNat = n := by
  have hvalid : n.isValidChar := by
    rcases h with h | h
    · exact .inl h
    · exact .inr ⟨by omega, hmax⟩
  unfold Char.ofNat
  rw [dif_pos hvalid]
  rfl

theorem unitsOf_ofNat {n : Nat} (h : n < 0xD800 ∨ 0xE000 ≤ n) (hmax : n < 0x10000) : unitsOf (Char.ofNat n) = [n] := by
  unfold unitsOf
  rw [toNat_char h (by omega)]
  exact if_pos hmax

theorem unitsOf_pair {high low : Nat} (h : 0xD800 ≤ high ∧ high < 0xDC00) (h' : 0xDC00 ≤ low ∧ low < 0xE000) :
    unitsOf (Char.ofNat (0x10000 + (high - 0xD800) * 0x400 + (low - 0xDC00))) = [high, low] := by
  unfold unitsOf
  rw [toNat_char (by omega) (by omega)]
  dsimp only
  rw [if_neg (by omega)]
  have hfirst : 0xD800 + (0x10000 + (high - 0xD800) * 0x400 + (low - 0xDC00) - 0x10000) / 0x400 = high := by omega
  have hsecond : 0xDC00 + (0x10000 + (high - 0xD800) * 0x400 + (low - 0xDC00) - 0x10000) % 0x400 = low := by omega
  rw [hfirst, hsecond]

theorem flatMap_charsOnto {units : List Nat} {chars found : List Char}
    (h : charsOnto units chars = some found) (hunits : ∀ unit ∈ units, unit < 0x10000) :
    found.reverse.flatMap unitsOf = chars.reverse.flatMap unitsOf ++ units := by
  fun_induction charsOnto units chars with
  | case1 chars =>
    cases h
    exact (List.append_nil _).symm
  | case2 unit rest chars hunit ih =>
    have hlt := hunits unit List.mem_cons_self
    rw [ih h fun u hu => hunits u (List.mem_cons_of_mem _ hu), List.reverse_cons,
      List.flatMap_append, List.flatMap_singleton, unitsOf_ofNat hunit hlt, List.append_assoc, List.singleton_append]
  | case3 unit chars _ hhigh low rest hlow ih =>
    rw [ih h fun u hu => hunits u (List.mem_cons_of_mem _ (List.mem_cons_of_mem _ hu)),
      List.reverse_cons, List.flatMap_append, List.flatMap_singleton, unitsOf_pair ⟨by omega, hhigh⟩ hlow,
      List.append_assoc]
    rfl
  | _ => cases h

theorem encode_decode {bytes : Bytes} {text : List Char} (h : decode bytes = some text) :
    encode text = bytes := by
  obtain ⟨units, hunits, h⟩ := Option.bind_eq_some_iff.1 h
  obtain ⟨found, hfound, rfl⟩ := Option.map_eq_some_iff.1 hunits
  obtain ⟨chars, hchars, h⟩ := Option.bind_eq_some_iff.1 h
  obtain rfl : chars.reverse = text := Option.some.inj h
  obtain ⟨hbytes, hall⟩ := flatMap_unitsOnto hfound (by simp)
  have htext := flatMap_charsOnto hchars fun unit hu => hall unit (List.mem_reverse.1 hu)
  have hencode : encode chars.reverse = (chars.reverse.flatMap unitsOf).flatMap unitBytes := by
    rw [List.flatMap_assoc]
    rfl
  rw [hencode, htext]
  exact hbytes

end ClassWeave.ModifiedUtf8
