import ClassWeave.Pool.Constant
import ClassWeave.Proofs.Format.ModifiedUtf8
import Mathlib.Algebra.GroupWithZero.Nat

/-!
The forms of characters in modified UTF-8. Bytes are a text exactly if they are forms in a row, and the text is then
the only one; bytes that are none go wrong behind some of the forms, in one of the ways of `Fault`.
-/

namespace ClassWeave.ModifiedUtf8

section Character

/-- Bytes of a character, cut out of its code point. -/
def charBytes (c : Char) : Bytes :=
  let code := c.val
  let continuation (n : UInt32) : UInt8 := (n &&& 0x3F).toUInt8 ||| 0x80
  if code ≠ 0 ∧ code < 0x80 then [code.toUInt8]
  else if code < 0x800 then [(code >>> 6 &&& 0x1F).toUInt8 ||| 0xC0, continuation code]
  else if code < 0x10000 then
    [(code >>> 12 &&& 0x0F).toUInt8 ||| 0xE0, continuation (code >>> 6), continuation code]
  else
    [0xED, ((code >>> 16 &&& 0x0F).toUInt8 - 1) &&& 0x0F ||| 0xA0, continuation (code >>> 10),
      0xED, (code >>> 6 &&& 0x1F).toUInt8 ||| 0xB0, continuation code]

/-- The lowest bits of a number, put into a byte by an operation that is known for each of their values. -/
theorem byte_of_bits (n mask : UInt32) (width : Nat) (hmask : mask.toNat = 2 ^ width - 1) (put : UInt8 → UInt8)
    (value : Nat → Nat) (h : ∀ bits < 2 ^ width, put (UInt8.ofNat bits) = UInt8.ofNat (value bits)) :
    put (n &&& mask).toUInt8 = UInt8.ofNat (value (n.toNat % 2 ^ width)) := by
  have hbits : (n &&& mask).toUInt8 = UInt8.ofNat (n.toNat % 2 ^ width) := by
    apply UInt8.toNat_inj.1
    rw [UInt32.toNat_toUInt8, UInt32.toNat_and, hmask, Nat.and_two_pow_sub_one_eq_mod, UInt8.toNat_ofNat']
  rw [hbits]
  exact h _ (Nat.mod_lt _ (Nat.two_pow_pos width))

theorem continuation_eq (n : UInt32) : (n &&& 0x3F).toUInt8 ||| 0x80 = UInt8.ofNat (0x80 + n.toNat % 0x40) :=
  byte_of_bits n 0x3F 6 rfl (· ||| 0x80) (0x80 + ·) (by decide)

theorem unitBytes_short {unit : Nat} (h : ¬(0 < unit ∧ unit < 0x80)) (hlt : unit < 0x800) : unitBytes unit =
    [UInt8.ofNat (0xC0 + unit / 0x40), UInt8.ofNat (0x80 + unit % 0x40)] := by
  unfold unitBytes
  dsimp only
  rw [if_neg h, if_pos hlt]

theorem unitBytes_long {unit : Nat} (h : 0x800 ≤ unit) : unitBytes unit = [UInt8.ofNat (0xE0 + unit / 0x1000),
    UInt8.ofNat (0x80 + unit / 0x40 % 0x40), UInt8.ofNat (0x80 + unit % 0x40)] := by
  unfold unitBytes
  dsimp only
  rw [if_neg (by omega), if_neg (by omega)]

/-- The bytes of the code point are those of its UTF-16 units. -/
theorem charBytes_eq (c : Char) : charBytes c = (unitsOf c).flatMap unitBytes := by
  have hmax := (toNat_valid c).2
  generalize hn : c.toNat = n at hmax
  have hcode : c.val.toNat = n := hn
  have hshift (places : UInt32) (h : places.toNat < 32) : (c.val >>> places).toNat = n / 2 ^ places.toNat := by
    rw [UInt32.toNat_shiftRight, Nat.mod_eq_of_lt h, Nat.shiftRight_eq_div_pow, hcode]
  have hsix : (c.val >>> 6).toNat = n / 0x40 := hshift 6 (by decide)
  have hten : (c.val >>> 10).toNat = n / 0x400 := hshift 10 (by decide)
  have htwelve : (c.val >>> 12).toNat = n / 0x1000 := hshift 12 (by decide)
  have hsixteen : (c.val >>> 16).toNat = n / 0x10000 := hshift 16 (by decide)
  have hzero : c.val ≠ 0 ↔ 0 < n := by
    rw [ne_eq, ← UInt32.toNat_inj, hcode]
    exact Nat.pos_iff_ne_zero.symm
  have hlt (bound : UInt32) : c.val < bound ↔ n < bound.toNat := by rw [UInt32.lt_iff_toNat_lt, hcode]
  have hlt₁ : c.val < 0x80 ↔ n < 0x80 := hlt _
  have hlt₂ : c.val < 0x800 ↔ n < 0x800 := hlt _
  have hlt₃ : c.val < 0x10000 ↔ n < 0x10000 := hlt _
  unfold charBytes unitsOf
  simp only [continuation_eq, hn, hzero, hlt₁, hlt₂, hlt₃]
  by_cases hone : 0 < n ∧ n < 0x80
  · have hunit : unitBytes n = [UInt8.ofNat n] := if_pos hone
    have hbyte : c.val.toUInt8 = UInt8.ofNat n := by
      apply UInt8.toNat_inj.1
      rw [UInt32.toNat_toUInt8, hcode, UInt8.toNat_ofNat']
    rw [if_pos hone, if_pos (by omega), List.flatMap_singleton, hunit, hbyte]
  rw [if_neg hone]
  by_cases htwo : n < 0x800
  · have hlead := byte_of_bits (c.val >>> 6) 0x1F 5 rfl (· ||| 0xC0) (0xC0 + ·) (by decide)
    rw [if_pos htwo, if_pos (by omega), List.flatMap_singleton, unitBytes_short hone htwo, hlead, hsix, hcode,
      Nat.mod_eq_of_lt (by omega : n / 0x40 < 2 ^ 5)]
  rw [if_neg htwo]
  by_cases hthree : n < 0x10000
  · have hlead := byte_of_bits (c.val >>> 12) 0x0F 4 rfl (· ||| 0xE0) (0xE0 + ·) (by decide)
    rw [if_pos hthree, if_pos hthree, List.flatMap_singleton, unitBytes_long (by omega), hlead, htwelve, hsix, hcode,
      Nat.mod_eq_of_lt (by omega : n / 0x1000 < 2 ^ 4)]
  -- The surrogates hold the code point less 0x10000, which takes one off its upper five bits.
  have hhigh := byte_of_bits (c.val >>> 16) 0x0F 4 rfl (fun b => (b - 1) &&& 0x0F ||| 0xA0)
    (fun bits => 0xA0 + (bits + 15) % 16) (by decide)
  have hlow := byte_of_bits (c.val >>> 6) 0x1F 5 rfl (· ||| 0xB0) (fun bits => 0xB0 + bits % 16) (by decide)
  have hlead : (0xED : UInt8) = UInt8.ofNat 0xED := rfl
  rw [if_neg hthree, if_neg hthree, List.flatMap_cons, List.flatMap_singleton, unitBytes_long (by omega),
    unitBytes_long (by omega), hhigh, hlow, hsixteen, hten, hsix, hcode, hlead]
  simp only [List.cons_append, List.nil_append, List.cons.injEq, and_true]
  refine ⟨?_, ?_, ?_, ?_, ?_, ?_⟩ <;> exact congrArg UInt8.ofNat (by omega)

theorem encode_eq (text : List Char) : encode text = text.flatMap charBytes := by
  unfold encode
  congr 1
  funext c
  exact (charBytes_eq c).symm

end Character

/-- A byte that continues a character. -/
def Continues (b : UInt8) : Prop := 0x80 ≤ b.toNat ∧ b.toNat < 0xC0

/-- The bytes of one character: below 0x80 but not zero; zero; below 0x800; below 0x10000 and no surrogate; a pair of
surrogates. -/
inductive Form : Bytes → Prop where
  | one {a : UInt8} (pos : 0 < a.toNat) (small : a.toNat < 0x80) : Form [a]
  | zero {a b : UInt8} (lead : a.toNat = 0xC0) (hb : b.toNat = 0x80) : Form [a, b]
  | two {a b : UInt8} (lead : 0xC2 ≤ a.toNat ∧ a.toNat < 0xE0) (hb : Continues b) : Form [a, b]
  | three {a b c : UInt8} (lead : 0xE0 ≤ a.toNat ∧ a.toNat < 0xF0) (hb : Continues b) (hc : Continues c)
    (large : a.toNat = 0xE0 → 0xA0 ≤ b.toNat) (whole : a.toNat = 0xED → b.toNat < 0xA0) : Form [a, b, c]
  | pair {a b c d e f : UInt8} (lead : a.toNat = 0xED) (high : 0xA0 ≤ b.toNat ∧ b.toNat < 0xB0) (hc : Continues c)
    (lead' : d.toNat = 0xED) (low : 0xB0 ≤ e.toNat ∧ e.toNat < 0xC0) (hf : Continues f) : Form [a, b, c, d, e, f]

/-- The bytes start with the second half of a pair. -/
def StartsLow (bytes : Bytes) : Prop :=
  ∃ d e f rest, bytes = d :: e :: f :: rest ∧ d.toNat = 0xED ∧ (0xB0 ≤ e.toNat ∧ e.toNat < 0xC0) ∧ Continues f

/-- Ways for bytes not to start with a character: a zero byte, a byte that continues none, a form of four bytes or more,
a form that is cut off, a form longer than it need be, half a pair. -/
inductive Fault : Bytes → Prop where
  | zero {a : UInt8} (rest : Bytes) (ha : a.toNat = 0) : Fault (a :: rest)
  | stray {a : UInt8} (rest : Bytes) (ha : Continues a) : Fault (a :: rest)
  | fourBytes {a : UInt8} (rest : Bytes) (lead : 0xF0 ≤ a.toNat) : Fault (a :: rest)
  | cutTwo {a : UInt8} {rest : Bytes} (lead : 0xC0 ≤ a.toNat ∧ a.toNat < 0xE0)
    (cut : ∀ b behind, rest = b :: behind → ¬Continues b) : Fault (a :: rest)
  | cutThree {a : UInt8} {rest : Bytes} (lead : 0xE0 ≤ a.toNat ∧ a.toNat < 0xF0)
    (cut : ∀ b c behind, rest = b :: c :: behind → ¬(Continues b ∧ Continues c)) : Fault (a :: rest)
  | overlongTwo {a b : UInt8} (rest : Bytes) (lead : 0xC0 ≤ a.toNat ∧ a.toNat < 0xC2) (hb : Continues b)
    (notZero : ¬(a.toNat = 0xC0 ∧ b.toNat = 0x80)) : Fault (a :: b :: rest)
  | overlongThree {a b c : UInt8} (rest : Bytes) (lead : a.toNat = 0xE0) (hb : Continues b) (hc : Continues c)
    (small : b.toNat < 0xA0) : Fault (a :: b :: c :: rest)
  | loneLow {bytes : Bytes} (low : StartsLow bytes) : Fault bytes
  | loneHigh {a b c : UInt8} {rest : Bytes} (lead : a.toNat = 0xED) (high : 0xA0 ≤ b.toNat ∧ b.toNat < 0xB0)
    (hc : Continues c) (alone : ¬StartsLow rest) : Fault (a :: b :: c :: rest)

variable {bytes front rest other behind : Bytes} {c : Char} {text : List Char}

theorem continues_byte (n : Nat) : Continues (UInt8.ofNat (0x80 + n % 0x40)) := by
  have hlt : n % 0x40 < 0x40 := Nat.mod_lt n (by decide)
  unfold Continues
  rw [toNat_byte (by omega)]
  omega

/-- The bytes of a character are a form. -/
theorem form_charBytes (c : Char) : Form (charBytes c) := by
  obtain ⟨hvalid, hmax⟩ := toNat_valid c
  rw [charBytes_eq]
  unfold unitsOf
  dsimp only
  generalize c.toNat = n at hvalid hmax
  by_cases hpair : n < 0x10000
  · rw [if_pos hpair, List.flatMap_singleton]
    by_cases hone : 0 < n ∧ n < 0x80
    · have hunit : unitBytes n = [UInt8.ofNat n] := if_pos hone
      rw [hunit]
      refine .one ?_ ?_ <;> rw [toNat_byte (by omega)]
      · exact hone.1
      · exact hone.2
    by_cases htwo : n < 0x800
    · by_cases hzero : n = 0
      · subst hzero
        exact Form.zero (a := 0xC0) (b := 0x80) rfl rfl
      · rw [unitBytes_short hone htwo]
        refine .two ?_ (continues_byte n)
        rw [toNat_byte (by omega)]
        omega
    · rw [unitBytes_long (by omega)]
      have hlead : (UInt8.ofNat (0xE0 + n / 0x1000)).toNat = 0xE0 + n / 0x1000 := toNat_byte (by omega)
      have hnext : (UInt8.ofNat (0x80 + n / 0x40 % 0x40)).toNat = 0x80 + n / 0x40 % 0x40 := toNat_byte (by omega)
      refine .three ?_ (continues_byte _) (continues_byte _) ?_ ?_ <;> rw [hlead]
      · omega
      · rw [hnext]
        omega
      · rw [hnext]
        omega
  · rw [if_neg hpair, List.flatMap_cons, List.flatMap_singleton, unitBytes_long (by omega), unitBytes_long (by omega)]
    refine .pair ?_ ?_ (continues_byte _) ?_ ?_ (continues_byte _) <;> rw [toNat_byte (by omega)] <;> omega

theorem charBytes_ofNat {n : Nat} (h : n < 0xD800 ∨ 0xE000 ≤ n) (hmax : n < 0x10000) :
    charBytes (Char.ofNat n) = unitBytes n := by
  rw [charBytes_eq, unitsOf_ofNat h hmax, List.flatMap_singleton]

theorem Continues.bits {b : UInt8} (h : Continues b) : continuationBits? b = some (b.toNat - 0x80) := if_pos h

/-- The bytes of a surrogate. -/
theorem unitBytes_surrogate {a b c : UInt8} (lead : a.toNat = 0xED) (h : 0xA0 ≤ b.toNat ∧ b.toNat < 0xC0)
    (hc : Continues c) : unitBytes (0xD000 + (b.toNat - 0x80) * 0x40 + (c.toNat - 0x80)) = [a, b, c] := by
  have hb : Continues b := ⟨by omega, h.2⟩
  have hlead : 0xE0 ≤ a.toNat ∧ a.toNat < 0xF0 := by omega
  have hunit := unitBytes_three hlead hb.bits hc.bits (by omega)
  rwa [lead] at hunit

/-- Every form is that of a character. -/
theorem Form.exists_char (h : Form bytes) : ∃ c, charBytes c = bytes := by
  cases h with
  | @one a pos small =>
    refine ⟨Char.ofNat a.toNat, ?_⟩
    rw [charBytes_ofNat (by omega) (by omega), unitBytes_one ⟨pos, small⟩]
  | @zero a b lead hb =>
    obtain rfl : a = 0xC0 := UInt8.toNat_inj.1 lead
    obtain rfl : b = 0x80 := UInt8.toNat_inj.1 hb
    exact ⟨Char.ofNat 0, by decide⟩
  | @two a b lead hb =>
    have hbits := hb.bits
    unfold Continues at hb
    refine ⟨Char.ofNat ((a.toNat - 0xC0) * 0x40 + (b.toNat - 0x80)), ?_⟩
    rw [charBytes_ofNat (by omega) (by omega), unitBytes_two (by omega) hbits (by omega)]
  | @three a b c lead hb hc large whole =>
    have hbits := hb.bits
    have hbits' := hc.bits
    unfold Continues at hb hc
    refine ⟨Char.ofNat ((a.toNat - 0xE0) * 0x1000 + (b.toNat - 0x80) * 0x40 + (c.toNat - 0x80)), ?_⟩
    rw [charBytes_ofNat (by omega) (by omega), unitBytes_three lead hbits hbits' (by omega)]
  | @pair a b c d e f lead high hc lead' low hf =>
    have hhigh := unitBytes_surrogate lead ⟨high.1, by omega⟩ hc
    have hlow := unitBytes_surrogate lead' ⟨by omega, low.2⟩ hf
    unfold Continues at hc hf
    refine ⟨Char.ofNat (0x10000 + (0xD000 + (b.toNat - 0x80) * 0x40 + (c.toNat - 0x80) - 0xD800) * 0x400
      + (0xD000 + (e.toNat - 0x80) * 0x40 + (f.toNat - 0x80) - 0xDC00)), ?_⟩
    rw [charBytes_eq, unitsOf_pair (by omega) (by omega), List.flatMap_cons, List.flatMap_singleton, hhigh, hlow]
    rfl

/-- How long a form at the front of bytes is. -/
def formLength : Bytes → Nat
  | [] => 0
  | a :: rest =>
    if a.toNat < 0x80 then 1
    else if a.toNat < 0xE0 then 2
    else if a.toNat = 0xED ∧ 0xA0 ≤ (rest.headD 0).toNat then 6 else 3

theorem Form.length_eq (h : Form front) (rest : Bytes) : front.length = formLength (front ++ rest) := by
  cases h with
  | one pos small => exact (if_pos small).symm
  | zero lead hb => exact ((if_neg (by omega)).trans (if_pos (by omega))).symm
  | two lead hb => exact ((if_neg (by omega)).trans (if_pos (by omega))).symm
  | three lead hb hc large whole =>
    refine ((if_neg (by omega)).trans ((if_neg (by omega)).trans (if_neg ?_))).symm
    rintro ⟨hlead, hnext⟩
    exact absurd (whole hlead) (Nat.not_lt.2 hnext)
  | pair lead high hc lead' low hf =>
    exact ((if_neg (by omega)).trans ((if_neg (by omega)).trans (if_pos ⟨lead, high.1⟩))).symm

theorem Form.length_pos (h : Form front) : 0 < front.length := by
  cases h <;> exact Nat.succ_pos _

theorem Form.append_inj (h : Form front) (h' : Form other) (heq : front ++ rest = other ++ behind) :
    front = other ∧ rest = behind :=
  List.append_inj heq (by rw [h.length_eq rest, heq, ← h'.length_eq behind])

theorem Fault.ne_nil (h : Fault rest) : rest ≠ [] := by
  cases h with
  | loneLow low =>
    obtain ⟨d, e, f, behind, rfl, -⟩ := low
    exact List.cons_ne_nil _ _
  | _ => exact List.cons_ne_nil _ _

/-- No form stands where bytes go wrong. -/
theorem Fault.not_form (h : Fault bytes) (hform : Form front) : bytes ≠ front ++ rest := by
  intro heq
  cases h with
  | zero => cases hform <;> grind
  | stray behind ha => cases hform <;> grind [Continues]
  | fourBytes behind lead => cases hform <;> grind
  | cutTwo lead cut => cases hform <;> grind [Continues]
  | cutThree lead cut =>
    cases hform with
    | three _ hb hc => exact cut _ _ _ (List.cons.inj heq).2 ⟨hb, hc⟩
    | pair _ high hc => exact cut _ _ _ (List.cons.inj heq).2 ⟨⟨by omega, by omega⟩, hc⟩
    | _ => grind
  | overlongTwo behind lead hb notZero => cases hform <;> grind
  | overlongThree behind lead hb hc small => cases hform <;> grind
  | loneLow low =>
    obtain ⟨d, e, f, behind, rfl, hd, he, hf⟩ := low
    cases hform <;> grind
  | loneHigh lead high hc alone =>
    cases hform with
    | pair _ _ _ hd low hf =>
      exact alone ⟨_, _, _, _, (List.cons.inj (List.cons.inj (List.cons.inj heq).2).2).2, hd, low, hf⟩
    | _ => grind

/-- Bytes start with a form unless they go wrong. -/
theorem form_or_fault (hne : bytes ≠ []) : (∃ front rest, bytes = front ++ rest ∧ Form front) ∨ Fault bytes := by
  cases bytes with
  | nil => exact absurd rfl hne
  | cons a rest =>
    by_cases hzero : a.toNat = 0
    · exact .inr (.zero rest hzero)
    by_cases hone : a.toNat < 0x80
    · exact .inl ⟨[a], rest, rfl, .one (by omega) hone⟩
    by_cases hstray : a.toNat < 0xC0
    · exact .inr (.stray rest ⟨by omega, hstray⟩)
    by_cases htwo : a.toNat < 0xE0
    · by_cases hcut : ∃ b behind, rest = b :: behind ∧ Continues b
      · obtain ⟨b, behind, rfl, hb⟩ := hcut
        by_cases hlead : 0xC2 ≤ a.toNat
        · exact .inl ⟨[a, b], behind, rfl, .two ⟨hlead, htwo⟩ hb⟩
        by_cases hnul : a.toNat = 0xC0 ∧ b.toNat = 0x80
        · exact .inl ⟨[a, b], behind, rfl, .zero hnul.1 hnul.2⟩
        · exact .inr (.overlongTwo behind (by omega) hb hnul)
      · exact .inr (.cutTwo ⟨by omega, htwo⟩ fun b behind hrest hb => hcut ⟨b, behind, hrest, hb⟩)
    by_cases hthree : a.toNat < 0xF0
    · by_cases hcut : ∃ b c behind, rest = b :: c :: behind ∧ Continues b ∧ Continues c
      · obtain ⟨b, c, behind, rfl, hb, hc⟩ := hcut
        by_cases hsmall : a.toNat = 0xE0 ∧ b.toNat < 0xA0
        · exact .inr (.overlongThree behind hsmall.1 hb hc hsmall.2)
        by_cases hwhole : a.toNat = 0xED → b.toNat < 0xA0
        · exact .inl ⟨[a, b, c], behind, rfl, .three (by omega) hb hc (by omega) hwhole⟩
        obtain ⟨hlead, hb'⟩ := Classical.not_imp.1 hwhole
        by_cases hlow : b.toNat < 0xB0
        · by_cases hpair : StartsLow behind
          · obtain ⟨d, e, f, last, rfl, hd, he, hf⟩ := hpair
            exact .inl ⟨[a, b, c, d, e, f], last, rfl, .pair hlead (by omega) hc hd he hf⟩
          · exact .inr (.loneHigh hlead (by omega) hc hpair)
        · exact .inr (.loneLow ⟨a, b, c, behind, rfl, hlead, ⟨by omega, hb.2⟩, hc⟩)
      · exact .inr (.cutThree ⟨by omega, hthree⟩ fun b c behind hrest hbc => hcut ⟨b, c, behind, hrest, hbc⟩)
    · exact .inr (.fourBytes rest (by omega))

/-- Bytes are read as the text whose bytes they are. -/
theorem decode_eq_some_iff : decode bytes = some text ↔ encode text = bytes :=
  ⟨encode_decode, fun h => h ▸ decode_encode text⟩

theorem encode_cons (c : Char) (text : List Char) : encode (c :: text) = charBytes c ++ encode text := by
  rw [encode_eq, encode_eq, List.flatMap_cons]

theorem charBytes_inj {c d : Char} (h : charBytes c = charBytes d) : c = d := by
  have hc := decode_encode [c]
  rw [encode_cons, h, ← encode_cons, decode_encode] at hc
  exact (List.cons.inj (Option.some.inj hc)).1.symm

/-- A text whose bytes another text's bytes go on from goes on from that text. -/
theorem encode_eq_append {found : List Char} (h : encode found = encode text ++ rest) :
    ∃ more, found = text ++ more ∧ encode more = rest := by
  induction text generalizing found with
  | nil => exact ⟨found, rfl, h⟩
  | cons c text ih =>
    rw [encode_cons, List.append_assoc] at h
    cases found with
    | nil =>
      have hpos := (form_charBytes c).length_pos
      have hlength := congrArg List.length h
      simp only [encode_eq, List.flatMap_nil, List.length_nil, List.length_append] at hlength
      omega
    | cons d found =>
      rw [encode_cons] at h
      obtain ⟨hchar, hrest⟩ := (form_charBytes d).append_inj (form_charBytes c) h
      obtain ⟨more, rfl, hmore⟩ := ih hrest
      obtain rfl : d = c := charBytes_inj hchar
      exact ⟨more, rfl, hmore⟩

/-- Bytes are refused exactly if they go wrong behind a text. -/
theorem decode_eq_none_iff : decode bytes = none ↔ ∃ text rest, bytes = encode text ++ rest ∧ Fault rest := by
  constructor
  · intro h
    induction hn : bytes.length using Nat.strongRecOn generalizing bytes with
    | ind n ih =>
      by_cases hne : bytes = []
      · subst hne
        cases h
      rcases form_or_fault hne with ⟨front, rest, rfl, hform⟩ | hfault
      · obtain ⟨c, rfl⟩ := hform.exists_char
        have hrest : decode rest = none := by
          cases hdecode : decode rest with
          | none => rfl
          | some more =>
            have hmore := decode_encode (c :: more)
            rw [encode_cons, encode_decode hdecode, h] at hmore
            cases hmore
        have hpos := hform.length_pos
        rw [List.length_append] at hn
        obtain ⟨text, last, rfl, hfault⟩ := ih rest.length (by omega) hrest rfl
        exact ⟨c :: text, last, by rw [encode_cons, List.append_assoc], hfault⟩
      · exact ⟨[], bytes, rfl, hfault⟩
  · rintro ⟨text, rest, rfl, hfault⟩
    cases hdecode : decode (encode text ++ rest) with
    | none => rfl
    | some found =>
      obtain ⟨more, -, rfl⟩ := encode_eq_append (encode_decode hdecode)
      cases more with
      | nil => exact absurd rfl hfault.ne_nil
      | cons c more => exact absurd (encode_cons c more) (hfault.not_form (form_charBytes c))

/-- Modified UTF-8 gives each text bytes of its own, and these alone are read as it; other bytes are refused, as they go
wrong behind a text, and a constant keeps them as they are. -/
theorem bijects :
    (∀ (bytes : Bytes) (text : List Char), decode bytes = some text ↔ encode text = bytes) ∧
    (∀ text : List Char, encode text = text.flatMap charBytes) ∧
    (∀ bytes : Bytes, decode bytes = none ↔ ∃ text rest, bytes = encode text ++ rest ∧ Fault rest) ∧
    ∀ bytes : Bytes, (Constant.ofTextBytes bytes = .undecodedUtf8 bytes ↔ ∀ text, encode text ≠ bytes) ∧
      (Constant.ofTextBytes bytes).bytes = 1 :: Constant.textBytes bytes := by
  refine ⟨fun _ _ => decode_eq_some_iff, encode_eq, fun _ => decode_eq_none_iff, fun bytes => ?_⟩
  unfold Constant.ofTextBytes
  cases hdecode : decode bytes with
  | none =>
    refine ⟨iff_of_true rfl fun text htext => ?_, rfl⟩
    rw [decode_eq_some_iff.2 htext] at hdecode
    cases hdecode
  | some text =>
    have htext := encode_decode hdecode
    refine ⟨iff_of_false (fun h => by cases h) fun hall => hall text htext, ?_⟩
    show 1 :: Constant.textBytes (encode (String.ofList text).toList) = _
    rw [String.toList_ofList, htext]

/-- Half a pair behind a letter, and a zero in front of a character that takes a pair. -/
theorem bijects_halved : Constant.ofTextBytes [0x61, 0xED, 0xA0, 0x80] = .undecodedUtf8 [0x61, 0xED, 0xA0, 0x80] ∧
    decode [0xC0, 0x80, 0xED, 0xA0, 0x81, 0xED, 0xB0, 0x80] = some [Char.ofNat 0, Char.ofNat 0x10400] := by
  have hfault : Fault [0xED, 0xA0, 0x80] :=
    .loneHigh rfl (by decide) (by unfold Continues; decide) fun ⟨_, _, _, _, heq, _⟩ => by cases heq
  have hrefused := (bijects.2.2.1 [0x61, 0xED, 0xA0, 0x80]).2 ⟨[Char.ofNat 0x61], [0xED, 0xA0, 0x80], by decide, hfault⟩
  refine ⟨(bijects.2.2.2 _).1.2 fun text htext => ?_, (bijects.1 _ _).2 (by decide)⟩
  rw [(bijects.1 _ _).2 htext] at hrefused
  cases hrefused

end ClassWeave.ModifiedUtf8
