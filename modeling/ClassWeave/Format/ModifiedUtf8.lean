import ClassWeave.Format.Basic

/-!
Modified UTF-8. A text becomes its UTF-16 code units, and each unit becomes one, two or three bytes;
the unit zero takes two. Only this form of each character is read back.
-/

namespace ClassWeave.ModifiedUtf8

/-- UTF-16 code units of a character. -/
def unitsOf (c : Char) : List Nat :=
  let n := c.toNat
  if n < 0x10000 then [n]
  else [0xD800 + (n - 0x10000) / 0x400, 0xDC00 + (n - 0x10000) % 0x400]

def unitBytes (unit : Nat) : Bytes :=
  let continuation (n : Nat) : UInt8 := UInt8.ofNat (0x80 + n % 0x40)
  if 0 < unit ∧ unit < 0x80 then [UInt8.ofNat unit]
  else if unit < 0x800 then [UInt8.ofNat (0xC0 + unit / 0x40), continuation unit]
  else [UInt8.ofNat (0xE0 + unit / 0x1000), continuation (unit / 0x40), continuation unit]

def encode (text : List Char) : Bytes :=
  text.flatMap fun c => (unitsOf c).flatMap unitBytes

/-- The six bits that a byte adds to the character it continues. -/
def continuationBits? (b : UInt8) : Option Nat :=
  if 0x80 ≤ b.toNat ∧ b.toNat < 0xC0 then some (b.toNat - 0x80) else none

/-- Adds the units of the bytes, in reverse, to those already read. -/
def unitsOnto : Bytes → List Nat → Option (List Nat)
  | [], units => some units
  | b₀ :: rest, units =>
    let lead := b₀.toNat
    if 0 < lead ∧ lead < 0x80 then unitsOnto rest (lead :: units)
    else if 0xC0 ≤ lead ∧ lead < 0xE0 then
      match rest with
      | b₁ :: rest =>
        match continuationBits? b₁ with
        | some low =>
          let unit := (lead - 0xC0) * 0x40 + low
          if unit ≠ 0 ∧ unit < 0x80 then none else unitsOnto rest (unit :: units)
        | none => none
      | [] => none
    else if 0xE0 ≤ lead ∧ lead < 0xF0 then
      match rest with
      | b₁ :: b₂ :: rest =>
        match continuationBits? b₁, continuationBits? b₂ with
        | some middle, some low =>
          let unit := (lead - 0xE0) * 0x1000 + middle * 0x40 + low
          if unit < 0x800 then none else unitsOnto rest (unit :: units)
        | _, _ => none
      | _ => none
    else none

def units? (bytes : Bytes) : Option (List Nat) :=
  (unitsOnto bytes []).map List.reverse

/-- Adds the characters of the units, in reverse, to those already read. A surrogate counts only as
the first or second half of a pair. -/
def charsOnto : List Nat → List Char → Option (List Char)
  | [], chars => some chars
  | unit :: rest, chars =>
    if unit < 0xD800 ∨ 0xE000 ≤ unit then charsOnto rest (Char.ofNat unit :: chars)
    else if unit < 0xDC00 then
      match rest with
      | low :: rest =>
        if 0xDC00 ≤ low ∧ low < 0xE000 then
          charsOnto rest (Char.ofNat (0x10000 + (unit - 0xD800) * 0x400 + (low - 0xDC00)) :: chars)
        else none
      | [] => none
    else none

def decode (bytes : Bytes) : Option (List Char) := do
  let chars ← charsOnto (← units? bytes) []
  return chars.reverse

end ClassWeave.ModifiedUtf8
