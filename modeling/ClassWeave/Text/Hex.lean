import ClassWeave.Format.Basic

/-!
Bytes as hexadecimal text, with two digits to a byte.
-/

namespace ClassWeave.Text

def hexDigit (n : Nat) : Char := Char.ofNat (if n < 10 then 0x30 + n else 0x57 + n)

def hexValue? (c : Char) : Option Nat :=
  if '0' ≤ c ∧ c ≤ '9' then some (c.toNat - 0x30)
  else if 'a' ≤ c ∧ c ≤ 'f' then some (c.toNat - 0x57)
  else none

def hex (bytes : Bytes) : String :=
  String.ofList (bytes.flatMap fun b => [hexDigit (b.toNat / 16), hexDigit (b.toNat % 16)])

/-- Bytes that the digits stand for, behind those in `done`, which is in reverse. -/
def unhexOnto : List Char → (done : Bytes) → Option Bytes
  | [], done => some done.reverse
  | [_], _ => none
  | a :: b :: rest, done =>
    match hexValue? a, hexValue? b with
    | some high, some low => unhexOnto rest (UInt8.ofNat (16 * high + low) :: done)
    | _, _ => none

def unhex? (text : String) : Option Bytes := unhexOnto text.toList []

theorem hexValue?_hexDigit {n : Nat} (h : n < 16) : hexValue? (hexDigit n) = some n := by
  have all : ∀ m ∈ List.range 16, hexValue? (hexDigit m) = some m := by decide
  exact all n (List.mem_range.2 h)

theorem unhex?_hex (bytes : Bytes) : unhex? (hex bytes) = some bytes := by
  have onto (done : Bytes) : unhexOnto (hex bytes).toList done = some (done.reverse ++ bytes) := by
    unfold hex
    rw [String.toList_ofList]
    induction bytes generalizing done with
    | nil => simp [unhexOnto]
    | cons b rest ih =>
      have low : b.toNat % 16 < 16 := Nat.mod_lt _ (by decide)
      have high : b.toNat / 16 < 16 := by have := b.toNat_lt; omega
      have whole : 16 * (b.toNat / 16) + b.toNat % 16 = b.toNat := by omega
      rw [List.flatMap_cons, List.cons_append, List.cons_append, List.nil_append, unhexOnto,
        hexValue?_hexDigit high, hexValue?_hexDigit low]
      simp only [whole, UInt8.ofNat_toNat]
      rw [ih]
      simp
  simpa [unhex?] using onto []

end ClassWeave.Text
