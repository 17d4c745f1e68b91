import ClassWeave.Class.Attribute
import ClassWeave.Proofs.Steps
import Mathlib.Tactic.Ring

/-!
Reading back what was written. A reader is matched with the bytes of a value if it takes them off the
front of any input and gives the value; fields in a row are matched one after another. What every
value that a reader gives has in common is found field by field too.
-/

namespace ClassWeave

variable {α β : Type}

/-- Off the front of any input that starts with the bytes the reader takes them, and gives the value. -/
def Reads (reader : Reader α) (bytes : Bytes) (value : α) : Prop :=
  ∀ rest, reader (bytes ++ rest) = .ok (value, rest)

namespace Reads

theorem pure (a : α) : Reads (Pure.pure a) [] a := fun _ => rfl

theorem bind {reader : Reader α} {next : α → Reader β} {xs ys : Bytes} {a : α} {b : β}
    (ha : Reads reader xs a) (hb : Reads (next a) ys b) : Reads (reader >>= next) (xs ++ ys) b := by
  intro rest
  rw [List.append_assoc]
  exact stateT_bind_eq_ok.2 ⟨a, ys ++ rest, ha _, hb rest⟩

/-- A reader of the last field. -/
theorem map {reader : Reader α} {f : α → β} {xs : Bytes} {a : α} (ha : Reads reader xs a) :
    Reads (reader >>= fun a => Pure.pure (f a)) xs (f a) := by
  have h : Reads (reader >>= fun a => Pure.pure (f a)) (xs ++ []) (f a) := ha.bind (.pure (f a))
  rwa [List.append_nil] at h

theorem congr {reader : Reader α} {xs ys : Bytes} {a : α} (h : Reads reader xs a) (hb : ys = xs) :
    Reads reader ys a := hb ▸ h

theorem all {reader : Reader α} {xs : Bytes} {a : α} (h : Reads reader xs a) :
    reader xs = .ok (a, []) := by
  have hnil := h []
  rwa [List.append_nil] at hnil

end Reads

/-- Every value that the reader gives has the property. -/
def Gives (reader : Reader α) (P : α → Prop) : Prop :=
  ∀ input value rest, reader input = .ok (value, rest) → P value

namespace Gives

variable {P : α → Prop} {Q : β → Prop}

theorem pure {a : α} (h : P a) : Gives (Pure.pure a) P := fun _ _ _ hr => by
  obtain ⟨rfl, -⟩ := stateT_pure_eq_ok.1 hr
  exact h

theorem throw (problem : FormatError) : Gives (throw problem) P := fun _ _ _ hr =>
  (stateT_throw_ne_ok.1 hr).elim

theorem bind {reader : Reader α} {next : α → Reader β} (hr : Gives reader P)
    (hn : ∀ a, P a → Gives (next a) Q) : Gives (reader >>= next) Q := fun input b rest h => by
  obtain ⟨a, middle, ha, hb⟩ := stateT_bind_eq_ok.1 h
  exact hn a (hr input a middle ha) middle b rest hb

/-- A field of which nothing is said. -/
theorem skip {reader : Reader α} {next : α → Reader β} (hn : ∀ a, Gives (next a) Q) :
    Gives (reader >>= next) Q := fun _ b rest h => by
  obtain ⟨a, middle, -, hb⟩ := stateT_bind_eq_ok.1 h
  exact hn a middle b rest hb

end Gives

namespace Bytes

theorem ofNat_zero (n : Nat) : ofNat 0 n = [] := rfl

theorem ofNat_succ (width n : Nat) :
    ofNat (width + 1) n = UInt8.ofNat (n / 256 ^ width) :: ofNat width n := rfl

theorem length_ofNat (width n : Nat) : (ofNat width n).length = width := by
  induction width with
  | zero => rfl
  | succ width ih => rw [ofNat_succ, List.length_cons, ih]

theorem foldl_ofNat (width n start : Nat) :
    (ofNat width n).foldl (fun n b => n * 256 + b.toNat) start =
      start * 256 ^ width + n % 256 ^ width := by
  induction width generalizing start with
  | zero => simp [ofNat_zero, Nat.mod_one]
  | succ width ih =>
    have hmod : (UInt8.ofNat (n / 256 ^ width)).toNat = n / 256 ^ width % 256 := by simp
    rw [ofNat_succ, List.foldl_cons, ih, hmod, Nat.mod_pow_succ, Nat.pow_succ]
    ring

end Bytes

namespace Reader

theorem reads_bytes (content : Bytes) : Reads (bytes content.length) content content := by
  intro rest
  have htake : (content ++ rest).splitAt content.length = (content, rest) := by
    rw [List.splitAt_eq, List.take_left, List.drop_left]
  unfold bytes
  simp only [htake, if_true]

theorem reads_nat (width n : Nat) (h : n < 256 ^ width) :
    Reads (nat width) (Bytes.ofNat width n) n := by
  intro rest
  have hbytes := reads_bytes (Bytes.ofNat width n) rest
  rw [Bytes.length_ofNat] at hbytes
  unfold nat
  rw [hbytes]
  simp only [Bytes.foldl_ofNat, Nat.zero_mul, Nat.zero_add, Nat.mod_eq_of_lt h]

theorem reads_u8 (n : UInt8) : Reads u8 [n] n := fun _ => rfl

theorem reads_u16 (n : UInt16) : Reads u16 (Bytes.u16 n) n := by
  have h := (reads_nat 2 n.toNat n.toNat_lt).map (f := UInt16.ofNat)
  rwa [UInt16.ofNat_toNat] at h

theorem reads_u32 (n : UInt32) : Reads u32 (Bytes.u32 n) n := by
  have h := (reads_nat 4 n.toNat n.toNat_lt).map (f := UInt32.ofNat)
  rwa [UInt32.ofNat_toNat] at h

theorem reads_u64 (n : UInt64) : Reads u64 (Bytes.u64 n) n := by
  have h := (reads_nat 8 n.toNat n.toNat_lt).map (f := UInt64.ofNat)
  rwa [UInt64.ofNat_toNat] at h

theorem reads_i32 (n : Int32) : Reads i32 (Bytes.i32 n) n := (reads_u32 n.toUInt32).map

theorem reads_i64 (n : Int64) : Reads i64 (Bytes.i64 n) n := (reads_u64 n.toUInt64).map

theorem repeatOnto_parts {item : Reader α} {values : List α} {parts : List Bytes}
    (h : List.Forall₂ (fun value part => Reads item part value) values parts) (found : List α) :
    Reads (repeatOnto item values.length found) parts.flatten (found.reverse ++ values) := by
  induction h generalizing found with
  | nil =>
    intro rest
    simp [repeatOnto]
  | @cons value part values parts first _ ih =>
    intro rest
    rw [List.length_cons, repeatOnto, List.flatten_cons, List.append_assoc, first]
    simpa using ih (value :: found) rest

/-- A list is read back if its length fits its two bytes. -/
theorem reads_parts {item : Reader α} {values : List α} {parts : List Bytes}
    (fits : values.length < 65536)
    (h : List.Forall₂ (fun value part => Reads item part value) values parts) :
    Reads (list item) (Bytes.u16 (UInt16.ofNat values.length) ++ parts.flatten) values := by
  have hcount : (UInt16.ofNat values.length).toNat = values.length := by
    rw [UInt16.toNat_ofNat']
    exact Nat.mod_eq_of_lt fits
  refine (reads_u16 _).bind ?_
  rw [hcount]
  exact repeatOnto_parts h []

theorem forall₂_map_bytes {item : Reader α} {bytes : α → Bytes} {values : List α}
    (h : ∀ value ∈ values, Reads item (bytes value) value) :
    List.Forall₂ (fun value part => Reads item part value) values (values.map bytes) := by
  rw [List.forall₂_map_right_iff, List.forall₂_same]
  exact h

theorem repeatOnto_bytes {item : Reader α} {bytes : α → Bytes} (values found : List α)
    (h : ∀ value ∈ values, Reads item (bytes value) value) :
    Reads (repeatOnto item values.length found) (values.flatMap bytes) (found.reverse ++ values) :=
  repeatOnto_parts (forall₂_map_bytes h) found

theorem reads_list {item : Reader α} {bytes : α → Bytes} {values : List α}
    (fits : values.length < 65536) (h : ∀ value ∈ values, Reads item (bytes value) value) :
    Reads (list item) (Bytes.list bytes values) values := reads_parts fits (forall₂_map_bytes h)

theorem reads_sized {content : Bytes} (fits : content.length < 4294967296) :
    Reads sized (Bytes.sized content) content := by
  have hcount : (UInt32.ofNat content.length).toNat = content.length := by
    rw [UInt32.toNat_ofNat']
    exact Nat.mod_eq_of_lt fits
  refine (reads_u32 _).bind ?_
  rw [hcount]
  exact reads_bytes content

theorem gives_repeatOnto {item : Reader α} {P : α → Prop} (hitem : Gives item P) (count : Nat)
    {found : List α} (hfound : ∀ value ∈ found, P value) :
    Gives (repeatOnto item count found)
      fun values => values.length = found.length + count ∧ ∀ value ∈ values, P value := by
  induction count generalizing found with
  | zero =>
    intro input values rest h
    cases h
    exact ⟨List.length_reverse, fun value hm => hfound value (List.mem_reverse.1 hm)⟩
  | succ count ih =>
    intro input values rest h
    unfold repeatOnto at h
    split at h
    · next value middle hvalue =>
      have hnext : ∀ v ∈ value :: found, P v :=
        List.forall_mem_cons.2 ⟨hitem input value middle hvalue, hfound⟩
      obtain ⟨hlength, hall⟩ := ih hnext middle values rest h
      refine ⟨?_, hall⟩
      rw [hlength, List.length_cons]
      omega
    · cases h

/-- A list that was read has a length that fits its two bytes. -/
theorem gives_list {item : Reader α} {P : α → Prop} (hitem : Gives item P) :
    Gives (list item) fun values => values.length < 65536 ∧ ∀ value ∈ values, P value := by
  refine .skip fun count input values rest h => ?_
  obtain ⟨hlength, hall⟩ := gives_repeatOnto hitem count.toNat (by simp) input values rest h
  refine ⟨?_, hall⟩
  rw [hlength, List.length_nil, Nat.zero_add]
  exact count.toNat_lt

theorem gives_length {item : Reader α} : Gives (list item) fun values => values.length < 65536 := by
  have hitem : Gives item fun _ => True := fun _ _ _ _ => trivial
  exact fun input values rest h => (gives_list hitem input values rest h).1

theorem gives_bytes (count : Nat) : Gives (bytes count) fun content => content.length = count := by
  intro input content rest h
  unfold bytes at h
  dsimp only at h
  split at h
  · next hlength =>
    cases h
    exact hlength
  · cases h

theorem gives_sized : Gives sized fun content => content.length < 4294967296 := by
  refine .skip fun count input content rest h => ?_
  rw [gives_bytes count.toNat input content rest h]
  exact count.toNat_lt

end Reader

end ClassWeave
