import ClassWeave.Proofs.Format.Reading

/-!
What a reader takes off the front of its input. Of most readers these are the bytes that the value is
written with, so that nothing is lost between reading and writing.
-/

namespace ClassWeave

variable {α β : Type}

/-- What the reader takes off the front of an input stands for the value it gives. -/
def Consumes (reader : Reader α) (stands : α → Bytes → Prop) : Prop :=
  ∀ input value rest, reader input = .ok (value, rest) → ∃ taken, input = taken ++ rest ∧ stands value taken

/-- What the reader takes off the front of an input are the bytes of the value it gives. -/
def Restores (reader : Reader α) (bytes : α → Bytes) : Prop :=
  Consumes reader fun value taken => taken = bytes value

namespace Consumes

variable {stands : α → Bytes → Prop} {means : β → Bytes → Prop}

theorem pure {b : β} (h : means b []) : Consumes (Pure.pure b) means := by
  intro input value rest hr
  obtain ⟨rfl, rfl⟩ := stateT_pure_eq_ok.1 hr
  exact ⟨[], rfl, h⟩

theorem throw (problem : FormatError) : Consumes (throw problem) means := fun _ _ _ hr =>
  (stateT_throw_ne_ok.1 hr).elim

/-- What follows a field stands behind the bytes of the field. -/
theorem bind {reader : Reader α} {next : α → Reader β} (hr : Consumes reader stands)
    (hn : ∀ a taken, stands a taken → Consumes (next a) fun b more => means b (taken ++ more)) :
    Consumes (reader >>= next) means := by
  intro input b rest h
  obtain ⟨a, middle, ha, hb⟩ := stateT_bind_eq_ok.1 h
  obtain ⟨taken, rfl, hstands⟩ := hr input a middle ha
  obtain ⟨more, rfl, hmeans⟩ := hn a taken hstands middle b rest hb
  exact ⟨taken ++ more, (List.append_assoc _ _ _).symm, hmeans⟩

/-- The last field. -/
theorem map {reader : Reader α} {f : α → β} (hr : Consumes reader stands)
    (hn : ∀ a taken, stands a taken → means (f a) taken) :
    Consumes (reader >>= fun a => Pure.pure (f a)) means :=
  hr.bind fun a taken h => .pure (by rw [List.append_nil]; exact hn a taken h)

theorem imp {reader : Reader α} {looser : α → Bytes → Prop} (hr : Consumes reader stands)
    (h : ∀ a taken, stands a taken → looser a taken) : Consumes reader looser := by
  intro input value rest hread
  obtain ⟨taken, hinput, hstands⟩ := hr input value rest hread
  exact ⟨taken, hinput, h value taken hstands⟩

/-- What every value of the reader has is known of it besides. -/
theorem and {reader : Reader α} {P : α → Prop} (hr : Consumes reader stands) (hg : Gives reader P) :
    Consumes reader fun a taken => stands a taken ∧ P a := by
  intro input value rest hread
  obtain ⟨taken, hinput, hstands⟩ := hr input value rest hread
  exact ⟨taken, hinput, hstands, hg input value rest hread⟩

end Consumes

namespace Restores

variable {bytes : α → Bytes} {means : β → Bytes → Prop}

/-- A field whose bytes are written as they were read. -/
theorem bind {reader : Reader α} {next : α → Reader β} (hr : Restores reader bytes)
    (hn : ∀ a, Consumes (next a) fun b more => means b (bytes a ++ more)) :
    Consumes (reader >>= next) means := by
  refine Consumes.bind hr fun a taken htaken => ?_
  subst htaken
  exact hn a

theorem map {reader : Reader α} {f : α → β} (hr : Restores reader bytes) (hn : ∀ a, means (f a) (bytes a)) :
    Consumes (reader >>= fun a => Pure.pure (f a)) means :=
  Consumes.map hr fun a _ htaken => htaken ▸ hn a

end Restores

namespace Bytes

theorem foldl_lt (content : Bytes) (start : Nat) : ∃ low < 256 ^ content.length,
    content.foldl (fun n b => n * 256 + b.toNat) start = start * 256 ^ content.length + low := by
  induction content generalizing start with
  | nil => exact ⟨0, Nat.one_pos, by simp⟩
  | cons b rest ih =>
    obtain ⟨low, hlow, hfold⟩ := ih (start * 256 + b.toNat)
    have hb : b.toNat < 256 := b.toNat_lt
    refine ⟨b.toNat * 256 ^ rest.length + low, ?_, ?_⟩
    · rw [List.length_cons, Nat.pow_succ]
      have hle : b.toNat * 256 ^ rest.length ≤ 255 * 256 ^ rest.length :=
        Nat.mul_le_mul_right _ (by omega)
      omega
    · rw [List.foldl_cons, hfold, List.length_cons, Nat.pow_succ]
      ring

/-- Bytes are those of the number that they are read as. -/
theorem ofNat_foldl (content : Bytes) (start : Nat) :
    ofNat content.length (content.foldl (fun n b => n * 256 + b.toNat) start) = content := by
  induction content generalizing start with
  | nil => rfl
  | cons b rest ih =>
    obtain ⟨low, hlow, hfold⟩ := foldl_lt rest (start * 256 + b.toNat)
    have hhead : (rest.foldl (fun n b => n * 256 + b.toNat) (start * 256 + b.toNat)) / 256 ^ rest.length =
        start * 256 + b.toNat := by
      rw [hfold, Nat.mul_comm, Nat.mul_add_div (Nat.pow_pos (by decide)), Nat.div_eq_of_lt hlow, Nat.add_zero]
    have hbyte : UInt8.ofNat (start * 256 + b.toNat) = b := by
      apply UInt8.toNat_inj.1
      have hb : b.toNat < 256 := b.toNat_lt
      rw [UInt8.toNat_ofNat']
      omega
    rw [List.length_cons, List.foldl_cons, ofNat_succ, hhead, hbyte, ih]

end Bytes

namespace Reader

theorem consumes_bytes (count : Nat) :
    Consumes (bytes count) fun content taken => taken = content ∧ content.length = count := by
  intro input content rest h
  have hlength : content.length = count := gives_bytes count input content rest h
  refine ⟨content, ?_, rfl, hlength⟩
  unfold bytes at h
  dsimp only at h
  rw [List.splitAt_eq] at h
  split at h
  · cases h
    exact (List.take_append_drop count input).symm
  · cases h

theorem consumes_nat (width : Nat) :
    Consumes (nat width) fun n taken => taken = Bytes.ofNat width n ∧ n < 256 ^ width := by
  intro input n rest h
  unfold nat at h
  cases hbytes : bytes width input with
  | error problem =>
    rw [hbytes] at h
    cases h
  | ok found =>
    obtain ⟨content, middle⟩ := found
    rw [hbytes] at h
    cases h
    obtain ⟨taken, rfl, rfl, hlength⟩ := consumes_bytes width input content rest hbytes
    obtain ⟨low, hlow, hfold⟩ := Bytes.foldl_lt taken 0
    refine ⟨taken, rfl, ?_, ?_⟩
    · rw [← hlength, Bytes.ofNat_foldl]
    · rw [← hlength, hfold]
      omega

theorem restores_u8 : Restores u8 fun n => [n] := by
  intro input n rest h
  cases input with
  | nil => cases h
  | cons b input =>
    cases h
    exact ⟨[n], rfl, rfl⟩

theorem restores_u16 : Restores u16 Bytes.u16 := by
  refine (consumes_nat 2).map ?_
  rintro n taken ⟨rfl, hlt⟩
  unfold Bytes.u16
  rw [UInt16.toNat_ofNat', Nat.mod_eq_of_lt (hlt.trans_eq (by decide))]

theorem restores_u32 : Restores u32 Bytes.u32 := by
  refine (consumes_nat 4).map ?_
  rintro n taken ⟨rfl, hlt⟩
  unfold Bytes.u32
  rw [UInt32.toNat_ofNat', Nat.mod_eq_of_lt (hlt.trans_eq (by decide))]

theorem restores_u64 : Restores u64 Bytes.u64 := by
  refine (consumes_nat 8).map ?_
  rintro n taken ⟨rfl, hlt⟩
  unfold Bytes.u64
  rw [UInt64.toNat_ofNat', Nat.mod_eq_of_lt (hlt.trans_eq (by decide))]

theorem restores_i32 : Restores i32 Bytes.i32 := restores_u32.map fun _ => rfl

theorem restores_i64 : Restores i64 Bytes.i64 := restores_u64.map fun _ => rfl

/-- Runs of a reader take what each of them takes, one behind the other. -/
theorem consumes_repeatOnto {item : Reader α} {stands : α → Bytes → Prop} (hitem : Consumes item stands)
    (count : Nat) (found : List α) : Consumes (repeatOnto item count found) fun values taken =>
      ∃ more parts, values = found.reverse ++ more ∧ more.length = count ∧ taken = parts.flatten ∧
        List.Forall₂ stands more parts := by
  induction count generalizing found with
  | zero =>
    intro input values rest h
    cases h
    exact ⟨[], rfl, [], [], by simp, rfl, rfl, .nil⟩
  | succ count ih =>
    intro input values rest h
    unfold repeatOnto at h
    split at h
    · next value middle hvalue =>
      obtain ⟨part, rfl, hstands⟩ := hitem _ _ _ hvalue
      obtain ⟨taken, rfl, more, parts, hvalues, hlength, rfl, hparts⟩ := ih (value :: found) middle values rest h
      refine ⟨part ++ parts.flatten, by simp, value :: more, part :: parts, ?_, by simp [hlength], rfl,
        .cons hstands hparts⟩
      rw [hvalues, List.reverse_cons, List.append_assoc, List.singleton_append]
    · cases h

/-- The items of a list stand behind their number. -/
theorem consumes_list {item : Reader α} {stands : α → Bytes → Prop} (hitem : Consumes item stands) :
    Consumes (list item) fun values taken => ∃ parts, List.Forall₂ stands values parts ∧
      taken = Bytes.u16 (UInt16.ofNat values.length) ++ parts.flatten := by
  refine restores_u16.bind fun count => (consumes_repeatOnto hitem count.toNat []).imp ?_
  rintro values taken ⟨more, parts, (rfl : values = more), hlength, rfl, hparts⟩
  exact ⟨parts, hparts, by rw [hlength, UInt16.ofNat_toNat]⟩

theorem flatten_parts {bytes : α → Bytes} {values : List α} {parts : List Bytes}
    (h : List.Forall₂ (fun value part => part = bytes value) values parts) :
    parts.flatten = values.flatMap bytes := by
  induction h with
  | nil => rfl
  | cons first _ ih => rw [List.flatten_cons, List.flatMap_cons, first, ih]

theorem restores_list {item : Reader α} {bytes : α → Bytes} (hitem : Restores item bytes) :
    Restores (list item) (Bytes.list bytes) := by
  refine (consumes_list hitem).imp ?_
  rintro values taken ⟨parts, hparts, rfl⟩
  rw [flatten_parts hparts]
  rfl

theorem restores_sized : Restores sized Bytes.sized := by
  refine restores_u32.bind fun count => (consumes_bytes count.toNat).imp ?_
  rintro content taken ⟨rfl, hlength⟩
  unfold Bytes.sized
  rw [hlength, UInt32.ofNat_toNat]

end Reader

end ClassWeave
