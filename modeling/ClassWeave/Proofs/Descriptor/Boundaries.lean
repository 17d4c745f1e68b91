import Mathlib.Data.String.Basic
import ClassWeave.Proofs.Descriptor.Rendering
import ClassWeave.Proofs.Descriptor.Walker
import ClassWeave.Proofs.Format.ModifiedUtf8

/-!
Reading a descriptor by bytes finds what reading it by characters finds, and never comes to a place inside a character.
So each descriptor has one text, that of its rendering.
-/

namespace ClassWeave

open Descriptor

namespace Descriptor

variable {α β : Type} {front back : List Char}

theorem utf8Length_eq (text : List Char) : utf8Length text = String.utf8Len text := by
  induction text with
  | nil => rfl
  | cons c rest ih =>
    rw [String.utf8Len_cons, ← ih]
    exact Nat.add_comm _ _

theorem utf8Length_append (front back : List Char) :
    utf8Length (front ++ back) = utf8Length front + utf8Length back := by
  simp only [utf8Length_eq, String.utf8Len_append]

theorem utf8Bytes_ofList (text : List Char) : utf8Bytes (String.ofList text) = text.flatMap String.utf8EncodeChar := by
  unfold utf8Bytes String.toUTF8
  rw [String.toByteArray_ofList]
  exact List.toList_data_toByteArray

theorem length_flatMap_utf8 (text : List Char) : (text.flatMap String.utf8EncodeChar).length = utf8Length text := by
  induction text with
  | nil => rfl
  | cons c rest ih =>
    rw [List.flatMap_cons, List.length_append, ih, String.length_utf8EncodeChar]
    rfl

theorem drop_utf8Bytes (front back : List Char) : (utf8Bytes (String.ofList (front ++ back))).drop (utf8Length front) =
    back.flatMap String.utf8EncodeChar := by
  rw [utf8Bytes_ofList, List.flatMap_append, ← length_flatMap_utf8, List.drop_left]

theorem goTo_between (front back : List Char) :
    goTo (String.ofList (front ++ back)) (utf8Length front) = .ok (utf8Length front) := by
  refine if_pos (String.Pos.Raw.isValid_eq_true_iff.2 (String.Pos.Raw.isValid_iff_exists_append.2 ?_))
  refine ⟨String.ofList front, String.ofList back, String.ofList_append, ?_⟩
  rw [String.rawEndPos_ofList, utf8Length_eq]

/-- A character is its own byte, or none of its bytes is below 0x80. -/
theorem utf8EncodeChar_cases (c : Char) : (c.toNat < 0x80 ∧ String.utf8EncodeChar c = [UInt8.ofNat c.toNat]) ∨
    (0x80 ≤ c.toNat ∧ ∀ b ∈ String.utf8EncodeChar c, 0x80 ≤ b.toNat) := by
  have hmax : c.val.toNat < 0x110000 := (ModifiedUtf8.toNat_valid c).2
  have hcode : c.toNat = c.val.toNat := rfl
  rw [hcode]
  unfold String.utf8EncodeChar
  dsimp only
  by_cases hone : c.val.toNat ≤ 127
  · rw [if_pos hone]
    exact .inl ⟨by omega, rfl⟩
  · refine .inr ⟨by omega, ?_⟩
    rw [if_neg hone]
    have hhigh (n : Nat) (h : 0x80 ≤ n) (h' : n < 0x100) : 0x80 ≤ (UInt8.ofNat n).toNat := by
      rwa [ModifiedUtf8.toNat_byte h']
    split_ifs
    · exact List.forall_mem_cons.2 ⟨hhigh _ (by omega) (by omega), List.forall_mem_singleton.2
        (hhigh _ (by omega) (by omega))⟩
    · exact List.forall_mem_cons.2 ⟨hhigh _ (by omega) (by omega), List.forall_mem_cons.2
        ⟨hhigh _ (by omega) (by omega), List.forall_mem_singleton.2 (hhigh _ (by omega) (by omega))⟩⟩
    · exact List.forall_mem_cons.2 ⟨hhigh _ (by omega) (by omega), List.forall_mem_cons.2
        ⟨hhigh _ (by omega) (by omega), List.forall_mem_cons.2 ⟨hhigh _ (by omega) (by omega),
          List.forall_mem_singleton.2 (hhigh _ (by omega) (by omega))⟩⟩⟩

/-- The byte ahead decides what the character ahead decides, if only characters of one byte matter. -/
theorem bind_peek {f : Char → Option α} (ascii : ∀ c, 0x80 ≤ c.toNat → f c = none) (front back : List Char) :
    ((peek (String.ofList (front ++ back)) (utf8Length front)).bind fun b => f (Char.ofUInt8 b)) =
      back.head?.bind f := by
  have hpeek : peek (String.ofList (front ++ back)) (utf8Length front) =
      (back.flatMap String.utf8EncodeChar).head? := by
    rw [← drop_utf8Bytes front back, List.head?_drop]
    rfl
  rw [hpeek]
  cases back with
  | nil => rfl
  | cons c rest =>
    rw [List.flatMap_cons, List.head?_cons, Option.bind_some]
    rcases utf8EncodeChar_cases c with ⟨hc, hbytes⟩ | ⟨hc, hbytes⟩
    · rw [hbytes]
      show f (Char.ofUInt8 (UInt8.ofNat c.toNat)) = f c
      congr 1
      apply Char.toNat_inj.1
      show (UInt8.ofNat c.toNat).toUInt32.toNat = c.toNat
      rw [UInt8.toNat_toUInt32, ModifiedUtf8.toNat_byte (by omega)]
    · rw [ascii c hc]
      cases henc : String.utf8EncodeChar c with
      | nil => exact absurd henc (String.utf8EncodeChar_ne_nil)
      | cons b more =>
        rw [henc] at hbytes
        refine ascii _ ?_
        show 0x80 ≤ (b.toUInt32).toNat
        rw [UInt8.toNat_toUInt32]
        exact hbytes b List.mem_cons_self

theorem toNat_toUInt8 {c : Char} (hc : c.toNat < 0x80) : c.toUInt8.toNat = c.toNat := by
  show c.val.toUInt8.toNat = c.val.toNat
  rw [UInt32.toNat_toUInt8]
  exact Nat.mod_eq_of_lt (Nat.lt_trans hc (by decide))

theorem ofUInt8_eq_iff {c : Char} (hc : c.toNat < 0x80) (b : UInt8) : Char.ofUInt8 b = c ↔ b = c.toUInt8 := by
  rw [← UInt8.toNat_inj, toNat_toUInt8 hc, ← Char.toNat_inj]
  show b.toUInt32.toNat = c.toNat ↔ _
  rw [UInt8.toNat_toUInt32]

theorem peek_eq_some_iff {c : Char} (hc : c.toNat < 0x80) (front back : List Char) :
    peek (String.ofList (front ++ back)) (utf8Length front) = some c.toUInt8 ↔ back.head? = some c := by
  have hbind := bind_peek (f := fun d => if d = c then some () else none)
    (fun d hd => if_neg fun heq => by rw [heq] at hd; omega) front back
  have hiff (found : Option Char) :
      found.bind (fun d => if d = c then some () else none) = some () ↔ found = some c := by
    cases found <;> simp
  rw [← hiff, ← hbind]
  cases peek (String.ofList (front ++ back)) (utf8Length front) with
  | none => simp
  | some b => simp [ofUInt8_eq_iff hc]

/-- The bytes in front of that of a character are those of the characters in front of it. -/
theorem takeWhile_flatMap_utf8 {c : Char} (hc : c.toNat < 0x80) (text : List Char) :
    (text.flatMap String.utf8EncodeChar).takeWhile (· ≠ c.toUInt8) =
      (text.takeWhile (· ≠ c)).flatMap String.utf8EncodeChar := by
  induction text with
  | nil => rfl
  | cons d rest ih =>
    rw [List.flatMap_cons]
    by_cases hd : d = c
    · subst hd
      rcases utf8EncodeChar_cases d with ⟨-, hbytes⟩ | ⟨hhigh, -⟩
      · have hbyte : UInt8.ofNat d.toNat = d.toUInt8 := by
          rw [← UInt8.toNat_inj, toNat_toUInt8 hc, ModifiedUtf8.toNat_byte (by omega)]
        rw [hbytes, hbyte]
        simp
      · omega
    · have hall : ∀ b ∈ String.utf8EncodeChar d, decide (b ≠ c.toUInt8) = true := by
        intro b hb
        rw [decide_eq_true_eq, ne_eq, ← UInt8.toNat_inj, toNat_toUInt8 hc]
        rcases utf8EncodeChar_cases d with ⟨hlow, hbytes⟩ | ⟨-, hhigh⟩
        · rw [hbytes, List.mem_singleton] at hb
          rw [hb, ModifiedUtf8.toNat_byte (by omega), Char.toNat_inj]
          exact hd
        · have := hhigh b hb
          omega
      rw [List.takeWhile_append_of_pos hall, ih, List.takeWhile_cons_of_pos (by simpa using hd), List.flatMap_cons]

/-- What a scanner gives, told by the place it comes to in a text of some length. -/
def outcome (length : Nat) : Except Stop (α × List Char) → Except WalkError (α × Nat)
  | .ok (value, rest) => .ok (value, length - utf8Length rest)
  | .error stop => .error (.stopped (length - utf8Length stop.ahead) stop.expected)

theorem outcome_here (place : Nat) (expected : Expectation) (back : List Char) :
    outcome (place + utf8Length back) (.error ⟨expected, back⟩ : Except Stop (α × List Char)) =
      .error (.stopped place expected) := by
  unfold outcome
  dsimp only
  rw [Nat.add_sub_cancel]

theorem outcome_behind (place : Nat) (value : α) (taken rest : List Char) :
    outcome (place + utf8Length (taken ++ rest)) (.ok (value, rest)) = .ok (value, place + utf8Length taken) := by
  unfold outcome
  dsimp only
  rw [utf8Length_append, ← Nat.add_assoc, Nat.add_sub_cancel]

/-- In front of some characters the walker does what the scanner does on them. -/
def MirrorsOn (walk : Walker α) (scan : Scanner α) (back : List Char) : Prop :=
  ∀ front, walk (String.ofList (front ++ back)) (utf8Length front) =
    outcome (utf8Length front + utf8Length back) (scan back)

def Mirrors (walk : Walker α) (scan : Scanner α) : Prop := ∀ back, MirrorsOn walk scan back

theorem utf8Length_cons (c : Char) (text : List Char) : utf8Length (c :: text) = c.utf8Size + utf8Length text := rfl

theorem utf8Size_ascii {c : Char} (hc : c.toNat < 0x80) : c.utf8Size = 1 := by
  rcases utf8EncodeChar_cases c with ⟨-, hbytes⟩ | ⟨hhigh, -⟩
  · rw [← String.length_utf8EncodeChar, hbytes]
    rfl
  · omega

theorem goTo_behind (front taken back : List Char) :
    goTo (String.ofList (front ++ (taken ++ back))) (utf8Length front + utf8Length taken) =
      .ok (utf8Length front + utf8Length taken) := by
  rw [← List.append_assoc, ← utf8Length_append, goTo_between]

theorem goTo_next {c : Char} (hc : c.toNat < 0x80) (front back : List Char) :
    goTo (String.ofList (front ++ c :: back)) (utf8Length front + 1) = .ok (utf8Length front + 1) := by
  have hnext := goTo_behind front [c] back
  rwa [utf8Length_cons, utf8Size_ascii hc] at hnext

theorem outcome_next {c : Char} (hc : c.toNat < 0x80) (place : Nat) (value : α) (rest : List Char) :
    outcome (place + utf8Length (c :: rest)) (.ok (value, rest)) = .ok (value, place + 1) := by
  have hbehind := outcome_behind place value [c] rest
  rwa [utf8Length_cons c [], utf8Size_ascii hc] at hbehind

theorem MirrorsOn.behind {walk : Walker α} {scan : Scanner α} {back : List Char} (h : MirrorsOn walk scan back)
    (front taken : List Char) : walk (String.ofList (front ++ (taken ++ back))) (utf8Length front + utf8Length taken) =
      outcome (utf8Length front + utf8Length (taken ++ back)) (scan back) := by
  have hfrom := h (front ++ taken)
  rwa [List.append_assoc, utf8Length_append, Nat.add_assoc, ← utf8Length_append taken] at hfrom

theorem MirrorsOn.next {walk : Walker α} {scan : Scanner α} {back : List Char} (h : MirrorsOn walk scan back) {c : Char}
    (hc : c.toNat < 0x80) (front : List Char) : walk (String.ofList (front ++ c :: back)) (utf8Length front + 1) =
      outcome (utf8Length front + utf8Length (c :: back)) (scan back) := by
  have hfrom := h.behind front [c]
  rwa [utf8Length_cons c [], utf8Size_ascii hc] at hfrom

/-- The walker goes on where a scanner left the text. -/
theorem MirrorsOn.rest {walk : Walker α} {scan : Scanner α} {back taken rest : List Char} (h : MirrorsOn walk scan rest)
    (hback : back = taken ++ rest) (front : List Char) :
    walk (String.ofList (front ++ back)) (utf8Length front + utf8Length back - utf8Length rest) =
      outcome (utf8Length front + utf8Length back) (scan rest) := by
  have hplace : utf8Length front + utf8Length back - utf8Length rest = utf8Length front + utf8Length taken := by
    rw [hback, utf8Length_append]
    omega
  rw [hplace, hback, h.behind]

end Descriptor

open Descriptor

variable {front back : List Char}

theorem BaseType.ofTag?_high {c : Char} (h : 0x80 ≤ c.toNat) : ofTag? c = none := by
  cases hfound : ofTag? c with
  | none => rfl
  | some type =>
    have htag := tag_of_ofTag? hfound
    have hlow : type.tag.toNat < 0x80 := by cases type <;> decide
    rw [htag] at hlow
    omega

theorem BaseType.mirrors_walk : Mirrors walk scan := by
  intro back front
  unfold walk
  rw [bind_peek (fun c => ofTag?_high)]
  cases back with
  | nil => exact (outcome_here _ _ []).symm
  | cons c rest =>
    unfold scan
    rw [List.head?_cons, Option.bind_some]
    cases hfound : ofTag? c with
    | none =>
      simp only [hfound]
      exact (outcome_here _ _ _).symm
    | some type =>
      have hc : c.toNat < 0x80 := by
        by_contra hhigh
        rw [ofTag?_high (by omega)] at hfound
        cases hfound
      simp only [hfound, goTo_next hc]
      exact (outcome_next hc _ type rest).symm

namespace ClassName

/-- The part of the scanner behind the mark. -/
def scanName : Scanner ClassName := fun rest =>
  match rest.dropWhile (· ≠ ';') with
  | [] => .error ⟨.classEnd, rest⟩
  | _ :: after =>
    match ClassName.ofString (String.ofList (rest.takeWhile (· ≠ ';'))) with
    | .ok name => .ok (name, after)
    | .error _ => .error ⟨.className, rest⟩

theorem mirrors_walkName : Mirrors walkName scanName := by
  intro back front
  unfold walkName scanName
  have hsplit := List.takeWhile_append_dropWhile (p := fun c : Char => decide (c ≠ ';')) (l := back)
  have hlength : ((back.flatMap String.utf8EncodeChar).takeWhile (· ≠ ';'.toUInt8)).length =
      utf8Length (back.takeWhile (· ≠ ';')) := by
    rw [takeWhile_flatMap_utf8 (by decide), length_flatMap_utf8]
  dsimp only
  rw [drop_utf8Bytes front back, hlength, length_flatMap_utf8]
  generalize hname : back.takeWhile (fun c => decide (c ≠ ';')) = name at hsplit
  cases hdrop : back.dropWhile (· ≠ ';') with
  | nil =>
    rw [hdrop, List.append_nil] at hsplit
    rw [if_pos (by rw [hsplit])]
    exact (outcome_here _ _ _).symm
  | cons mark after =>
    obtain rfl : mark = ';' := by
      have hhead := List.head?_dropWhile_not (fun c : Char => decide (c ≠ ';')) back
      rw [hdrop] at hhead
      simpa using hhead
    rw [hdrop] at hsplit
    subst hsplit
    have hmore : utf8Length name ≠ utf8Length (name ++ ';' :: after) := by
      rw [utf8Length_append, utf8Length_cons, utf8Size_ascii (by decide)]
      omega
    have hnext : goTo (String.ofList (front ++ (name ++ ';' :: after))) (utf8Length front + utf8Length name + 1) =
        .ok (utf8Length front + utf8Length name + 1) := by
      have hstop := goTo_next (c := ';') (by decide) (front ++ name) after
      rwa [List.append_assoc, utf8Length_append] at hstop
    have hextract := String.extract_of_valid front name (';' :: after)
    rw [← utf8Length_eq, ← utf8Length_eq, List.append_assoc] at hextract
    have htaken : utf8Length (name ++ [';']) = utf8Length name + 1 := by
      rw [utf8Length_append, utf8Length_cons, utf8Size_ascii (by decide)]
      rfl
    rw [if_neg hmore, goTo_behind]
    simp only [bind, Except.bind, hnext, hextract]
    cases ofString (String.ofList name) with
    | error problem => exact (outcome_here _ _ _).symm
    | ok found =>
      have hbehind := outcome_behind (utf8Length front) found (name ++ [';']) after
      rw [List.append_assoc, htaken] at hbehind
      exact hbehind.symm

theorem mirrors_walk : Mirrors walk scan := by
  intro back front
  unfold walk
  simp only [peek_eq_some_iff (c := 'L') (by decide)]
  by_cases hmark : back.head? = some 'L'
  · obtain ⟨rest, rfl⟩ := List.head?_eq_some_iff.1 hmark
    rw [if_pos hmark, goTo_next (c := 'L') (by decide)]
    exact (mirrors_walkName rest).next (by decide) front
  · rw [if_neg hmark]
    unfold scan
    split
    · exact absurd rfl hmark
    · exact (outcome_here _ _ _).symm

end ClassName

/-- Both go on in the same way with what they found. -/
theorem Descriptor.outcome_map {α β : Type} (f : α → β) (length : Nat) (found : Except Stop (α × List Char)) :
    outcome length (found.map fun found => (f found.1, found.2)) =
      (outcome length found).map fun found => (f found.1, found.2) := by
  cases found <;> rfl

theorem ElementType.mirrors_walk : Mirrors walk scan := by
  intro back front
  unfold walk
  simp only [peek_eq_some_iff (c := 'L') (by decide)]
  by_cases hmark : back.head? = some 'L'
  · obtain ⟨rest, rfl⟩ := List.head?_eq_some_iff.1 hmark
    rw [if_pos hmark, ClassName.mirrors_walk]
    exact (outcome_map ElementType.object _ (ClassName.scan ('L' :: rest))).symm
  · rw [if_neg hmark, BaseType.mirrors_walk]
    have hscan : scan back = (BaseType.scan back).map fun found => (ElementType.base found.1, found.2) := by
      unfold scan
      split
      · exact absurd rfl hmark
      · rfl
    rw [hscan]
    exact (outcome_map ElementType.base _ (BaseType.scan back)).symm

namespace RefType

/-- Brackets ahead of a text. -/
def brackets (text : List Char) : Nat := (text.takeWhile (· = '[')).length

theorem brackets_cons (rest : List Char) : brackets ('[' :: rest) = brackets rest + 1 := by
  unfold brackets
  rw [List.takeWhile_cons_of_pos (by decide), List.length_cons]

theorem brackets_eq_zero {text : List Char} (h : text.head? ≠ some '[') : brackets text = 0 := by
  cases text with
  | nil => rfl
  | cons c rest =>
    have hc : c ≠ '[' := fun heq => h (congrArg some heq)
    unfold brackets
    rw [List.takeWhile_cons_of_neg (by simpa using hc), List.length_nil]

theorem walkBrackets_eq (room : Nat) (front back : List Char) :
    walkBrackets (String.ofList (front ++ back)) room (utf8Length front) =
      if brackets back ≤ room then .ok (brackets back, utf8Length front + brackets back)
      else .error (.stopped (utf8Length front + room) .dimensions) := by
  induction room generalizing front back with
  | zero =>
    unfold walkBrackets
    simp only [peek_eq_some_iff (c := '[') (by decide)]
    by_cases hmark : back.head? = some '['
    · obtain ⟨rest, rfl⟩ := List.head?_eq_some_iff.1 hmark
      rw [if_pos hmark, brackets_cons, if_neg (by omega)]
      rfl
    · rw [if_neg hmark, brackets_eq_zero hmark]
      rfl
  | succ room ih =>
    unfold walkBrackets
    simp only [peek_eq_some_iff (c := '[') (by decide)]
    by_cases hmark : back.head? = some '['
    · obtain ⟨rest, rfl⟩ := List.head?_eq_some_iff.1 hmark
      have hrest := ih (front ++ ['[']) rest
      rw [List.append_assoc, List.singleton_append, utf8Length_append, utf8Length_cons,
        utf8Size_ascii (by decide)] at hrest
      change walkBrackets _ room (utf8Length front + 1) = _ at hrest
      rw [if_pos hmark, goTo_next (c := '[') (by decide)]
      simp only [bind, Except.bind]
      rw [hrest, brackets_cons]
      by_cases hroom : brackets rest ≤ room
      · rw [if_pos hroom, if_pos (by omega)]
        refine congrArg Except.ok (Prod.ext rfl ?_)
        show utf8Length front + 1 + brackets rest = utf8Length front + (brackets rest + 1)
        omega
      · rw [if_neg hroom, if_neg (by omega)]
        refine congrArg Except.error ?_
        show WalkError.stopped (utf8Length front + 1 + room) _ = .stopped (utf8Length front + (room + 1)) _
        rw [Nat.add_right_comm, Nat.add_assoc]
    · rw [if_neg hmark, brackets_eq_zero hmark, if_pos (Nat.zero_le _)]
      rfl

theorem takeWhile_brackets (text : List Char) : text.takeWhile (· = '[') = List.replicate (brackets text) '[' := by
  apply List.eq_replicate_of_mem
  intro c hc
  have hall := List.all_takeWhile (p := fun c : Char => decide (c = '[')) (l := text)
  simpa using List.all_eq_true.1 hall c hc

theorem utf8Length_replicate (count : Nat) : utf8Length (List.replicate count '[') = count := by
  induction count with
  | zero => rfl
  | succ count ih =>
    rw [List.replicate_succ, utf8Length_cons, utf8Size_ascii (by decide), ih]
    omega

theorem mirrors_walk : Mirrors walk scan := by
  intro back front
  have hsplit : List.replicate (brackets back) '[' ++ back.dropWhile (· = '[') = back := by
    rw [← takeWhile_brackets, List.takeWhile_append_dropWhile]
  unfold walk
  rw [walkBrackets_eq]
  cases hcount : brackets back with
  | zero =>
    have hlength : (back.takeWhile (· = '[')).length = 0 := hcount
    unfold scan
    simp only [hlength, Nat.zero_le, if_true, bind, Except.bind, Nat.add_zero, peek_eq_some_iff (c := 'L') (by decide)]
    by_cases hmark : back.head? = some 'L'
    · obtain ⟨rest, rfl⟩ := List.head?_eq_some_iff.1 hmark
      rw [if_pos hmark, ClassName.mirrors_walk]
      exact (outcome_map RefType.object _ (ClassName.scan ('L' :: rest))).symm
    · rw [if_neg hmark]
      split
      · exact absurd rfl hmark
      · exact (outcome_here _ _ _).symm
  | succ more =>
    have hlength : (back.takeWhile (· = '[')).length = more + 1 := hcount
    rw [hcount] at hsplit
    unfold scan
    simp only [hlength]
    by_cases hroom : more < 255
    · have helement :=
        (ElementType.mirrors_walk (back.dropWhile (· = '['))).behind front (List.replicate (more + 1) '[')
      rw [hsplit, utf8Length_replicate] at helement
      have hmore : more % 255 = more := Nat.mod_eq_of_lt hroom
      rw [if_pos (by omega), dif_pos hroom]
      simp only [bind, Except.bind, helement, hmore]
      exact (outcome_map (RefType.array ⟨more, hroom⟩) _ (ElementType.scan (back.dropWhile (· = '[')))).symm
    · have htake : back.take 255 = List.replicate 255 '[' := by
        rw [← hsplit, List.take_append_of_le_length (by rw [List.length_replicate]; omega), List.take_replicate,
          Nat.min_eq_left (by omega)]
      have htotal := congrArg utf8Length (List.take_append_drop 255 back)
      rw [utf8Length_append, htake, utf8Length_replicate] at htotal
      rw [if_neg (by omega), dif_neg hroom, ← htotal, ← Nat.add_assoc]
      exact (outcome_here _ _ _).symm

end RefType

theorem FieldType.mirrors_walk : Mirrors walk scan := by
  intro back front
  unfold walk
  simp only [peek_eq_some_iff (c := 'L') (by decide), peek_eq_some_iff (c := '[') (by decide)]
  cases back with
  | nil =>
    rw [if_neg (by simp), BaseType.mirrors_walk]
    exact (outcome_here _ _ []).symm
  | cons c rest =>
    unfold scan
    simp only [List.head?_cons, Option.some.injEq]
    by_cases href : c = 'L' ∨ c = '['
    · rw [if_pos href, if_pos href, RefType.mirrors_walk]
      cases RefType.scan (c :: rest) <;> rfl
    · rw [if_neg href, if_neg href, BaseType.mirrors_walk]
      unfold BaseType.scan
      cases hfound : BaseType.ofTag? c with
      | none =>
        simp only [hfound]
        exact (outcome_here _ _ _).symm
      | some type =>
        simp only [hfound]
        rfl

namespace MethodDescriptor

theorem mirrors_walkReturn : Mirrors walkReturn scanReturn := by
  intro back front
  unfold walkReturn
  simp only [peek_eq_some_iff (c := 'V') (by decide)]
  by_cases hmark : back.head? = some 'V'
  · obtain ⟨rest, rfl⟩ := List.head?_eq_some_iff.1 hmark
    rw [if_pos hmark, goTo_next (c := 'V') (by decide)]
    exact (outcome_next (by decide) _ _ _).symm
  · rw [if_neg hmark, FieldType.mirrors_walk]
    have hscan : scanReturn back = (FieldType.scan back).map fun found => (some found.1, found.2) := by
      unfold scanReturn
      split
      · exact absurd rfl hmark
      · rfl
    rw [hscan]
    exact (outcome_map some _ (FieldType.scan back)).symm

theorem walkParameters_eq (text : String) (place : Nat) : walkParameters text place =
    if peek text place = some ')'.toUInt8 then do return ([], ← goTo text (place + 1))
    else if (utf8Bytes text).length ≤ place then .error (.stopped place .parametersEnd)
    else
      match FieldType.walk text place with
      | .error problem => .error problem
      | .ok (type, next) => do
        let (types, last) ← walkParameters text next
        return (type :: types, last) := by
  rw [walkParameters]
  split
  · rfl
  · split
    · rfl
    · cases FieldType.walk text place <;> rfl

theorem walkParameters_field {back : List Char} (nonempty : back ≠ []) (inside : back.head? ≠ some ')')
    (front : List Char) :
    walkParameters (String.ofList (front ++ back)) (utf8Length front) =
      match outcome (utf8Length front + utf8Length back) (FieldType.scan back) with
      | .error problem => .error problem
      | .ok (type, next) => do
        let (types, last) ← walkParameters (String.ofList (front ++ back)) next
        return (type :: types, last) := by
  have hbytes : (utf8Bytes (String.ofList (front ++ back))).length = utf8Length front + utf8Length back := by
    rw [utf8Bytes_ofList, length_flatMap_utf8, utf8Length_append]
  have hpos : 0 < utf8Length back := by
    cases back with
    | nil => exact absurd rfl nonempty
    | cons c rest => exact Nat.add_pos_left c.utf8Size_pos _
  rw [walkParameters_eq, hbytes, if_neg (mt (peek_eq_some_iff (by decide) front back).1 inside), if_neg (by omega),
    FieldType.mirrors_walk]

theorem scanParameters_field {back : List Char} (nonempty : back ≠ []) (inside : back.head? ≠ some ')') :
    scanParameters back = match FieldType.scan back with
      | .error stop => .error stop
      | .ok (type, rest) => (scanParameters rest).map fun found => (type :: found.1, found.2) := by
  fun_cases scanParameters back with
  | case1 => exact absurd rfl nonempty
  | case2 => exact absurd rfl inside
  | case3 _ _ _ stop hstop => simp only [hstop]
  | case4 _ _ _ type rest hrest stop hstop =>
    simp only [hrest, hstop]
    rfl
  | case5 _ _ _ type rest hrest types last hlast =>
    simp only [hrest, hlast]
    rfl

theorem mirrors_walkParameters : Mirrors walkParameters scanParameters := by
  intro back
  induction hlength : back.length using Nat.strongRecOn generalizing back with
  | ind length ih =>
    intro front
    by_cases hend : back = []
    · subst hend
      have hnone := mt (peek_eq_some_iff (c := ')') (by decide) front []).1 (by simp)
      rw [walkParameters_eq, if_neg hnone, utf8Bytes_ofList, length_flatMap_utf8, List.append_nil,
        if_pos (Nat.le_refl _), scanParameters]
      exact (outcome_here _ _ []).symm
    by_cases hmark : back.head? = some ')'
    · obtain ⟨rest, rfl⟩ := List.head?_eq_some_iff.1 hmark
      rw [walkParameters_eq, if_pos ((peek_eq_some_iff (c := ')') (by decide) front _).2 rfl),
        goTo_next (c := ')') (by decide), scanParameters]
      exact (outcome_next (c := ')') (by decide) _ _ _).symm
    rw [walkParameters_field hend hmark, scanParameters_field hend hmark]
    cases hfield : FieldType.scan back with
    | error stop => rfl
    | ok found =>
      obtain ⟨type, rest⟩ := found
      have hrest := (ih rest.length (hlength ▸ FieldType.scan_length hfield) rest rfl).rest
        (FieldType.scans_scan _ _ _ hfield) front
      show (do let (types, last) ← walkParameters _ (_ - _); return (type :: types, last)) = _
      rw [hrest]
      exact (outcome_map (type :: ·) _ (scanParameters rest)).symm

theorem mirrors_walk : Mirrors walk scan := by
  intro back front
  unfold walk
  simp only [peek_eq_some_iff (c := '(') (by decide)]
  by_cases hmark : back.head? = some '('
  · obtain ⟨rest, rfl⟩ := List.head?_eq_some_iff.1 hmark
    rw [if_pos hmark, goTo_next (c := '(') (by decide)]
    unfold scan
    simp only [bind, Except.bind]
    rw [(mirrors_walkParameters rest).next (by decide)]
    cases hparameters : scanParameters rest with
    | error stop => rfl
    | ok found =>
      obtain ⟨parameters, after⟩ := found
      have hback : '(' :: rest = '(' :: (parameters.flatMap FieldType.chars ++ [')']) ++ after :=
        congrArg ('(' :: ·) (scans_scanParameters _ _ _ hparameters)
      have hreturn := (mirrors_walkReturn after).rest hback front
      simp only [outcome]
      rw [hreturn]
      cases hreturn : scanReturn after <;> rfl
  · rw [if_neg hmark]
    unfold scan
    split
    · exact absurd rfl hmark
    · exact (outcome_here _ _ _).symm

end MethodDescriptor

/-- Over a whole text a walker finds what the scanner finds, and stops where it stops. -/
theorem Descriptor.Mirrors.walkAll_eq {α : Type} {walk : Walker α} {scan : Scanner α} {chars : α → List Char}
    (h : Mirrors walk scan) (scans : Scans scan chars) (text : String) :
    walkAll walk text = (parseAll scan text).mapError fun e => .stopped e.position e.expected := by
  have hwalk := h text.toList []
  have hlength : (utf8Bytes text).length = utf8Length text.toList := by
    rw [← String.ofList_toList (s := text), utf8Bytes_ofList, length_flatMap_utf8, String.ofList_toList]
  rw [List.nil_append, String.ofList_toList] at hwalk
  change walk text 0 = outcome (0 + utf8Length text.toList) _ at hwalk
  rw [Nat.zero_add] at hwalk
  unfold walkAll parseAll
  rw [hwalk, hlength]
  cases hscan : scan text.toList with
  | error stop => rfl
  | ok found =>
    obtain ⟨value, rest⟩ := found
    simp only [outcome, bind, Except.bind]
    cases rest with
    | nil => exact if_pos (Nat.le_refl _)
    | cons c rest =>
      have hpos := c.utf8Size_pos
      have htext := congrArg utf8Length (scans _ _ _ hscan)
      rw [utf8Length_append, utf8Length_cons] at htext
      exact if_neg (by rw [utf8Length_cons]; omega)

/-- How often a type is an array of something. -/
def FieldType.dimensions : FieldType → Nat
  | .ref (.array more _) => more.val + 1
  | _ => 0

theorem RefType.elementType?_arrayOf {type : FieldType} (h : type.dimensions < 255) :
    (arrayOf type).elementType? = some type := by
  cases type with
  | base type => rfl
  | ref type =>
    cases type with
    | object name => rfl
    | array more element =>
      have hmore : more.val + 1 < 255 := h
      have harray : arrayOf (.ref (.array more element)) = .array ⟨more.val + 1, hmore⟩ element := dif_pos hmore
      rw [harray]
      rfl

theorem FieldType.parse_eq_ok {text : String} {type : FieldType} : parse text = .ok type ↔ type.render = text :=
  ⟨scans_scan.render_eq, fun h => h ▸ rescans_scan.parse_eq type⟩

theorem RefType.parse_eq_ok {text : String} {type : RefType} : parse text = .ok type ↔ type.render = text :=
  ⟨scans_scan.render_eq, fun h => h ▸ rescans_scan.parse_eq type⟩

/-- A class constant names a class by its name and an array by its descriptor, which no class has for a name. -/
theorem RefType.ofClassName_eq_ok {text : String} {type : RefType} :
    ofClassName text = .ok type ↔ type.className = text := by
  unfold ofClassName
  split
  · next tail htext =>
    rw [parse_eq_ok]
    cases type with
    | object name =>
      refine iff_of_false (fun h => ?_) fun h => ?_
      · have hchars := congrArg String.toList h
        rw [htext] at hchars
        unfold render at hchars
        rw [String.toList_ofList] at hchars
        cases hchars
      · have hmem : '[' ∈ text.toList := htext ▸ List.mem_cons_self
        have hname : name.text = text := h
        rw [← hname] at hmem
        exact name.mark_notMem (.inr (.inr rfl)) hmem
    | array more element => exact Iff.rfl
  · next htext =>
    have hname : (∃ name, ClassName.ofString text = .ok name ∧ RefType.object name = type) ↔ type.className = text := by
      constructor
      · rintro ⟨name, hname, rfl⟩
        exact ClassName.text_of_ofString hname
      · rintro rfl
        cases type with
        | object name => exact ⟨name, ClassName.ofString_text name, rfl⟩
        | array more element =>
          have hchars : (array more element).className.toList = '[' :: (List.replicate more.val '[' ++ element.chars) :=
            String.toList_ofList
          exact (htext _ hchars).elim
    rw [← hname]
    cases ClassName.ofString text with
    | ok name => simp
    | error problem => simp

/-- A descriptor is read from its rendering and from no other text, and so is the name in a class constant. Arrays have
the elements they are made of. Reading by bytes gives the same and never comes to a place inside a character. -/
theorem Descriptor.reads_renderings :
    (∀ text type, FieldType.parse text = .ok type ↔ type.render = text) ∧
    (∀ text descriptor, MethodDescriptor.parse text = .ok descriptor ↔ descriptor.render = text) ∧
    (∀ text type, RefType.ofClassName text = .ok type ↔ type.className = text) ∧
    (∀ type : FieldType, type.dimensions < 255 → (RefType.arrayOf type).elementType? = some type) ∧
    ∀ text,
      walkAll FieldType.walk text = (FieldType.parse text).mapError (fun e => .stopped e.position e.expected) ∧
      walkAll RefType.walk text = (RefType.parse text).mapError (fun e => .stopped e.position e.expected) ∧
      walkAll MethodDescriptor.walk text =
        (MethodDescriptor.parse text).mapError (fun e => .stopped e.position e.expected) :=
  ⟨fun _ _ => FieldType.parse_eq_ok, fun _ _ => MethodDescriptor.parse_eq_ok.trans eq_comm,
    fun _ _ => RefType.ofClassName_eq_ok, fun _ => RefType.elementType?_arrayOf,
    fun text => ⟨FieldType.mirrors_walk.walkAll_eq FieldType.scans_scan text,
      RefType.mirrors_walk.walkAll_eq RefType.scans_scan text,
      MethodDescriptor.mirrors_walk.walkAll_eq MethodDescriptor.scans_scan text⟩⟩

/-- A method that takes a class with letters of two and of four bytes, and arrays of the most dimensions. -/
theorem Descriptor.reads_renderings_lettered :
    MethodDescriptor.parse "(Lé/𝄞;J)V" =
      .ok ⟨[.ref (.object ⟨"é/𝄞", by decide⟩), .base .long], none⟩ ∧
    walkAll MethodDescriptor.walk "(Lé/𝄞;J)V" = .ok ⟨[.ref (.object ⟨"é/𝄞", by decide⟩), .base .long], none⟩ ∧
    (RefType.arrayOf (.ref (.array 253 (.base .int)))).elementType? = some (.ref (.array 253 (.base .int))) := by
  have hparse :=
    (reads_renderings.2.1 "(Lé/𝄞;J)V" ⟨[.ref (.object ⟨"é/𝄞", by decide⟩), .base .long], none⟩).2 (by decide)
  refine ⟨hparse, ?_, reads_renderings.2.2.2.1 _ (by decide)⟩
  rw [(reads_renderings.2.2.2.2 _).2.2, hparse]
  rfl

end ClassWeave
