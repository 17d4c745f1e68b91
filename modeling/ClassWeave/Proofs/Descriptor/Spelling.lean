import ClassWeave.Proofs.Descriptor.Rendering
import ClassWeave.Signature
import Mathlib.Data.List.TakeDrop
import Mathlib.Data.List.TakeWhile

/-!
Signatures and their texts. The descriptor of a text starts at the first parenthesis and the name behind the last dot
before it, so a signature is read from its own text, unless a parenthesis stands in its owner or its name. A text that
is read is shown again but for the dots of its owner.
-/

namespace ClassWeave

section Cut

variable {separator : Char} {text before behind : List Char}

theorem splitLast?_eq_none : splitLast? separator text = none ↔ separator ∉ text := by
  induction text with
  | nil => simp [splitLast?]
  | cons c rest ih =>
    unfold splitLast?
    cases hrest : splitLast? separator rest with
    | none =>
      have hnot := ih.1 hrest
      by_cases hc : c = separator
      · simp [hc]
      · simp [hc, hnot, Ne.symm hc]
    | some parts =>
      have hmem : separator ∈ rest := by
        by_contra h
        rw [ih.2 h] at hrest
        cases hrest
      simp [hmem]

theorem splitLast?_append (last : separator ∉ behind) :
    splitLast? separator (before ++ separator :: behind) = some (before, behind) := by
  induction before with
  | nil =>
    rw [List.nil_append, splitLast?, splitLast?_eq_none.2 last]
    exact if_pos rfl
  | cons c before ih => rw [List.cons_append, splitLast?, ih]

theorem eq_of_splitLast? (h : splitLast? separator text = some (before, behind)) :
    text = before ++ separator :: behind ∧ separator ∉ behind := by
  fun_induction splitLast? separator text generalizing before with
  | case1 => cases h
  | case2 c rest front back hrest ih =>
    cases h
    obtain ⟨htext, hnot⟩ := ih hrest
    exact ⟨congrArg (List.cons c) htext, hnot⟩
  | case3 rest hnone =>
    cases h
    exact ⟨rfl, splitLast?_eq_none.1 hnone⟩
  | case4 c rest hnone hne => cases h

end Cut

namespace MemberName

theorem text_of_ofString {text : String} {name : MemberName} (h : ofString text = .ok name) : name.text = text := by
  unfold ofString at h
  split at h
  · cases h
    rfl
  · cases h

theorem ofString_text (name : MemberName) : ofString name.text = .ok name := by
  unfold ofString
  split
  · rfl
  · next problem hproblem =>
    rw [name.wellFormed] at hproblem
    cases hproblem

theorem dot_notMem (name : MemberName) : '.' ∉ name.text.toList :=
  mark_notMem_of_nameProblem name.wellFormed (.inl rfl)

end MemberName

namespace ClassName

variable {text : String} {name : ClassName}

/-- A text without the character is left alone. -/
theorem exchange_eq_self {old new : Char} (h : old ∉ text.toList) : exchange old new text = text := by
  have hmap : (text.toList.map fun c => if c = old then new else c) = text.toList := by
    conv_rhs => rw [← List.map_id text.toList]
    refine List.map_congr_left fun c hc => ?_
    have hne : c ≠ old := fun he => h (he ▸ hc)
    rw [if_neg hne, id]
  unfold exchange
  rw [hmap, String.ofList_toList]

theorem mem_exchange {c old new : Char} (hold : c ≠ old) (hnew : c ≠ new) :
    c ∈ (exchange old new text).toList ↔ c ∈ text.toList := by
  unfold exchange
  rw [String.toList_ofList, List.mem_map]
  constructor
  · rintro ⟨d, hd, h⟩
    by_cases hdo : d = old
    · rw [if_pos hdo] at h
      exact (hnew h.symm).elim
    · rw [if_neg hdo] at h
      exact h ▸ hd
  · exact fun hc => ⟨c, hc, if_neg hold⟩

theorem ofQualified_eq_ok : ofQualified text = .ok name ↔ exchange '.' '/' text = name.text := by
  constructor
  · intro h
    exact (text_of_ofString h).symm
  · intro h
    unfold ofQualified
    rw [h]
    exact ofString_text name

end ClassName

namespace MethodSignature

variable {text owner name descriptor : String} {signature : MethodSignature}

/-- The descriptor of the text starts at its first parenthesis, and the name behind the last dot before that. -/
structure Splits (text owner name descriptor : String) : Prop where
  text_eq : text = owner ++ "." ++ name ++ descriptor
  starts : descriptor.toList.head? = some '('
  first : '(' ∉ owner.toList ∧ '(' ∉ name.toList
  last : '.' ∉ name.toList

theorem ofParts_eq_ok : ofParts owner name descriptor = .ok signature ↔
    ClassName.exchange '.' '/' owner = signature.owner.text ∧ signature.name.text = name ∧
      signature.descriptor.render = descriptor := by
  unfold ofParts
  constructor
  · intro h
    obtain ⟨found, howner, h⟩ := except_bind_eq_ok.1 h
    obtain ⟨member, hname, h⟩ := except_bind_eq_ok.1 h
    obtain ⟨type, htype, h⟩ := except_bind_eq_ok.1 h
    cases h
    exact ⟨ClassName.ofQualified_eq_ok.1 (mapError_eq_ok.1 howner),
      MemberName.text_of_ofString (mapError_eq_ok.1 hname),
      (MethodDescriptor.parse_eq_ok.1 (mapError_eq_ok.1 htype)).symm⟩
  · rintro ⟨howner, rfl, rfl⟩
    refine except_bind_eq_ok.2 ⟨signature.owner, mapError_eq_ok.2 (ClassName.ofQualified_eq_ok.2 howner), ?_⟩
    refine except_bind_eq_ok.2 ⟨signature.name, mapError_eq_ok.2 signature.name.ofString_text, ?_⟩
    exact except_bind_eq_ok.2 ⟨signature.descriptor, mapError_eq_ok.2 (MethodDescriptor.parse_eq_ok.2 rfl), rfl⟩

theorem Splits.exists_rest (h : Splits text owner name descriptor) : ∃ rest, descriptor.toList = '(' :: rest :=
  List.head?_eq_some_iff.1 h.starts

/-- What is in front of the first parenthesis, and the descriptor. -/
theorem Splits.span_eq (h : Splits text owner name descriptor) :
    text.toList.span (· ≠ '(') = (owner.toList ++ '.' :: name.toList, descriptor.toList) := by
  obtain ⟨rest, hrest⟩ := h.exists_rest
  have hchars : text.toList = (owner.toList ++ '.' :: name.toList) ++ '(' :: rest := by
    rw [h.text_eq, ← hrest]
    simp [String.toList_append]
  have hfront : ∀ c ∈ owner.toList ++ '.' :: name.toList, decide (c ≠ '(') = true := by
    intro c hc
    have hne : c ≠ '(' := by
      rintro rfl
      rcases List.mem_append.1 hc with hc | hc
      · exact h.first.1 hc
      · rcases List.mem_cons.1 hc with hc | hc
        · revert hc
          decide
        · exact h.first.2 hc
    simpa using hne
  rw [List.span_eq_takeWhile_dropWhile, hchars, List.takeWhile_append_of_pos hfront,
    List.dropWhile_append_of_pos hfront, hrest]
  simp

theorem splits_of_span {head behind : List Char} {owner name : List Char}
    (hspan : text.toList.span (· ≠ '(') = (head, behind)) (present : behind ≠ [])
    (hcut : splitLast? '.' head = some (owner, name)) :
    Splits text (String.ofList owner) (String.ofList name) (String.ofList behind) := by
  rw [List.span_eq_takeWhile_dropWhile, Prod.mk.injEq] at hspan
  obtain ⟨hhead, hbehind⟩ := hspan
  obtain ⟨hparts, hlast⟩ := eq_of_splitLast? hcut
  have hfirst : '(' ∉ head := by
    rw [← hhead]
    intro hm
    simpa using List.mem_takeWhile_imp hm
  rw [hparts, List.mem_append, List.mem_cons, not_or, not_or] at hfirst
  refine ⟨?_, ?_, ?_, ?_⟩
  · have htext : text.toList = head ++ behind := by
      rw [← hhead, ← hbehind, List.takeWhile_append_dropWhile]
    rw [← String.toList_inj, htext, hparts]
    simp [String.toList_append]
  · obtain ⟨c, rest, rfl⟩ := List.exists_cons_of_ne_nil present
    have hc := List.head?_dropWhile_not (fun c : Char => decide (c ≠ '(')) text.toList
    rw [hbehind] at hc
    rw [String.toList_ofList, List.head?_cons]
    simpa using hc
  · rw [String.toList_ofList, String.toList_ofList]
    exact ⟨hfirst.1, hfirst.2.2⟩
  · rwa [String.toList_ofList]

/-- The signatures that a text is read as. -/
theorem parse_eq_ok : parse text = .ok signature ↔
    ∃ owner, Splits text owner signature.name.text signature.descriptor.render ∧
      ClassName.exchange '.' '/' owner = signature.owner.text := by
  constructor
  · intro h
    unfold parse at h
    split at h
    · cases h
    · next head behind hsome hspan =>
      cases hcut : splitLast? '.' head with
      | none =>
        rw [hcut] at h
        cases h
      | some parts =>
        obtain ⟨owner, name⟩ := parts
        rw [hcut] at h
        obtain ⟨howner, hname, hdescriptor⟩ := ofParts_eq_ok.1 h
        rw [hname, hdescriptor]
        exact ⟨_, splits_of_span hspan hsome hcut, howner⟩
  · rintro ⟨owner, hsplits, howner⟩
    obtain ⟨rest, hrest⟩ := hsplits.exists_rest
    unfold parse
    rw [hsplits.span_eq, hrest]
    dsimp only
    rw [splitLast?_append hsplits.last, ← hrest]
    dsimp only
    rw [String.ofList_toList, String.ofList_toList, String.ofList_toList]
    exact ofParts_eq_ok.2 ⟨howner, rfl, rfl⟩

/-- No parenthesis stands in the owner or the name. -/
def Plain (signature : MethodSignature) : Prop :=
  '(' ∉ signature.owner.text.toList ∧ '(' ∉ signature.name.text.toList

theorem Plain.splits (plain : signature.Plain) :
    Splits signature.text signature.owner.text signature.name.text signature.descriptor.render where
  text_eq := rfl
  starts := by
    rw [MethodDescriptor.render, String.toList_ofList]
    rfl
  first := plain
  last := signature.name.dot_notMem

theorem Plain.parse_text (plain : signature.Plain) : parse signature.text = .ok signature :=
  parse_eq_ok.2 ⟨_, plain.splits, ClassName.exchange_eq_self (signature.owner.mark_notMem (.inl rfl))⟩

/-- A signature is read from its own text, and is the only one with that text. A text that is read as a signature is the
signature's text but for the dots of its owner, which become slashes. -/
theorem reads_spellings :
    (∀ owner name descriptor signature, ofParts owner name descriptor = .ok signature → '(' ∉ owner.toList →
      '(' ∉ name.toList → parse signature.text = .ok signature) ∧
    (∀ text signature, parse text = .ok signature → ∃ owner name descriptor, Splits text owner name descriptor ∧
      signature.text = ClassName.exchange '.' '/' owner ++ "." ++ name ++ descriptor) ∧
    ∀ a b : MethodSignature, a.Plain → b.Plain → a.text = b.text → a = b := by
  refine ⟨fun owner name descriptor signature h howner hname => ?_, fun text signature h => ?_,
    fun a b plain plain' h => ?_⟩
  · obtain ⟨hslashed, rfl, -⟩ := ofParts_eq_ok.1 h
    have plain : '(' ∉ signature.owner.text.toList := by
      rwa [← hslashed, ClassName.mem_exchange (by decide) (by decide)]
    exact Plain.parse_text ⟨plain, hname⟩
  · obtain ⟨owner, hsplits, howner⟩ := parse_eq_ok.1 h
    exact ⟨owner, _, _, hsplits, by rw [howner]; rfl⟩
  · have hread := plain.parse_text
    rw [h, plain'.parse_text] at hread
    exact (Except.ok.inj hread).symm

/-- An owner with dots, and a parenthesis in the name of a parameter's class. -/
theorem reads_spellings_dotted :
    let signature : MethodSignature := ⟨⟨"java/util/Map", by decide⟩, ⟨"get", by decide⟩,
      ⟨[.ref (.object ⟨"a(b", by decide⟩), .ref (.array 0 (.base .long))], none⟩⟩
    ofParts "java.util.Map" "get" "(La(b;[J)V" = .ok signature ∧ parse signature.text = .ok signature ∧
      parse "java.util.Map.get(La(b;[J)V" = .ok signature ∧
      (∃ owner name descriptor, Splits "java.util.Map.get(La(b;[J)V" owner name descriptor ∧
        signature.text = ClassName.exchange '.' '/' owner ++ "." ++ name ++ descriptor) ∧
      ∀ other : MethodSignature, other.Plain → other.text = "java/util/Map.get(La(b;[J)V" → other = signature := by
  intro signature
  have h : ofParts "java.util.Map" "get" "(La(b;[J)V" = .ok signature :=
    ofParts_eq_ok.2 ⟨by decide, rfl, by decide⟩
  have dotted : parse "java.util.Map.get(La(b;[J)V" = .ok signature :=
    parse_eq_ok.2 ⟨"java.util.Map", ⟨by decide, by decide, by decide, by decide⟩, by decide⟩
  obtain ⟨own, shown, unique⟩ := reads_spellings
  exact ⟨h, own _ _ _ _ h (by decide) (by decide), dotted, shown _ _ dotted,
    fun other plain htext => unique other signature plain ⟨by decide, by decide⟩ (htext.trans (by decide))⟩

end MethodSignature

end ClassWeave
