import ClassWeave.Descriptor.Parse
import ClassWeave.Proofs.Steps

/-!
Reading a descriptor loses nothing, and so does writing one: what a scanner takes off the front of a text
is the rendering of what it gives, and it takes any rendering.
-/

namespace ClassWeave

open Descriptor

/-- The scanner takes the characters of the value it gives off the front of the text. -/
def Scans {α : Type} (scan : Scanner α) (chars : α → List Char) : Prop :=
  ∀ text value rest, scan text = .ok (value, rest) → text = chars value ++ rest

theorem Scans.render_eq {α : Type} {scan : Scanner α} {chars : α → List Char} (h : Scans scan chars)
    {text : String} {value : α} (hparse : parseAll scan text = .ok value) :
    String.ofList (chars value) = text := by
  unfold parseAll at hparse
  dsimp only at hparse
  cases hscan : scan text.toList with
  | error stop =>
    rw [hscan] at hparse
    cases hparse
  | ok found =>
    obtain ⟨first, rest⟩ := found
    rw [hscan] at hparse
    cases rest with
    | cons c rest => cases hparse
    | nil =>
      have hfirst : first = value := Except.ok.inj hparse
      have htext : text.toList = chars first ++ [] := h _ _ _ hscan
      rw [← hfirst, ← List.append_nil (chars first), ← htext, String.ofList_toList]

theorem BaseType.tag_of_ofTag? {c : Char} {type : BaseType} (h : ofTag? c = some type) : type.tag = c := by
  unfold ofTag? at h
  split at h <;> simp_all [tag]
  all_goals (subst h; rfl)

theorem BaseType.scans_scan : Scans BaseType.scan fun type => [type.tag] := by
  intro text type rest h
  cases text with
  | nil => cases h
  | cons c after =>
    unfold BaseType.scan at h
    dsimp only at h
    split at h
    · next found htag =>
      cases h
      show c :: rest = [type.tag] ++ rest
      rw [tag_of_ofTag? htag, List.singleton_append]
    · cases h

theorem ClassName.text_of_ofString {text : String} {name : ClassName}
    (h : ClassName.ofString text = .ok name) : name.text = text := by
  unfold ClassName.ofString at h
  split at h
  · cases h
    rfl
  · cases h

theorem ClassName.scans_scan : Scans ClassName.scan fun name => (ElementType.object name).chars := by
  intro text name rest h
  unfold ClassName.scan at h
  split at h
  · next body =>
    split at h
    · cases h
    · next last after hdrop =>
      split at h
      · next found hname =>
        cases h
        have hlast : last = ';' := by
          have hhead := List.head?_dropWhile_not (fun c : Char => decide (c ≠ ';')) body
          rw [hdrop] at hhead
          simpa using hhead
        have hbody : body = body.takeWhile (· ≠ ';') ++ ';' :: rest := by
          have hsplit := List.takeWhile_append_dropWhile (p := fun c : Char => decide (c ≠ ';')) (l := body)
          rw [hdrop, hlast] at hsplit
          exact hsplit.symm
        have htext : name.text.toList = body.takeWhile (· ≠ ';') := by
          rw [text_of_ofString hname, String.toList_ofList]
        show 'L' :: body = 'L' :: name.text.toList ++ [';'] ++ rest
        rw [htext, List.append_assoc, List.singleton_append, List.cons_append, ← hbody]
      · cases h
  · cases h

theorem ElementType.scans_scan : Scans ElementType.scan ElementType.chars := by
  intro text type rest h
  unfold ElementType.scan at h
  split at h
  · obtain ⟨⟨name, after⟩, hname, h⟩ := except_bind_eq_ok.1 h
    cases h
    exact ClassName.scans_scan _ _ _ hname
  · obtain ⟨⟨base, after⟩, hbase, h⟩ := except_bind_eq_ok.1 h
    cases h
    exact BaseType.scans_scan _ _ _ hbase

theorem RefType.scans_scan : Scans RefType.scan RefType.chars := by
  intro text type rest h
  have hbrackets : text.takeWhile (· = '[') = List.replicate (text.takeWhile (· = '[')).length '[' := by
    apply List.eq_replicate_of_mem
    intro c hc
    have hall := List.all_takeWhile (p := fun c : Char => decide (c = '[')) (l := text)
    simpa using List.all_eq_true.1 hall c hc
  unfold RefType.scan at h
  split at h
  · split at h
    · obtain ⟨⟨name, after⟩, hname, h⟩ := except_bind_eq_ok.1 h
      cases h
      exact ClassName.scans_scan _ _ _ hname
    · cases h
  · next more hlength =>
    rw [Nat.succ_eq_add_one] at hlength
    split at h
    · obtain ⟨⟨element, after⟩, helement, h⟩ := except_bind_eq_ok.1 h
      cases h
      have hrest := ElementType.scans_scan _ _ _ helement
      show text = List.replicate (more + 1) '[' ++ element.chars ++ rest
      rw [← hlength, ← hbrackets, List.append_assoc, ← hrest, List.takeWhile_append_dropWhile]
    · cases h

theorem FieldType.scans_scan : Scans FieldType.scan FieldType.chars := by
  intro text type rest h
  cases text with
  | nil => cases h
  | cons c after =>
    unfold FieldType.scan at h
    dsimp only at h
    split at h
    · split at h
      · next found behind hfound =>
        cases h
        exact RefType.scans_scan _ _ _ hfound
      · cases h
    · split at h
      · next base htag =>
        cases h
        show c :: rest = [base.tag] ++ rest
        rw [BaseType.tag_of_ofTag? htag, List.singleton_append]
      · cases h

namespace MethodDescriptor

theorem scans_scanParameters : Scans scanParameters fun types => types.flatMap FieldType.chars ++ [')'] := by
  intro text types rest h
  fun_induction scanParameters text generalizing types rest with
  | case1 => cases h
  | case2 after =>
    cases h
    rfl
  | case3 => cases h
  | case4 => cases h
  | case5 text _ _ type after hfirst others behind hothers ih =>
    cases h
    have hrest := ih _ _ hothers
    rw [FieldType.scans_scan _ _ _ hfirst, hrest]
    simp only [List.flatMap_cons, List.append_assoc]

theorem scans_scanReturn : Scans scanReturn fun type => (⟨[], type⟩ : MethodDescriptor).returnChars := by
  intro text type rest h
  unfold scanReturn at h
  split at h
  · cases h
    rfl
  · obtain ⟨⟨found, after⟩, hfound, h⟩ := except_bind_eq_ok.1 h
    cases h
    exact FieldType.scans_scan _ _ _ hfound

theorem scans_scan : Scans scan MethodDescriptor.chars := by
  intro text descriptor rest h
  unfold scan at h
  split at h
  · obtain ⟨⟨parameters, after⟩, hparameters, h⟩ := except_bind_eq_ok.1 h
    obtain ⟨⟨returnType, behind⟩, hreturn, h⟩ := except_bind_eq_ok.1 h
    cases h
    have hrest := scans_scanReturn _ _ _ hreturn
    rw [scans_scanParameters _ _ _ hparameters, hrest]
    simp [chars, returnChars]
  · cases h

end MethodDescriptor

/-- The scanner gives a value back from its characters, and leaves what is behind them. -/
def Rescans {α : Type} (scan : Scanner α) (chars : α → List Char) : Prop :=
  ∀ value rest, scan (chars value ++ rest) = .ok (value, rest)

theorem Rescans.parse_eq {α : Type} {scan : Scanner α} {chars : α → List Char} (h : Rescans scan chars)
    (value : α) : parseAll scan (String.ofList (chars value)) = .ok value := by
  have hscan := h value []
  rw [List.append_nil] at hscan
  unfold parseAll
  dsimp only
  rw [String.toList_ofList, hscan]

/-- Every character but a separator is in one of the pieces. -/
theorem mem_segments {separator c : Char} {text : List Char} (hm : c ∈ text) (hne : c ≠ separator) :
    ∃ piece ∈ segments separator text, c ∈ piece := by
  induction text with
  | nil => cases hm
  | cons head rest ih =>
    unfold segments
    rcases List.mem_cons.1 hm with rfl | hrest
    · rw [if_neg hne]
      split
      · exact ⟨_, List.mem_cons_self, List.mem_cons_self⟩
      · exact ⟨_, List.mem_cons_self, List.mem_cons_self⟩
    · obtain ⟨piece, hpiece, hc⟩ := ih hrest
      split
      · exact ⟨piece, List.mem_cons_of_mem _ hpiece, hc⟩
      · split
        · next hnone =>
          rw [hnone] at hpiece
          cases hpiece
        · next first others hsome =>
          rw [hsome] at hpiece
          rcases List.mem_cons.1 hpiece with rfl | hpiece
          · exact ⟨_, List.mem_cons_self, List.mem_cons_of_mem _ hc⟩
          · exact ⟨piece, List.mem_cons_of_mem _ hpiece, hc⟩

/-- A name has no character that descriptors and paths give a meaning. -/
theorem mark_notMem_of_nameProblem {allowSpecial : Bool} {name : List Char}
    (h : nameProblem allowSpecial name = none) {mark : Char}
    (hmark : mark = '.' ∨ mark = ';' ∨ mark = '[' ∨ mark = '/') : mark ∉ name := by
  intro hm
  unfold nameProblem at h
  dsimp only at h
  split at h
  · cases h
  · split at h
    · cases h
    · next hfind =>
      rw [List.find?_eq_none] at hfind
      exact hfind mark hm (by simp [hmark])

/-- No name of a class holds a character that descriptors give a meaning. -/
theorem ClassName.mark_notMem {mark : Char} (hmark : mark = '.' ∨ mark = ';' ∨ mark = '[') (name : ClassName) :
    mark ∉ name.text.toList := by
  intro hm
  have hne : mark ≠ '/' := by
    rintro rfl
    revert hmark
    decide
  obtain ⟨piece, hpiece, hc⟩ := mem_segments hm hne
  have hproblem : nameProblem false piece = none := by
    have hwell := name.wellFormed
    unfold classNameProblem at hwell
    rw [Option.map_eq_none_iff, List.findSome?_eq_none_iff] at hwell
    exact hwell piece hpiece
  exact mark_notMem_of_nameProblem hproblem (by tauto) hc

theorem ClassName.ofString_text (name : ClassName) : ClassName.ofString name.text = .ok name := by
  unfold ClassName.ofString
  split
  · rfl
  · next problem hproblem =>
    rw [name.wellFormed] at hproblem
    cases hproblem

theorem ClassName.rescans_scan : Rescans ClassName.scan fun name => (ElementType.object name).chars := by
  intro name rest
  have hall : ∀ c ∈ name.text.toList, decide (c ≠ ';') = true := fun c hc => by
    have : c ≠ ';' := fun h => name.mark_notMem (.inr (.inl rfl)) (h ▸ hc)
    simpa using this
  have htake : (name.text.toList ++ ';' :: rest).takeWhile (· ≠ ';') = name.text.toList := by
    rw [List.takeWhile_append_of_pos hall]
    simp
  have hdrop : (name.text.toList ++ ';' :: rest).dropWhile (· ≠ ';') = ';' :: rest := by
    rw [List.dropWhile_append_of_pos hall]
    simp
  have hchars : (ElementType.object name).chars ++ rest = 'L' :: (name.text.toList ++ ';' :: rest) := by
    simp [ElementType.chars]
  rw [hchars]
  unfold ClassName.scan
  simp only [hdrop, htake, String.ofList_toList, ofString_text]

theorem BaseType.ofTag?_tag (type : BaseType) : ofTag? type.tag = some type := by
  cases type <;> rfl

theorem BaseType.tag_ne (type : BaseType) :
    type.tag ≠ 'L' ∧ type.tag ≠ '[' ∧ type.tag ≠ ')' ∧ type.tag ≠ 'V' := by
  cases type <;> decide

theorem ElementType.rescans_scan : Rescans ElementType.scan ElementType.chars := by
  intro type rest
  cases type with
  | object name =>
    have hscan := ClassName.rescans_scan name rest
    change ElementType.scan ('L' :: (name.text.toList ++ [';'] ++ rest)) = _
    change ClassName.scan ('L' :: (name.text.toList ++ [';'] ++ rest)) = _ at hscan
    unfold ElementType.scan
    exact except_bind_eq_ok.2 ⟨_, hscan, rfl⟩
  | base type =>
    change ElementType.scan (type.tag :: rest) = _
    unfold ElementType.scan
    split
    · next heq => exact absurd (List.cons.inj heq).1 type.tag_ne.1
    · unfold BaseType.scan
      simp only [BaseType.ofTag?_tag]
      rfl

/-- No element starts like an array. -/
theorem ElementType.chars_eq_cons (type : ElementType) : ∃ c more, type.chars = c :: more ∧ c ≠ '[' := by
  cases type with
  | object name => exact ⟨'L', _, rfl, by decide⟩
  | base type => exact ⟨type.tag, [], rfl, type.tag_ne.2.1⟩

theorem RefType.rescans_scan : Rescans RefType.scan RefType.chars := by
  intro type rest
  cases type with
  | object name =>
    have hscan := ClassName.rescans_scan name rest
    change RefType.scan ('L' :: (name.text.toList ++ [';'] ++ rest)) = _
    change ClassName.scan ('L' :: (name.text.toList ++ [';'] ++ rest)) = _ at hscan
    unfold RefType.scan
    simp only [hscan]
    rfl
  | array more element =>
    obtain ⟨c, behind, hchars, hne⟩ := element.chars_eq_cons
    have hall : ∀ c ∈ List.replicate (more.val + 1) '[', decide (c = '[') = true := fun c hc => by
      simpa using (List.mem_replicate.1 hc).2
    have htext : (RefType.array more element).chars ++ rest =
        List.replicate (more.val + 1) '[' ++ (element.chars ++ rest) := List.append_assoc _ _ _
    have htake : (List.replicate (more.val + 1) '[' ++ (element.chars ++ rest)).takeWhile (· = '[') =
        List.replicate (more.val + 1) '[' := by
      rw [List.takeWhile_append_of_pos hall, hchars, List.cons_append, List.takeWhile_cons_of_neg (by simpa using hne),
        List.append_nil]
    have hdrop : (List.replicate (more.val + 1) '[' ++ (element.chars ++ rest)).dropWhile (· = '[') =
        element.chars ++ rest := by
      rw [List.dropWhile_append_of_pos hall, hchars, List.cons_append, List.dropWhile_cons_of_neg (by simpa using hne)]
    rw [htext]
    unfold RefType.scan
    rw [htake, List.length_replicate, hdrop, ElementType.rescans_scan]
    simp only [more.isLt, dite_true]
    rfl

theorem FieldType.rescans_scan : Rescans FieldType.scan FieldType.chars := by
  intro type rest
  cases type with
  | base type =>
    have hne : ¬(type.tag = 'L' ∨ type.tag = '[') := not_or.2 ⟨type.tag_ne.1, type.tag_ne.2.1⟩
    change FieldType.scan (type.tag :: rest) = _
    unfold FieldType.scan
    simp only [if_neg hne, BaseType.ofTag?_tag]
  | ref type =>
    have hscan := RefType.rescans_scan type rest
    have hstart : ∃ c more, type.chars ++ rest = c :: more ∧ (c = 'L' ∨ c = '[') := by
      cases type with
      | object name => exact ⟨'L', _, rfl, .inl rfl⟩
      | array more element => exact ⟨'[', _, rfl, .inr rfl⟩
    obtain ⟨c, more, htext, hc⟩ := hstart
    change FieldType.scan (type.chars ++ rest) = _
    rw [htext] at hscan ⊢
    unfold FieldType.scan
    simp only [if_pos hc, hscan]

theorem FieldType.chars_eq_cons (type : FieldType) :
    ∃ c more, type.chars = c :: more ∧ c ≠ ')' ∧ c ≠ 'V' := by
  cases type with
  | base type => exact ⟨type.tag, [], rfl, type.tag_ne.2.2⟩
  | ref type =>
    cases type with
    | object name => exact ⟨'L', _, rfl, by decide, by decide⟩
    | array more element => exact ⟨'[', _, rfl, by decide, by decide⟩

namespace MethodDescriptor

theorem scanParameters_eq_ok {text after rest : List Char} {type : FieldType} {types : List FieldType}
    (some : text ≠ []) (inside : ∀ tail, text ≠ ')' :: tail) (hscan : FieldType.scan text = .ok (type, after))
    (h : scanParameters after = .ok (types, rest)) : scanParameters text = .ok (type :: types, rest) := by
  fun_cases scanParameters text with
  | case1 => exact (some rfl).elim
  | case2 tail => exact (inside tail rfl).elim
  | case3 _ _ _ stop hstop =>
    rw [hscan] at hstop
    cases hstop
  | case4 _ _ _ first behind hfirst stop hstop =>
    rw [hscan] at hfirst
    cases hfirst
    rw [h] at hstop
    cases hstop
  | case5 _ _ _ first behind hfirst others left hothers =>
    rw [hscan] at hfirst
    cases hfirst
    rw [h] at hothers
    cases hothers
    rfl

theorem rescans_scanParameters :
    Rescans scanParameters fun types => types.flatMap FieldType.chars ++ [')'] := by
  intro types rest
  induction types with
  | nil =>
    change scanParameters (')' :: rest) = _
    unfold scanParameters
    rfl
  | cons type types ih =>
    obtain ⟨c, more, hchars, hne, -⟩ := type.chars_eq_cons
    have hscan := FieldType.rescans_scan type (types.flatMap FieldType.chars ++ [')'] ++ rest)
    have htext : (type :: types).flatMap FieldType.chars ++ [')'] ++ rest =
        c :: (more ++ (types.flatMap FieldType.chars ++ [')'] ++ rest)) := by
      rw [List.flatMap_cons, hchars]
      simp
    rw [hchars, List.cons_append] at hscan
    dsimp only at ih
    dsimp only
    rw [htext]
    refine scanParameters_eq_ok (List.cons_ne_nil _ _) (fun tail heq => ?_) hscan ih
    exact hne (List.cons.inj heq).1

theorem rescans_scanReturn :
    Rescans scanReturn fun type => (⟨[], type⟩ : MethodDescriptor).returnChars := by
  intro type rest
  cases type with
  | none => rfl
  | some type =>
    obtain ⟨c, more, hchars, -, hne⟩ := type.chars_eq_cons
    have hscan := FieldType.rescans_scan type rest
    change scanReturn (type.chars ++ rest) = _
    rw [hchars, List.cons_append] at hscan ⊢
    unfold scanReturn
    split
    · next heq => exact absurd (List.cons.inj heq).1 hne
    · rw [hscan]
      rfl

theorem rescans_scan : Rescans scan MethodDescriptor.chars := by
  intro descriptor rest
  have htext : descriptor.chars ++ rest =
      '(' :: (descriptor.parameters.flatMap FieldType.chars ++ [')'] ++ (descriptor.returnChars ++ rest)) := by
    simp [chars]
  have hparameters := rescans_scanParameters descriptor.parameters (descriptor.returnChars ++ rest)
  have hreturn := rescans_scanReturn descriptor.returnType rest
  rw [htext]
  unfold scan
  exact except_bind_eq_ok.2 ⟨_, hparameters, except_bind_eq_ok.2 ⟨_, hreturn, rfl⟩⟩

/-- A descriptor is read from its rendering and from no other text. -/
theorem parse_eq_ok {text : String} {descriptor : MethodDescriptor} :
    parse text = .ok descriptor ↔ text = descriptor.render := by
  constructor
  · intro h
    exact (scans_scan.render_eq h).symm
  · intro h
    exact h ▸ rescans_scan.parse_eq descriptor

end MethodDescriptor

end ClassWeave
