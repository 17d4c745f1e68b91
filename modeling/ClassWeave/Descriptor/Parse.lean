import ClassWeave.Descriptor.Basic

/-!
Reading descriptors. A scanner takes the longest descriptor of its kind off the front of a text and
gives the rest; where it stops without one, it tells what it expected there.
-/

namespace ClassWeave

inductive Expectation where
  | endOfDescriptor
  | primitiveType
  | referenceType
  | fieldType
  | className
  | dimensions
  | classMark
  | classEnd
  | parametersStart
  | parametersEnd
  deriving DecidableEq, Repr

def Expectation.text : Expectation → String
  | .endOfDescriptor => "end of descriptor"
  | .primitiveType => "primitive type"
  | .referenceType => "reference type"
  | .fieldType => "field type"
  | .className => "class name"
  | .dimensions => "at most 255 array dimensions"
  | .classMark => "`L`"
  | .classEnd => "`;`"
  | .parametersStart => "`(`"
  | .parametersEnd => "`)`"

/-- A text that is no descriptor, with the byte offset at which reading stopped. -/
structure DescriptorError where
  descriptor : String
  position : Nat
  expected : Expectation
  deriving DecidableEq, Repr

namespace Descriptor

/-- Where a scanner gave up: what it expected, and the text still ahead. -/
structure Stop where
  expected : Expectation
  ahead : List Char

abbrev Scanner (α : Type) := List Char → Except Stop (α × List Char)

def utf8Length (text : List Char) : Nat := (text.map Char.utf8Size).foldr (· + ·) 0

/-- Runs a scanner over a whole text. -/
def parseAll {α : Type} (scan : Scanner α) (text : String) : Except DescriptorError α :=
  let fail (stop : Stop) : Except DescriptorError α :=
    .error ⟨text, utf8Length text.toList - utf8Length stop.ahead, stop.expected⟩
  match scan text.toList with
  | .error stop => fail stop
  | .ok (value, []) => .ok value
  | .ok (_, ahead) => fail ⟨.endOfDescriptor, ahead⟩

end Descriptor

open Descriptor

def BaseType.scan : Scanner BaseType
  | [] => .error ⟨.primitiveType, []⟩
  | c :: rest =>
    match ofTag? c with
    | some type => .ok (type, rest)
    | none => .error ⟨.primitiveType, c :: rest⟩

def BaseType.parse : String → Except DescriptorError BaseType := parseAll scan

/-- Class name between `L` and the first `;`. -/
def ClassName.scan : Scanner ClassName
  | 'L' :: rest =>
    match rest.dropWhile (· ≠ ';') with
    | [] => .error ⟨.classEnd, rest⟩
    | _ :: after =>
      match ClassName.ofString (String.ofList (rest.takeWhile (· ≠ ';'))) with
      | .ok name => .ok (name, after)
      | .error _ => .error ⟨.className, rest⟩
  | text => .error ⟨.classMark, text⟩

def ClassName.parseDescriptor : String → Except DescriptorError ClassName := parseAll scan

def ElementType.scan : Scanner ElementType
  | text@('L' :: _) => do
    let (name, rest) ← ClassName.scan text
    return (.object name, rest)
  | text => do
    let (type, rest) ← BaseType.scan text
    return (.base type, rest)

def RefType.scan : Scanner RefType := fun text =>
  match (text.takeWhile (· = '[')).length with
  | 0 =>
    match text with
    | 'L' :: _ => do
      let (name, rest) ← ClassName.scan text
      return (.object name, rest)
    | _ => .error ⟨.referenceType, text⟩
  | more + 1 =>
    if h : more < 255 then do
      let (element, rest) ← ElementType.scan (text.dropWhile (· = '['))
      return (.array ⟨more, h⟩ element, rest)
    else .error ⟨.dimensions, text.drop 255⟩

def RefType.parse : String → Except DescriptorError RefType := parseAll scan

/-- Inverse of `RefType.className`. -/
def RefType.ofClassName (text : String) : Except DescriptorError RefType :=
  match text.toList with
  | '[' :: _ => RefType.parse text
  | _ =>
    match ClassName.ofString text with
    | .ok name => .ok (.object name)
    | .error _ => .error ⟨text, 0, .className⟩

def FieldType.scan : Scanner FieldType
  | [] => .error ⟨.fieldType, []⟩
  | c :: rest =>
    if c = 'L' ∨ c = '[' then
      match RefType.scan (c :: rest) with
      | .ok (type, rest) => .ok (.ref type, rest)
      | .error stop => .error stop
    else match BaseType.ofTag? c with
      | some type => .ok (.base type, rest)
      | none => .error ⟨.fieldType, c :: rest⟩

def FieldType.parse : String → Except DescriptorError FieldType := parseAll scan

theorem ClassName.scan_length {text rest : List Char} {name : ClassName}
    (h : ClassName.scan text = .ok (name, rest)) : rest.length < text.length := by
  unfold ClassName.scan at h
  split at h
  · rename_i body
    split at h
    · simp at h
    · rename_i after heq
      split at h
      · have hl := (List.dropWhile_suffix (fun c : Char => decide (c ≠ ';')) (l := body)).length_le
        rw [heq] at hl
        simp only [Except.ok.injEq, Prod.mk.injEq] at h
        obtain ⟨-, rfl⟩ := h
        simp only [List.length_cons] at hl ⊢
        omega
      · simp at h
  · simp at h

theorem BaseType.scan_length {text rest : List Char} {type : BaseType}
    (h : BaseType.scan text = .ok (type, rest)) : rest.length < text.length := by
  unfold BaseType.scan at h
  split at h
  · simp at h
  · split at h <;> simp_all

theorem ElementType.scan_length {text rest : List Char} {type : ElementType}
    (h : ElementType.scan text = .ok (type, rest)) : rest.length < text.length := by
  unfold ElementType.scan at h
  split at h
  · rename_i tail
    cases hs : ClassName.scan ('L' :: tail) with
    | error stop => simp [hs, bind, Except.bind] at h
    | ok found =>
      simp only [hs, bind, Except.bind, pure, Except.pure, Except.ok.injEq, Prod.mk.injEq] at h
      exact h.2 ▸ ClassName.scan_length hs
  · cases hs : BaseType.scan text with
    | error stop => simp [hs, bind, Except.bind] at h
    | ok found =>
      simp only [hs, bind, Except.bind, pure, Except.pure, Except.ok.injEq, Prod.mk.injEq] at h
      exact h.2 ▸ BaseType.scan_length hs

theorem RefType.scan_length {text rest : List Char} {type : RefType}
    (h : RefType.scan text = .ok (type, rest)) : rest.length < text.length := by
  unfold RefType.scan at h
  split at h
  · split at h
    · rename_i tail _
      cases hs : ClassName.scan ('L' :: tail) with
      | error stop => simp [hs, bind, Except.bind] at h
      | ok found =>
        simp only [hs, bind, Except.bind, pure, Except.pure, Except.ok.injEq, Prod.mk.injEq] at h
        exact h.2 ▸ ClassName.scan_length hs
    · simp at h
  · split at h
    · cases hs : ElementType.scan (text.dropWhile (· = '[')) with
      | error stop => simp [hs, bind, Except.bind] at h
      | ok found =>
        simp only [hs, bind, Except.bind, pure, Except.pure, Except.ok.injEq, Prod.mk.injEq] at h
        have hl := (List.dropWhile_suffix (fun c : Char => decide (c = '[')) (l := text)).length_le
        have := ElementType.scan_length hs
        rw [h.2] at this
        omega
    · simp at h

theorem FieldType.scan_length {text rest : List Char} {type : FieldType}
    (h : FieldType.scan text = .ok (type, rest)) : rest.length < text.length := by
  unfold FieldType.scan at h
  split at h
  · simp at h
  · split at h
    · split at h
      · rename_i hs
        simp only [Except.ok.injEq, Prod.mk.injEq] at h
        exact h.2 ▸ RefType.scan_length hs
      · simp at h
    · split at h <;> simp_all

namespace MethodDescriptor

/-- Parameter types up to and with the closing parenthesis. -/
def scanParameters (text : List Char) : Except Stop (List FieldType × List Char) :=
  match text with
  | [] => .error ⟨.parametersEnd, []⟩
  | ')' :: rest => .ok ([], rest)
  | text =>
    match _h : FieldType.scan text with
    | .error stop => .error stop
    | .ok (type, rest) =>
      match scanParameters rest with
      | .error stop => .error stop
      | .ok (types, rest) => .ok (type :: types, rest)
termination_by text.length
decreasing_by exact FieldType.scan_length ‹_›

def scanReturn : Scanner (Option FieldType)
  | 'V' :: rest => .ok (none, rest)
  | text => do
    let (type, rest) ← FieldType.scan text
    return (some type, rest)

def scan : Scanner MethodDescriptor
  | '(' :: rest => do
    let (parameters, rest) ← scanParameters rest
    let (returnType, rest) ← scanReturn rest
    return (⟨parameters, returnType⟩, rest)
  | text => .error ⟨.parametersStart, text⟩

def parse : String → Except DescriptorError MethodDescriptor := parseAll scan

end MethodDescriptor

end ClassWeave
