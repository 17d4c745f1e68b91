import ClassWeave.Descriptor.Parse
import ClassWeave.Proofs.Steps

/-!
Reading descriptors by the bytes of a text. A walker looks at the byte at its place and moves by bytes, and it must not
come to a place inside a character.
-/

namespace ClassWeave

open Descriptor

/-- Why walking over the bytes of a text ends without a value. -/
inductive WalkError where
  | stopped (place : Nat) (expected : Expectation)
  | insideCharacter (place : Nat)
  deriving DecidableEq

namespace Descriptor

abbrev Walker (α : Type) := String → Nat → Except WalkError (α × Nat)

def utf8Bytes (text : String) : List UInt8 := text.toUTF8.data.toList

def peek (text : String) (place : Nat) : Option UInt8 := (utf8Bytes text)[place]?

/-- Moves to a place, which has to be between two characters or at an end of the text. -/
def goTo (text : String) (place : Nat) : Except WalkError Nat :=
  if String.Pos.Raw.isValid text ⟨place⟩ then .ok place else .error (.insideCharacter place)

/-- Walks over a whole text. -/
def walkAll {α : Type} (walk : Walker α) (text : String) : Except WalkError α := do
  let (value, place) ← walk text 0
  if (utf8Bytes text).length ≤ place then return value else throw (.stopped place .endOfDescriptor)

/-- A walker takes a byte at least. -/
def Advances {α : Type} (walk : Walker α) : Prop :=
  ∀ text place value next, walk text place = .ok (value, next) → place < next

theorem goTo_eq_ok {text : String} {place next : Nat} (h : goTo text place = .ok next) : next = place := by
  unfold goTo at h
  split at h
  · exact (Except.ok.inj h).symm
  · cases h

end Descriptor

def BaseType.walk : Walker BaseType := fun text place =>
  match (peek text place).bind fun b => ofTag? (Char.ofUInt8 b) with
  | some type => do return (type, ← goTo text (place + 1))
  | none => .error (.stopped place .primitiveType)

theorem BaseType.advances_walk : Advances walk := by
  intro text place type next h
  unfold walk at h
  split at h
  · obtain ⟨after, hafter, h⟩ := except_bind_eq_ok.1 h
    cases h
    rw [goTo_eq_ok hafter]
    exact Nat.lt_succ_self _
  · cases h

namespace ClassName

/-- The name from a place up to the first `;`. -/
def walkName : Walker ClassName := fun text start =>
  let ahead := (utf8Bytes text).drop start
  let length := (ahead.takeWhile (· ≠ ';'.toUInt8)).length
  if length = ahead.length then .error (.stopped start .classEnd)
  else do
    let stop ← goTo text (start + length)
    let next ← goTo text (stop + 1)
    match ofString (String.Pos.Raw.extract text ⟨start⟩ ⟨stop⟩) with
    | .ok name => return (name, next)
    | .error _ => throw (.stopped start .className)

def walk : Walker ClassName := fun text place =>
  if peek text place = some 'L'.toUInt8 then do walkName text (← goTo text (place + 1))
  else .error (.stopped place .classMark)

theorem advances_walk : Advances walk := by
  intro text place name next h
  unfold walk at h
  split at h
  · obtain ⟨start, hstart, h⟩ := except_bind_eq_ok.1 h
    unfold walkName at h
    dsimp only at h
    split at h
    · cases h
    · obtain ⟨stop, hstop, h⟩ := except_bind_eq_ok.1 h
      obtain ⟨after, hafter, h⟩ := except_bind_eq_ok.1 h
      split at h
      · cases h
        have := goTo_eq_ok hstart
        have := goTo_eq_ok hstop
        have := goTo_eq_ok hafter
        omega
      · cases h
  · cases h

end ClassName

def ElementType.walk : Walker ElementType := fun text place =>
  if peek text place = some 'L'.toUInt8 then do
    let (name, next) ← ClassName.walk text place
    return (.object name, next)
  else do
    let (type, next) ← BaseType.walk text place
    return (.base type, next)

theorem ElementType.advances_walk : Advances walk := by
  intro text place type next h
  unfold walk at h
  split at h
  · obtain ⟨⟨name, after⟩, hname, h⟩ := except_bind_eq_ok.1 h
    cases h
    exact ClassName.advances_walk _ _ _ _ hname
  · obtain ⟨⟨base, after⟩, hbase, h⟩ := except_bind_eq_ok.1 h
    cases h
    exact BaseType.advances_walk _ _ _ _ hbase

namespace RefType

/-- Counts brackets, of which there may be no more than there is room for. -/
def walkBrackets (text : String) (room place : Nat) : Except WalkError (Nat × Nat) :=
  if peek text place = some '['.toUInt8 then
    match room with
    | 0 => .error (.stopped place .dimensions)
    | room + 1 => do
      let (count, next) ← walkBrackets text room (← goTo text (place + 1))
      return (count + 1, next)
  else .ok (0, place)

theorem walkBrackets_le {text : String} {room place count next : Nat}
    (h : walkBrackets text room place = .ok (count, next)) : next = place + count := by
  induction room generalizing place count with
  | zero =>
    unfold walkBrackets at h
    split at h
    · cases h
    · cases h
      rfl
  | succ room ih =>
    unfold walkBrackets at h
    split at h
    · obtain ⟨start, hstart, h⟩ := except_bind_eq_ok.1 h
      obtain ⟨⟨others, after⟩, hothers, h⟩ := except_bind_eq_ok.1 h
      cases h
      have := goTo_eq_ok hstart
      have := ih hothers
      omega
    · cases h
      rfl

def walk : Walker RefType := fun text place => do
  let (dimensions, next) ← walkBrackets text 255 place
  match dimensions with
  | 0 =>
    if peek text next = some 'L'.toUInt8 then
      let (name, next) ← ClassName.walk text next
      return (.object name, next)
    else throw (.stopped next .referenceType)
  | more + 1 =>
    let (element, next) ← ElementType.walk text next
    return (.array ⟨more % 255, Nat.mod_lt more (by decide)⟩ element, next)

theorem advances_walk : Advances walk := by
  intro text place type next h
  obtain ⟨⟨dimensions, after⟩, hdimensions, h⟩ := except_bind_eq_ok.1 h
  have hafter := walkBrackets_le hdimensions
  cases dimensions with
  | zero =>
    dsimp only at h
    split at h
    · obtain ⟨⟨name, last⟩, hname, h⟩ := except_bind_eq_ok.1 h
      cases h
      obtain rfl : after = place := hafter
      exact ClassName.advances_walk _ _ _ _ hname
    · cases h
  | succ more =>
    obtain ⟨⟨element, last⟩, helement, h⟩ := except_bind_eq_ok.1 h
    cases h
    have := ElementType.advances_walk _ _ _ _ helement
    omega

end RefType

def FieldType.walk : Walker FieldType := fun text place =>
  if peek text place = some 'L'.toUInt8 ∨ peek text place = some '['.toUInt8 then do
    let (type, next) ← RefType.walk text place
    return (.ref type, next)
  else
    match BaseType.walk text place with
    | .ok (type, next) => .ok (.base type, next)
    | .error (.stopped _ _) => .error (.stopped place .fieldType)
    | .error problem => .error problem

theorem FieldType.advances_walk : Advances walk := by
  intro text place type next h
  unfold walk at h
  split at h
  · obtain ⟨⟨ref, after⟩, href, h⟩ := except_bind_eq_ok.1 h
    cases h
    exact RefType.advances_walk _ _ _ _ href
  · split at h
    · next hbase =>
      cases h
      exact BaseType.advances_walk _ _ _ _ hbase
    · cases h
    · cases h

namespace MethodDescriptor

def walkParameters (text : String) (place : Nat) : Except WalkError (List FieldType × Nat) :=
  if peek text place = some ')'.toUInt8 then do return ([], ← goTo text (place + 1))
  else if (utf8Bytes text).length ≤ place then .error (.stopped place .parametersEnd)
  else
    match _h : FieldType.walk text place with
    | .error problem => .error problem
    | .ok (type, next) => do
      let (types, last) ← walkParameters text next
      return (type :: types, last)
termination_by (utf8Bytes text).length - place
decreasing_by
  have := FieldType.advances_walk _ _ _ _ ‹_›
  omega

def walkReturn : Walker (Option FieldType) := fun text place =>
  if peek text place = some 'V'.toUInt8 then do return (none, ← goTo text (place + 1))
  else do
    let (type, next) ← FieldType.walk text place
    return (some type, next)

def walk : Walker MethodDescriptor := fun text place =>
  if peek text place = some '('.toUInt8 then do
    let (parameters, next) ← walkParameters text (← goTo text (place + 1))
    let (returnType, next) ← walkReturn text next
    return (⟨parameters, returnType⟩, next)
  else .error (.stopped place .parametersStart)

end MethodDescriptor

end ClassWeave
