import ClassWeave.Descriptor.Parse

/-!
Signatures, which name a method exactly: its class, its name, and its descriptor. The text of one is
`owner.name(parameters)return`.
-/

namespace ClassWeave

inductive SignatureError where
  | badName (message : String)
  | badDescriptor (text : String)
  deriving DecidableEq, Repr

structure MethodSignature where
  owner : ClassName
  name : MemberName
  descriptor : MethodDescriptor
  deriving DecidableEq

/-- The parts of a text before and behind the last separator. -/
def splitLast? (separator : Char) : List Char → Option (List Char × List Char)
  | [] => none
  | c :: rest =>
    match splitLast? separator rest with
    | some (before, behind) => some (c :: before, behind)
    | none => if c = separator then some ([], rest) else none

namespace MethodSignature

/-- The owner may be spelled with dots. -/
def ofParts (owner name descriptor : String) : Except SignatureError MethodSignature := do
  let owner ← (ClassName.ofQualified owner).mapError fun problem => .badName problem.message
  let name ← (MemberName.ofString name).mapError fun problem => .badName problem.message
  let descriptor ← (MethodDescriptor.parse descriptor).mapError fun _ => .badDescriptor descriptor
  return ⟨owner, name, descriptor⟩

/-- The descriptor starts at the first parenthesis, and the name behind the last dot before it. -/
def parse (text : String) : Except SignatureError MethodSignature :=
  match text.toList.span (· ≠ '(') with
  | (_, []) => .error (.badDescriptor text)
  | (head, descriptor) =>
    match splitLast? '.' head with
    | none => .error (.badName text)
    | some (owner, name) =>
      ofParts (String.ofList owner) (String.ofList name) (String.ofList descriptor)

def text (signature : MethodSignature) : String :=
  signature.owner.text ++ "." ++ signature.name.text ++ signature.descriptor.render

end MethodSignature

end ClassWeave
