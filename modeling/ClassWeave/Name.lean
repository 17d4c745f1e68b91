/-!
Names of members and classes. A class name is a `/`-separated path of segments, each of which obeys
the rules of a member name that is not one of the two special methods.
-/

namespace ClassWeave

/-- The pieces of a text between separators; a text without one is a single piece. -/
def segments (separator : Char) : List Char → List (List Char)
  | [] => [[]]
  | c :: rest =>
    if c = separator then [] :: segments separator rest
    else match segments separator rest with
      | [] => [[c]]
      | first :: others => (c :: first) :: others

/-- Why a text is not a name. -/
inductive NameError where
  | empty
  | badCharacter (name : String) (found : Char)
  | angleBrackets (name : String)
  | segment (name : String) (cause : NameError)
  deriving DecidableEq, Repr

def NameError.message : NameError → String
  | .empty => "empty name"
  | .badCharacter name found =>
    "'" ++ name ++ "' contains '" ++ String.singleton found ++ "'"
  | .angleBrackets name => "'" ++ name ++ "' contains angle brackets"
  | .segment name cause => "class name '" ++ name ++ "': " ++ cause.message

/-- Only the two special method names may hold angle brackets, and no name may hold a character that
descriptors and paths give a meaning. -/
def nameProblem (allowSpecial : Bool) (name : List Char) : Option NameError :=
  let text := String.ofList name
  let special := text = "<init>" ∨ text = "<clinit>"
  if name = [] then some .empty
  else match name.find? (fun c => c = '.' ∨ c = ';' ∨ c = '[' ∨ c = '/') with
    | some found => some (.badCharacter text found)
    | none =>
      if (name.contains '<' ∨ name.contains '>') ∧ ¬(allowSpecial ∧ special) then
        some (.angleBrackets text)
      else none

/-- Name of a field or method. -/
structure MemberName where
  text : String
  wellFormed : nameProblem true text.toList = none := by decide
  deriving DecidableEq

namespace MemberName

def ofString (text : String) : Except NameError MemberName :=
  match h : nameProblem true text.toList with
  | none => .ok ⟨text, h⟩
  | some problem => .error problem

/-- Name of every instance initialiser. -/
def constructor : MemberName := ⟨"<init>", by decide⟩

end MemberName

/-- The first segment that is no name decides. -/
def classNameProblem (name : String) : Option NameError :=
  ((segments '/' name.toList).findSome? (nameProblem false)).map (.segment name)

/-- Binary name of a class or interface, such as `a/b/C`. -/
structure ClassName where
  text : String
  wellFormed : classNameProblem text = none := by decide
  deriving DecidableEq

namespace ClassName

def ofString (text : String) : Except NameError ClassName :=
  match h : classNameProblem text with
  | none => .ok ⟨text, h⟩
  | some problem => .error problem

/-- Text with one character in place of another. -/
def exchange (old new : Char) (text : String) : String :=
  String.ofList (text.toList.map fun c => if c = old then new else c)

/-- Accepts the dotted spelling as well as the binary one. -/
def ofQualified (text : String) : Except NameError ClassName :=
  ofString (exchange '.' '/' text)

/-- The spelling with `.` between segments. -/
def dotted (name : ClassName) : String :=
  exchange '/' '.' name.text

def object : ClassName := ⟨"java/lang/Object", by decide⟩
def string : ClassName := ⟨"java/lang/String", by decide⟩
def classType : ClassName := ⟨"java/lang/Class", by decide⟩
def throwable : ClassName := ⟨"java/lang/Throwable", by decide⟩
def methodHandle : ClassName := ⟨"java/lang/invoke/MethodHandle", by decide⟩
def methodType : ClassName := ⟨"java/lang/invoke/MethodType", by decide⟩

end ClassName

end ClassWeave
