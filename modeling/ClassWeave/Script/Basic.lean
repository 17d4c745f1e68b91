import ClassWeave.Code.Branch
import ClassWeave.Text.Quoted

/-!
Scripts: structured code for new or changed methods. They carry no types; the descriptors of the
members and variables they name decide.
-/

namespace ClassWeave

structure FieldName where
  owner : String
  name : String
  descriptor : String
  deriving DecidableEq, Repr

inductive CallKind where
  | static | virtual | interface | special
  deriving DecidableEq, Repr

namespace CallKind

def name : CallKind → String
  | .static => "Static"
  | .virtual => "Virtual"
  | .interface => "Interface"
  | .special => "Special"

def ofName? (text : String) : Option CallKind :=
  [.static, .virtual, .interface, .special].find? (name · = text)

/-- The slots of an interface call follow from its descriptor. -/
def invokeKind : CallKind → InvokeKind
  | .static => .static
  | .virtual => .virtual
  | .interface => .interface 0
  | .special => .special

end CallKind

/-- An expression leaves a value, unless it is a call of a method that returns none. -/
inductive Expr where
  | null
  | int (value : Int32)
  | long (value : Int64)
  | bool (value : Bool)
  | string (text : String)
  | this
  | argument (index : Nat)
  | variable (name : String)
  | getField (object : Expr) (field : FieldName)
  | getStatic (field : FieldName)
  | call (kind : CallKind) (owner name descriptor : String) (receiver : Option Expr)
      (arguments : List Expr)
  | checkCast (value : Expr) (target : String)
  | arrayLength (array : Expr)
  | arrayElement (array index : Expr)
  /-- A new array that holds the given elements. -/
  | objectArray (element : String) (elements : List Expr)
  | bitAnd (a b : Expr)

inductive Cond where
  | isNull (value : Expr)
  | notNull (value : Expr)
  | isTrue (value : Expr)
  | isFalse (value : Expr)
  | compare (comparison : Comparison) (a b : Expr)
  /-- True without conditions. -/
  | all (conditions : List Cond)
  /-- False without conditions. -/
  | any (conditions : List Cond)
  | not (condition : Cond)

inductive Stmt where
  | declare (name descriptor : String) (value : Expr)
  | assign (name : String) (value : Expr)
  | setArgument (index : Nat) (value : Expr)
  | eval (value : Expr)
  | branch (condition : Cond) (whenTrue whenFalse : List Stmt)
  | loop (condition : Cond) (body : List Stmt)
  | increment (name : String) (amount : Int16)
  /-- Tests every element of an array and declares whether all of them passed. -/
  | allOf (result : String) (array : Expr) (element : String) (test : Cond)
  /-- The caught exception is dropped unless it is bound to a name. -/
  | tryCatch (body : List Stmt) (catchType : Option String) (binding : Option String)
      (handler : List Stmt)
  | leave (value : Option Expr)

namespace FieldName

def text (field : FieldName) : String :=
  "FieldRef \x7b owner: " ++ Text.quoted field.owner ++ ", name: " ++ Text.quoted field.name
    ++ ", descriptor: " ++ Text.quoted field.descriptor ++ " \x7d"

end FieldName

mutual

/-- An expression as messages quote it. -/
def Expr.text : Expr → String
  | .null => "Null"
  | .int value => "Int(" ++ toString value.toInt ++ ")"
  | .long value => "Long(" ++ toString value.toInt ++ ")"
  | .bool value => "Bool(" ++ toString value ++ ")"
  | .string text => "Str(" ++ Text.quoted text ++ ")"
  | .this => "This"
  | .argument index => "Arg(" ++ toString index ++ ")"
  | .variable name => "Local(" ++ Text.quoted name ++ ")"
  | .getField object field =>
    "GetField \x7b object: " ++ object.text ++ ", field: " ++ field.text ++ " \x7d"
  | .getStatic field => "GetStatic(" ++ field.text ++ ")"
  | .call kind owner name descriptor receiver arguments =>
    "Call(Call \x7b kind: " ++ kind.name ++ ", owner: " ++ Text.quoted owner ++ ", name: "
      ++ Text.quoted name ++ ", descriptor: " ++ Text.quoted descriptor ++ ", receiver: "
      ++ Expr.receiverText receiver ++ ", args: [" ++ ", ".intercalate (Expr.texts arguments)
      ++ "] \x7d)"
  | .checkCast value target =>
    "CheckCast \x7b value: " ++ value.text ++ ", class: " ++ Text.quoted target ++ " \x7d"
  | .arrayLength array => "ArrayLength(" ++ array.text ++ ")"
  | .arrayElement array index =>
    "ArrayElement \x7b array: " ++ array.text ++ ", index: " ++ index.text ++ " \x7d"
  | .objectArray element elements =>
    "ObjectArray \x7b element_class: " ++ Text.quoted element ++ ", elements: ["
      ++ ", ".intercalate (Expr.texts elements) ++ "] \x7d"
  | .bitAnd a b => "BitAnd(" ++ a.text ++ ", " ++ b.text ++ ")"

def Expr.receiverText : Option Expr → String
  | none => "None"
  | some receiver => "Some(" ++ receiver.text ++ ")"

def Expr.texts : List Expr → List String
  | [] => []
  | expr :: rest => expr.text :: Expr.texts rest

end

end ClassWeave
