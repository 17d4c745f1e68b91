import ClassWeave.Proofs.Frame.Hierarchy
import ClassWeave.Script.Basic
import ClassWeave.Code.Body

/-!
Scripts that are well typed for a class hierarchy: each value is below the type of the place it goes to.
The types are those that descriptors, casts and class names tell, not those that the frames have.
-/

namespace ClassWeave

/-- What a script sees of its method, and the types of the variables declared so far, the latest
first. -/
structure TypeScope where
  shape : MethodShape
  declared : List (String × EditType)

namespace TypeScope

def declare (scope : TypeScope) (name : String) (type : EditType) : TypeScope :=
  { scope with declared := (name, type) :: scope.declared }

/-- Declares a variable if its type can be told. -/
def declare? (scope : TypeScope) (name : String) (type : Option EditType) : TypeScope :=
  (type.map (scope.declare name)).getD scope

end TypeScope

/-- Static type of the value of an expression, if it has one. -/
def Expr.type? (scope : TypeScope) : Expr → Option EditType
  | .null => some .null
  | .int _ | .bool _ | .arrayLength _ | .bitAnd _ _ => some .integer
  | .long _ => some .long
  | .string _ => some (.object ClassName.string.text)
  | .this => some (.object scope.shape.thisClass)
  | .argument index => (scope.shape.descriptor.parameters[index]?).map EditType.ofFieldType
  | .variable name => scope.declared.lookup name
  | .getField _ field | .getStatic field =>
    (FieldType.parse field.descriptor).toOption.map EditType.ofFieldType
  | .call _ _ _ text _ _ =>
    (MethodDescriptor.parse text).toOption.bind (·.returnType.map EditType.ofFieldType)
  | .checkCast _ target => some (.object target)
  | .arrayElement array _ => (array.type? scope).bind EditType.arrayElement?
  | .objectArray element _ =>
    (RefType.ofClassName element).toOption.map fun type =>
      .object (RefType.arrayOf (.ref type)).className

section

variable (subclass : String → String → Prop)

/-- The value may go where the type is expected. -/
def Expr.Fits (scope : TypeScope) (expression : Expr) (expected : EditType) : Prop :=
  ∃ type, expression.type? scope = some type ∧ type.Below subclass expected

mutual

def Expr.WellTyped (scope : TypeScope) : Expr → Prop
  | .getField object field =>
    object.WellTyped scope ∧ object.Fits subclass scope (.object field.owner)
  | .call _ owner _ text receiver arguments =>
    Expr.ReceiverFits scope owner receiver ∧
      ∀ descriptor, MethodDescriptor.parse text = .ok descriptor →
        Expr.AllFit scope (descriptor.parameters.map EditType.ofFieldType) arguments
  | .checkCast value _ | .arrayLength value => value.WellTyped scope
  | .arrayElement a b | .bitAnd a b => a.WellTyped scope ∧ b.WellTyped scope
  | .objectArray element elements =>
    Expr.AllFit scope (List.replicate elements.length (.object element)) elements
  | _ => True

def Expr.ReceiverFits (scope : TypeScope) (owner : String) : Option Expr → Prop
  | none => True
  | some receiver => receiver.WellTyped scope ∧ receiver.Fits subclass scope (.object owner)

/-- Well-typed values, each for the type in its place. -/
def Expr.AllFit (scope : TypeScope) (expected : List EditType) : List Expr → Prop
  | [] => True
  | first :: rest =>
    first.WellTyped scope ∧ (∀ type ∈ expected.head?, first.Fits subclass scope type) ∧
      Expr.AllFit scope expected.tail rest

end

mutual

def Cond.WellTyped (scope : TypeScope) : Cond → Prop
  | .isNull value | .notNull value | .isTrue value | .isFalse value =>
    value.WellTyped subclass scope
  | .compare _ a b => a.WellTyped subclass scope ∧ b.WellTyped subclass scope
  | .all conditions | .any conditions => Cond.AllWellTyped scope conditions
  | .not condition => condition.WellTyped scope

def Cond.AllWellTyped (scope : TypeScope) : List Cond → Prop
  | [] => True
  | first :: rest => first.WellTyped scope ∧ Cond.AllWellTyped scope rest

end

end

namespace TypeScope

/-- The elements of an array have a name while they are tested. -/
def iterate (scope : TypeScope) (result element : String) (array : Expr) : TypeScope :=
  (scope.declare result .integer).declare? element
    ((array.type? scope).bind EditType.arrayElement?)

def catching (scope : TypeScope) (catchType binding : Option String) : TypeScope :=
  match binding with
  | none => scope
  | some name => scope.declare name (.object (catchType.getD ClassName.throwable.text))

end TypeScope

mutual

/-- What is declared behind a statement. A variable stays visible behind the block that declares
it. -/
def Stmt.scopeAfter (scope : TypeScope) : Stmt → TypeScope
  | .declare name descriptor _ =>
    scope.declare? name ((FieldType.parse descriptor).toOption.map EditType.ofFieldType)
  | .branch _ whenTrue whenFalse => Stmt.scopeAfterAll (Stmt.scopeAfterAll scope whenTrue) whenFalse
  | .loop _ body => Stmt.scopeAfterAll scope body
  | .allOf result array element _ => scope.iterate result element array
  | .tryCatch body catchType binding handler =>
    Stmt.scopeAfterAll ((Stmt.scopeAfterAll scope body).catching catchType binding) handler
  | _ => scope

def Stmt.scopeAfterAll (scope : TypeScope) : List Stmt → TypeScope
  | [] => scope
  | first :: rest => Stmt.scopeAfterAll (first.scopeAfter scope) rest

end

section

variable (subclass : String → String → Prop)

/-- A well-typed value for a place whose type is known, if it is. -/
def Expr.Enters (scope : TypeScope) (expected : Option EditType) (value : Expr) : Prop :=
  value.WellTyped subclass scope ∧ ∀ type ∈ expected, value.Fits subclass scope type

mutual

def Stmt.WellTyped (scope : TypeScope) : Stmt → Prop
  | .declare _ descriptor value =>
    value.Enters subclass scope ((FieldType.parse descriptor).toOption.map EditType.ofFieldType)
  | .assign name value => value.Enters subclass scope (scope.declared.lookup name)
  | .setArgument index value =>
    value.Enters subclass scope
      ((scope.shape.descriptor.parameters[index]?).map EditType.ofFieldType)
  | .eval value => value.WellTyped subclass scope
  | .branch condition whenTrue whenFalse =>
    condition.WellTyped subclass scope ∧ Stmt.AllWellTyped scope whenTrue ∧
      Stmt.AllWellTyped (Stmt.scopeAfterAll scope whenTrue) whenFalse
  | .loop condition body => condition.WellTyped subclass scope ∧ Stmt.AllWellTyped scope body
  | .increment _ _ => True
  | .allOf result array element test =>
    array.WellTyped subclass scope ∧
      test.WellTyped subclass (scope.iterate result element array)
  | .tryCatch body catchType binding handler =>
    Stmt.AllWellTyped scope body ∧
      Stmt.AllWellTyped ((Stmt.scopeAfterAll scope body).catching catchType binding) handler
  | .leave none => True
  | .leave (some value) =>
    value.Enters subclass scope (scope.shape.returnType.map EditType.ofFieldType)

def Stmt.AllWellTyped (scope : TypeScope) : List Stmt → Prop
  | [] => True
  | first :: rest =>
    first.WellTyped scope ∧ Stmt.AllWellTyped (first.scopeAfter scope) rest

end

end

end ClassWeave
