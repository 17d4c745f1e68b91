import ClassWeave.Patch.Strategy
import ClassWeave.Tree.Read

/-!
Reading scripts and strategies from trees.
-/

namespace ClassWeave

instance : OfTree CallKind := .ofName CallKind.ofName?

instance : OfTree FieldName where
  ofTree? tree := do
    let (owner, name, descriptor) ← tree.as? _
    return ⟨owner, name, descriptor⟩

mutual

def Expr.ofTree? : Tree → Option Expr
  | .list [.text "null"] => some .null
  | .list [.text "int", value] => return .int (← value.as? _)
  | .list [.text "long", value] => return .long (← value.as? _)
  | .list [.text "bool", value] => return .bool (← value.as? _)
  | .list [.text "str", text] => return .string (← text.as? _)
  | .list [.text "this"] => some .this
  | .list [.text "arg", index] => return .argument (← index.as? _)
  | .list [.text "local", name] => return .variable (← name.as? _)
  | .list [.text "getfield", object, owner, name, descriptor] =>
    return .getField (← Expr.ofTree? object) (← (Tree.list [owner, name, descriptor]).as? _)
  | .list [.text "getstatic", owner, name, descriptor] =>
    return .getStatic (← (Tree.list [owner, name, descriptor]).as? _)
  | .list [.text "call", kind, owner, name, descriptor, .null, .list arguments] =>
    return .call (← kind.as? _) (← owner.as? _) (← name.as? _) (← descriptor.as? _) none
      (← Expr.ofTrees? arguments)
  | .list [.text "call", kind, owner, name, descriptor, receiver, .list arguments] =>
    return .call (← kind.as? _) (← owner.as? _) (← name.as? _) (← descriptor.as? _)
      (some (← Expr.ofTree? receiver)) (← Expr.ofTrees? arguments)
  | .list [.text "checkcast", value, target] =>
    return .checkCast (← Expr.ofTree? value) (← target.as? _)
  | .list [.text "arraylength", array] => return .arrayLength (← Expr.ofTree? array)
  | .list [.text "arrayelement", array, index] =>
    return .arrayElement (← Expr.ofTree? array) (← Expr.ofTree? index)
  | .list [.text "objectarray", element, .list elements] =>
    return .objectArray (← element.as? _) (← Expr.ofTrees? elements)
  | .list [.text "bitand", a, b] => return .bitAnd (← Expr.ofTree? a) (← Expr.ofTree? b)
  | _ => none

def Expr.ofTrees? : List Tree → Option (List Expr)
  | [] => some []
  | tree :: rest => return (← Expr.ofTree? tree) :: (← Expr.ofTrees? rest)

end

instance : OfTree Expr := ⟨Expr.ofTree?⟩

mutual

def Cond.ofTree? : Tree → Option Cond
  | .list [.text "isnull", value] => return .isNull (← value.as? _)
  | .list [.text "notnull", value] => return .notNull (← value.as? _)
  | .list [.text "true", value] => return .isTrue (← value.as? _)
  | .list [.text "false", value] => return .isFalse (← value.as? _)
  | .list [.text "cmp", comparison, a, b] =>
    return .compare (← comparison.as? _) (← a.as? _) (← b.as? _)
  | .list [.text "all", .list conditions] => return .all (← Cond.ofTrees? conditions)
  | .list [.text "any", .list conditions] => return .any (← Cond.ofTrees? conditions)
  | .list [.text "not", condition] => return .not (← Cond.ofTree? condition)
  | _ => none

def Cond.ofTrees? : List Tree → Option (List Cond)
  | [] => some []
  | tree :: rest => return (← Cond.ofTree? tree) :: (← Cond.ofTrees? rest)

end

instance : OfTree Cond := ⟨Cond.ofTree?⟩

mutual

def Stmt.ofTree? : Tree → Option Stmt
  | .list [.text "let", name, descriptor, value] =>
    return .declare (← name.as? _) (← descriptor.as? _) (← value.as? _)
  | .list [.text "assign", name, value] => return .assign (← name.as? _) (← value.as? _)
  | .list [.text "setarg", index, value] => return .setArgument (← index.as? _) (← value.as? _)
  | .list [.text "eval", value] => return .eval (← value.as? _)
  | .list [.text "if", condition, .list whenTrue, .list whenFalse] =>
    return .branch (← condition.as? _) (← Stmt.ofTrees? whenTrue) (← Stmt.ofTrees? whenFalse)
  | .list [.text "while", condition, .list body] =>
    return .loop (← condition.as? _) (← Stmt.ofTrees? body)
  | .list [.text "inc", name, amount] => return .increment (← name.as? _) (← amount.as? _)
  | .list [.text "allof", result, array, element, test] =>
    return .allOf (← result.as? _) (← array.as? _) (← element.as? _) (← test.as? _)
  | .list [.text "try", .list body, catchType, binding, .list handler] =>
    return .tryCatch (← Stmt.ofTrees? body) (← catchType.as? _) (← binding.as? _)
      (← Stmt.ofTrees? handler)
  | .list [.text "return"] => some (.leave none)
  | .list [.text "return", value] => return .leave (← value.as? _)
  | _ => none

def Stmt.ofTrees? : List Tree → Option (List Stmt)
  | [] => some []
  | tree :: rest => return (← Stmt.ofTree? tree) :: (← Stmt.ofTrees? rest)

end

instance : OfTree Stmt := ⟨Stmt.ofTree?⟩

instance : OfTree Guard where
  ofTree? tree := do
    let (condition, tail) ← tree.as? _
    return ⟨condition, tail⟩

instance : OfTree LogCall where
  ofTree? tree := do
    let (owner, name, descriptor) ← tree.as? _
    return ⟨owner, name, descriptor⟩

instance : OfTree Fallback where
  ofTree? tree := do
    match tree with
    | .list [.text "default"] => return .default
    | .list [.text "int", value] => return .int (← value.as? _)
    | .list [.text "long", value] => return .long (← value.as? _)
    | .list [.text "bool", value] => return .bool (← value.as? _)
    | .list [.text "str", text] => return .string (← text.as? _)
    | _ => none

instance : OfTree PatchStrategy where
  ofTree? tree := do
    match tree with
    | .list [.text "wrap", catchType, log, fallback] =>
      return .wrap ⟨← catchType.as? _, ← log.as? _, ← fallback.as? _⟩
    | .list [.text "prologue", guards] => return .prologue ⟨← guards.as? _⟩
    | .list [.text "replace", descriptor, body] =>
      return .replace ⟨← descriptor.as? _, ← body.as? _⟩
    | _ => none

end ClassWeave
