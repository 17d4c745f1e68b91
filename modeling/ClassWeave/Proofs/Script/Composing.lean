import ClassWeave.Proofs.Pool.Leaving
import ClassWeave.Script.Compile

/-!
What compiling is put together from. A property of steps that the operations of a builder have, and that
passes from steps to what is put together from them, is a property of the compiling of every expression,
every condition and every statement.
-/

namespace ClassWeave

/-- Is it one of the instructions that scripts are compiled to? -/
def Insn.isScripted : Insn → Bool
  | .constNull | .constInt _ | .constLong _ | .constFloat _ | .constDouble _ | .pushByte _ | .pushShort _
  | .loadConstant _ | .loadWideConstant _ | .load _ _ | .store _ _ | .increment _ _ | .arrayLoad _
  | .arrayStore _ | .arrayLength | .stack .dup | .stack .pop | .stack .pop2 | .bitwise _ _ | .field _ _
  | .invoke _ _ | .newRefArray _ | .checkCast _ => true
  | _ => false

/-- Is it one of these that stores nothing in a local? -/
def Insn.isOperation : Insn → Bool
  | .store _ _ => false
  | insn => insn.isScripted

theorem Insn.isScripted_of_isOperation {insn : Insn} (h : insn.isOperation = true) : insn.isScripted = true := by
  cases insn with
  | store => rfl
  | _ => exact h

theorem Insn.ne_new {insn : Insn} (h : insn.isScripted = true) (index : PoolIndex) : insn ≠ .new index := by
  rintro rfl
  cases h

namespace Builder

/-- Interning and pushing what stores nothing have the property, and so has what is put together from steps that
have it. -/
structure Composes (Q : (α : Type) → Building α → Prop) : Prop where
  pure {α : Type} (a : α) : Q α (Pure.pure a)
  throw {α : Type} (problem : ClassError) : Q α (MonadExcept.throw problem)
  bind {α β : Type} {step : Building α} {next : α → Building β} :
    Q α step → (∀ a, Q β (next a)) → Q β (step >>= next)
  intern (constant : Constant) :
    constant.isUndecoded = false → Q PoolIndex (interning (ConstantPool.intern constant))
  push (insn : Insn) : insn.isOperation = true → Q Unit (push insn)

theorem interning_bind {α β : Type} (step : Interning α) (next : α → Interning β) :
    interning (step >>= next) = interning step >>= fun a => interning (next a) := by
  funext B
  change interning (EStateM.bind step next) B = EStateM.bind (interning step) (fun a => interning (next a)) B
  unfold EStateM.bind
  cases hstep : step B.pool <;> simp only [interning, hstep]

namespace Composes

variable {Q : (α : Type) → Building α → Prop}

theorem ite (_ : Composes Q) {α : Type} {p : Prop} [Decidable p] {a b : Building α} (ha : Q α a)
    (hb : Q α b) : Q α (if p then a else b) := by
  split
  · exact ha
  · exact hb

variable (h : Composes Q)
include h

theorem internClass (name : String) : Q PoolIndex (interning (ConstantPool.internClass name)) := by
  rw [ConstantPool.internClass, interning_bind]
  exact h.bind (h.intern _ rfl) fun _ => h.intern _ rfl

theorem internString (text : String) : Q PoolIndex (interning (ConstantPool.internString text)) := by
  rw [ConstantPool.internString, interning_bind]
  exact h.bind (h.intern _ rfl) fun _ => h.intern _ rfl

theorem internNameAndType (name descriptor : String) :
    Q PoolIndex (interning (ConstantPool.internNameAndType name descriptor)) := by
  rw [ConstantPool.internNameAndType, interning_bind]
  refine h.bind (h.intern _ rfl) fun _ => ?_
  rw [interning_bind]
  exact h.bind (h.intern _ rfl) fun _ => h.intern _ rfl

theorem internField (owner name descriptor : String) :
    Q PoolIndex (interning (ConstantPool.internField owner name descriptor)) := by
  rw [ConstantPool.internField, interning_bind]
  refine h.bind (h.internClass owner) fun _ => ?_
  rw [interning_bind]
  exact h.bind (h.internNameAndType name descriptor) fun _ => h.intern _ rfl

theorem internMethod (owner name descriptor : String) (ofInterface : Bool) :
    Q PoolIndex (interning (ConstantPool.internMethod owner name descriptor ofInterface)) := by
  rw [ConstantPool.internMethod, interning_bind]
  refine h.bind (h.internClass owner) fun _ => ?_
  rw [interning_bind]
  exact h.bind (h.internNameAndType name descriptor) fun _ => h.intern _ rfl

theorem constInt (value : Int32) : Q Unit (Builder.constInt value) :=
  h.ite (h.push _ rfl) <| h.ite (h.push _ rfl) <| h.ite (h.push _ rfl) <|
    h.bind (h.intern _ rfl) fun _ => h.push _ rfl

theorem constLong (value : Int64) : Q Unit (Builder.constLong value) :=
  h.ite (h.push _ rfl) <| h.ite (h.push _ rfl) <|
    h.bind (h.intern _ rfl) fun _ => h.push _ rfl

theorem constString (text : String) : Q Unit (Builder.constString text) :=
  h.bind (h.internString text) fun _ => h.push _ rfl

theorem field (access : FieldAccess) (owner name descriptor : String) :
    Q Unit (Builder.field access owner name descriptor) :=
  h.bind (h.internField owner name descriptor) fun _ => h.push _ rfl

theorem invoke (kind : InvokeKind) (owner name descriptor : String) :
    Q Unit (Builder.invoke kind owner name descriptor) := by
  refine h.bind (h.internMethod owner name descriptor _) fun _ => ?_
  split
  · split
    · exact h.throw _
    · exact h.push _ rfl
  · exact h.push _ rfl

theorem checkCast (name : String) : Q Unit (Builder.checkCast name) :=
  h.bind (h.internClass name) fun _ => h.push _ rfl

theorem newRefArray (element : String) : Q Unit (Builder.newRefArray element) :=
  h.bind (h.internClass element) fun _ => h.push _ rfl

theorem load (slot : UInt16) (type : FieldType) : Q Unit (Builder.load slot type) := h.push _ rfl

theorem zero (type : FieldType) : Q Unit (Builder.zero type) := by
  refine h.push _ ?_
  cases SlotKind.ofFieldType type <;> rfl

end Composes

end Builder

namespace Compiler

open Builder

/-- The steps of compiling an expression have the property. What goes on with the slot of a variable or of a
parameter may rely on what fits there. -/
structure ComposesExpr (Fits : UInt16 → FieldType → Prop) (Q : (α : Type) → Building α → Prop)
    (P : (α : Type) → Compiling α → Prop) : Prop where
  building : Builder.Composes Q
  lift {α : Type} {step : Building α} : Q α step → P α (liftM step)
  pure {α : Type} (a : α) : P α (Pure.pure a)
  throw {α : Type} (problem : PatchError) : P α (MonadExcept.throw problem)
  bind {α β : Type} {step : Compiling α} {next : α → Compiling β} :
    P α step → (∀ a, P β (next a)) → P β (step >>= next)
  shape : P MethodShape shape
  argument (index : Nat) {α : Type} {next : UInt16 × FieldType → Compiling α} :
    (∀ slot type, Fits slot type → P α (next (slot, type))) → P α (argument index >>= next)
  lookUp (name : String) {α : Type} {next : UInt16 × FieldType → Compiling α} :
    (∀ slot type, Fits slot type → P α (next (slot, type))) → P α (lookUp name >>= next)

/-- The steps of compiling have the property, those with labels and variables too, but for what ends a
region. -/
structure ComposesOpen (Fits : UInt16 → FieldType → Prop) (Q : (α : Type) → Building α → Prop)
    (P : (α : Type) → Compiling α → Prop) : Prop extends ComposesExpr Fits Q P where
  store (slot : UInt16) (type : FieldType) : Fits slot type → Q Unit (Builder.store slot type)
  fresh : Q Label fresh
  place (label : Label) : Q Unit (place label)
  pushBranch (branch : Branch Label) : Q Unit (pushBranch branch)
  beginTry : Q Label beginTry
  pop : Q Unit Builder.pop
  returning : Q Unit Builder.leave
  isReachable : P Bool isReachable
  isJumpedTo (label : Label) : P Bool (isJumpedTo label)
  allocate (type : FieldType) {α : Type} {next : UInt16 → Compiling α} :
    (∀ slot, Fits slot type → P α (next slot)) → P α (allocate type >>= next)
  declare (name : String) (slot : UInt16) (type : FieldType) : Fits slot type → P Unit (declare name slot type)

/-- What is caught gets a variable, or is dropped. -/
def caught (catchType : Option String) : (binding : Option String) → Compiling Unit
  | none => Builder.pop
  | some name => do
    let type ← match catchType with
      | some caught => classType caught
      | none => pure (.object .throwable)
    bind name type

/-- The end of a protected region, up to where its handler has what it catches. -/
def handling (start after : Label) (catchType binding : Option String) : Compiling Unit := do
  let (label, frame) ← endTry start catchType
  gotoIfReachable after
  Builder.placeWith label frame
  caught catchType binding

theorem stmt_tryCatch (body : List Stmt) (catchType binding : Option String) (handler : List Stmt) :
    stmt (.tryCatch body catchType binding handler) = (do
      if body.isEmpty then throw (.unsupported .emptyTry)
      let after ← fresh
      let start ← beginTry
      block body
      handling start after catchType binding
      block handler
      placeIfReachable after) := by
  rw [stmt]
  unfold handling caught
  cases binding with
  | none => simp only [bind_assoc]
  | some name => cases catchType <;> simp only [bind_assoc, pure_bind]

/-- All the steps of compiling have the property. -/
structure Composes (Fits : UInt16 → FieldType → Prop) (Q : (α : Type) → Building α → Prop)
    (P : (α : Type) → Compiling α → Prop) : Prop extends ComposesOpen Fits Q P where
  handling (start after : Label) (catchType binding : Option String) :
    P Unit (handling start after catchType binding)

variable {Fits : UInt16 → FieldType → Prop} {Q : (α : Type) → Building α → Prop}
  {P : (α : Type) → Compiling α → Prop} {α β : Type}

namespace ComposesExpr

theorem ite (_ : ComposesExpr Fits Q P) {p : Prop} [Decidable p] {a b : Compiling α} (ha : P α a)
    (hb : P α b) : P α (if p then a else b) := by
  split
  · exact ha
  · exact hb

section Steps

variable (h : ComposesExpr Fits Q P)
include h

/-- Nothing behind a refusal is run. -/
theorem refuse {problem : PatchError} {next : α → Compiling β} :
    P β (MonadExcept.throw problem >>= next) := h.throw problem

theorem push (insn : Insn) (operates : insn.isOperation = true) :
    P Unit (liftM (Builder.push insn)) := h.lift (h.building.push insn operates)

theorem fieldType (descriptor : String) : P FieldType (fieldType descriptor) := by
  unfold Compiler.fieldType
  split
  · exact h.pure _
  · exact h.throw _

theorem classType (name : String) : P FieldType (classType name) := by
  unfold Compiler.classType
  split
  · exact h.pure _
  · exact h.throw _

theorem required (expression : Expr) (type : Option FieldType) :
    P FieldType (required expression type) := by
  cases type with
  | some type => exact h.pure _
  | none => exact h.throw _

theorem callDescriptor (owner name text : String) (count : Nat) :
    P MethodDescriptor (callDescriptor owner name text count) := by
  unfold Compiler.callDescriptor
  split
  · exact h.throw _
  · exact h.ite (h.pure _) (h.throw _)

theorem discardRequired {step : Compiling (Option FieldType)} (hs : P (Option FieldType) step)
    (expression : Expr) {next : PUnit → Compiling β} (hn : ∀ u, P β (next u)) :
    P β (step >>= fun type => discard (Compiler.required expression type) >>= next) :=
  h.bind hs fun type => h.bind (h.bind (h.required expression type) fun _ => h.pure _) hn

end Steps

mutual

theorem expr (h : ComposesExpr Fits Q P) : ∀ expression : Expr, P _ (Compiler.expr expression)
  | .null => by
    rw [Compiler.expr]
    exact h.bind (h.push _ rfl) fun _ => h.pure _
  | .int value => by
    rw [Compiler.expr]
    exact h.bind (h.lift (h.building.constInt value)) fun _ => h.pure _
  | .long value => by
    rw [Compiler.expr]
    exact h.bind (h.lift (h.building.constLong value)) fun _ => h.pure _
  | .bool value => by
    rw [Compiler.expr]
    exact h.bind (h.lift (h.building.constInt _)) fun _ => h.pure _
  | .string text => by
    rw [Compiler.expr]
    exact h.bind (h.lift (h.building.constString text)) fun _ => h.pure _
  | .this => by
    rw [Compiler.expr]
    exact h.bind h.shape fun shape => h.ite h.refuse <| h.bind (h.push _ rfl) fun _ =>
      h.bind (h.classType _) fun _ => h.pure _
  | .argument index => by
    rw [Compiler.expr]
    exact h.argument index fun _ _ _ => h.bind (h.lift (h.building.load _ _)) fun _ => h.pure _
  | .variable name => by
    rw [Compiler.expr]
    exact h.lookUp name fun _ _ _ => h.bind (h.lift (h.building.load _ _)) fun _ => h.pure _
  | .getField object field => by
    rw [Compiler.expr]
    exact h.discardRequired (h.expr object) object fun _ =>
      h.bind (h.lift (h.building.field _ _ _ _)) fun _ => h.bind (h.fieldType _) fun _ => h.pure _
  | .getStatic field => by
    rw [Compiler.expr]
    exact h.bind (h.lift (h.building.field _ _ _ _)) fun _ => h.bind (h.fieldType _) fun _ => h.pure _
  | .call kind owner name text receiver arguments => by
    rw [Compiler.expr]
    refine h.bind (h.callDescriptor owner name text _) fun descriptor => ?_
    have invoked : P _ (do
        Compiler.values arguments
        Builder.invoke kind.invokeKind owner name text
        return descriptor.returnType : Compiling _) :=
      h.bind (h.values arguments) fun _ => h.bind (h.lift (h.building.invoke _ _ _ _)) fun _ =>
        h.pure _
    match receiver with
    | none =>
      cases kind with
      | static => exact invoked
      | _ => exact h.bind (h.throw _) fun _ => invoked
    | some receiver =>
      cases kind with
      | static => exact h.bind (h.throw _) fun _ => invoked
      | _ => exact h.discardRequired (h.expr receiver) receiver fun _ => invoked
  | .checkCast value target => by
    rw [Compiler.expr]
    exact h.discardRequired (h.expr value) value fun _ =>
      h.bind (h.lift (h.building.checkCast target)) fun _ => h.bind (h.classType _) fun _ => h.pure _
  | .arrayLength array => by
    rw [Compiler.expr]
    exact h.discardRequired (h.expr array) array fun _ =>
      h.bind (h.push _ rfl) fun _ => h.pure _
  | .arrayElement array index => by
    rw [Compiler.expr]
    refine h.bind (h.expr array) fun found => h.bind (h.required array found) fun type => ?_
    split
    · exact h.throw _
    · exact h.discardRequired (h.expr index) index fun _ =>
        h.bind (h.push _ rfl) fun _ => h.pure _
  | .objectArray element elements => by
    rw [Compiler.expr]
    exact h.bind (h.classType element) fun _ => h.bind (h.lift (h.building.constInt _)) fun _ =>
      h.bind (h.lift (h.building.newRefArray element)) fun _ =>
        h.bind (h.storeElements 0 elements) fun _ => h.pure _
  | .bitAnd a b => by
    rw [Compiler.expr]
    exact h.discardRequired (h.expr a) a fun _ =>
      h.discardRequired (h.expr b) b fun _ => h.bind (h.push _ rfl) fun _ => h.pure _

theorem values (h : ComposesExpr Fits Q P) : ∀ arguments : List Expr, P _ (Compiler.values arguments)
  | [] => by
    rw [Compiler.values]
    exact h.pure _
  | first :: rest => by
    rw [Compiler.values]
    exact h.discardRequired (h.expr first) first fun _ => h.values rest

theorem storeElements (h : ComposesExpr Fits Q P) : ∀ (position : Nat) (elements : List Expr),
    P _ (Compiler.storeElements position elements)
  | position, [] => by
    rw [Compiler.storeElements]
    exact h.pure _
  | position, first :: rest => by
    rw [Compiler.storeElements]
    exact h.bind (h.push _ rfl) fun _ => h.bind (h.lift (h.building.constInt _)) fun _ =>
      h.discardRequired (h.expr first) first fun _ =>
        h.bind (h.push _ rfl) fun _ => h.storeElements (position + 1) rest

end

end ComposesExpr

namespace ComposesOpen

section Steps

variable (h : ComposesOpen Fits Q P)
include h

theorem jump (branch : Branch Label) : P Unit (liftM (Builder.pushBranch branch)) :=
  h.lift (h.pushBranch branch)

theorem labelled {next : Label → Compiling β} (hn : ∀ label, P β (next label)) :
    P β ((liftM Builder.fresh : Compiling Label) >>= next) := h.bind (h.lift h.fresh) hn

theorem placeIfReachable (label : Label) : P Unit (Compiler.placeIfReachable label) :=
  h.bind h.isReachable fun _ => h.bind (h.isJumpedTo label) fun _ =>
    h.ite (h.lift (h.place label)) (h.pure _)

theorem gotoIfReachable (label : Label) : P Unit (Compiler.gotoIfReachable label) :=
  h.bind h.isReachable fun _ => h.ite (h.jump _) (h.pure _)

theorem declareVariable (name : String) (type : FieldType) : P Unit (Compiler.bind name type) :=
  h.allocate type fun slot fits => h.bind (h.lift (h.store slot type fits)) fun _ => h.declare name slot type fits

theorem value (expression : Expr) : P _ (Compiler.value expression) :=
  h.bind (h.expr expression) fun type => h.required expression type

theorem discardValue (expression : Expr) {next : PUnit → Compiling β} (hn : ∀ u, P β (next u)) :
    P β (discard (Compiler.value expression) >>= next) :=
  h.bind (h.bind (h.value expression) fun _ => h.pure _) hn

theorem junction {neutral jumpIf : Bool} {target : Label} {isEmpty : Bool} {each : Compiling Unit}
    {lastOf : Label → Compiling Unit} (heach : P _ each)
    (hlast : ∀ skip : Label, P _ (lastOf skip)) :
    P _ (Compiler.junction neutral jumpIf target isEmpty each lastOf) :=
  h.ite (h.ite (h.jump _) (h.pure _)) <| h.ite heach <| h.labelled fun skip =>
    h.bind (hlast skip) fun _ => h.placeIfReachable skip

end Steps

mutual

theorem cond (h : ComposesOpen Fits Q P) : ∀ (jumpIf : Bool) (target : Label) (condition : Cond),
    P _ (Compiler.cond jumpIf target condition)
  | jumpIf, target, .isNull operand => by
    rw [Compiler.cond]
    exact h.discardValue operand fun _ => h.jump _
  | jumpIf, target, .notNull operand => by
    rw [Compiler.cond]
    exact h.discardValue operand fun _ => h.jump _
  | jumpIf, target, .isTrue operand => by
    rw [Compiler.cond]
    exact h.discardValue operand fun _ => h.jump _
  | jumpIf, target, .isFalse operand => by
    rw [Compiler.cond]
    exact h.discardValue operand fun _ => h.jump _
  | jumpIf, target, .compare comparison a b => by
    rw [Compiler.cond]
    exact h.discardValue a fun _ => h.discardValue b fun _ => h.jump _
  | jumpIf, target, .not condition => by
    rw [Compiler.cond]
    exact h.cond (!jumpIf) target condition
  | jumpIf, target, .all conditions => by
    rw [Compiler.cond]
    exact h.junction (h.each jumpIf target conditions) fun skip =>
      h.lastOf jumpIf target skip conditions
  | jumpIf, target, .any conditions => by
    rw [Compiler.cond]
    exact h.junction (h.each jumpIf target conditions) fun skip =>
      h.lastOf jumpIf target skip conditions

theorem each (h : ComposesOpen Fits Q P) : ∀ (jumpIf : Bool) (target : Label) (conditions : List Cond),
    P _ (Compiler.each jumpIf target conditions)
  | jumpIf, target, [] => by
    rw [Compiler.each]
    exact h.pure _
  | jumpIf, target, first :: rest => by
    rw [Compiler.each]
    exact h.bind (h.cond jumpIf target first) fun _ => h.each jumpIf target rest

theorem lastOf (h : ComposesOpen Fits Q P) :
    ∀ (jumpIf : Bool) (target skip : Label) (conditions : List Cond),
      P _ (Compiler.lastOf jumpIf target skip conditions)
  | jumpIf, target, skip, [] => by
    rw [Compiler.lastOf]
    exact h.pure _
  | jumpIf, target, skip, [last] => by
    rw [Compiler.lastOf]
    exact h.cond jumpIf target last
  | jumpIf, target, skip, first :: second :: rest => by
    rw [Compiler.lastOf]
    · exact h.bind (h.cond (!jumpIf) skip first) fun _ =>
        h.lastOf jumpIf target skip (second :: rest)
    · simp

end

theorem condValue (h : ComposesOpen Fits Q P) (condition : Cond) : P _ (Compiler.condValue condition) := by
  refine h.labelled fun zero => h.labelled fun join =>
    h.bind (h.cond false zero condition) fun _ => h.bind h.isReachable fun _ => ?_
  have joined : P _ (do
      if ← Compiler.isJumpedTo zero then
        Builder.place zero
        Builder.constInt 0
      Compiler.placeIfReachable join : Compiling Unit) :=
    h.bind (h.isJumpedTo zero) fun _ => h.ite (h.bind (h.lift (h.place zero)) fun _ =>
      h.bind (h.lift (h.building.constInt 0)) fun _ => h.placeIfReachable join)
      (h.placeIfReachable join)
  exact h.ite (h.bind (h.lift (h.building.constInt 1)) fun _ => h.bind (h.jump _) fun _ => joined)
    joined

theorem allOf (h : ComposesOpen Fits Q P) (result : String) (array : Expr) (element : String)
    (test : Cond) : P _ (Compiler.allOf result array element test) := by
  have placed (label : Label) : P Unit (liftM (Builder.place label)) := h.lift (h.place label)
  have counted (value : Int32) : P Unit (liftM (Builder.constInt value)) :=
    h.lift (h.building.constInt value)
  have stored {slot : UInt16} {type : FieldType} (fits : Fits slot type) : P Unit (liftM (Builder.store slot type)) :=
    h.lift (h.store slot type fits)
  refine h.bind (h.value array) fun arrayType => ?_
  split
  · exact h.throw _
  · refine h.allocate _ fun arraySlot array => h.bind (stored array) fun _ =>
      h.allocate _ fun indexSlot index => h.bind (counted _) fun _ => h.bind (stored index) fun _ =>
      h.allocate _ fun resultSlot result => h.bind (counted _) fun _ => h.bind (stored result) fun _ =>
      h.allocate _ fun elementSlot element => h.bind (h.declare _ _ _ result) fun _ =>
      h.bind (h.declare _ _ _ element) fun _ => h.labelled fun head => h.labelled fun exit => ?_
    -- The head of the loop, the test, and what is done with its value.
    exact h.bind (placed head) fun _ => h.bind (h.push _ rfl) fun _ => h.bind (h.push _ rfl) fun _ =>
      h.bind (h.push _ rfl) fun _ => h.bind (h.jump _) fun _ => h.bind (h.push _ rfl) fun _ =>
      h.bind (h.push _ rfl) fun _ => h.bind (h.push _ rfl) fun _ => h.bind (stored element) fun _ =>
      h.bind (h.push _ rfl) fun _ => h.bind (h.condValue test) fun _ => h.bind (h.push _ rfl) fun _ =>
      h.bind (stored result) fun _ => h.bind (h.push _ rfl) fun _ => h.bind (h.jump _) fun _ => placed exit

theorem leave (h : ComposesOpen Fits Q P) (result : Option Expr) : P _ (Compiler.leave result) := by
  have left : P Unit (liftM Builder.leave) := h.lift h.returning
  refine h.bind h.shape fun shape => ?_
  extract_lets expected expectedText
  split
  · exact h.ite h.refuse left
  · exact h.bind (h.value _) fun _ => h.ite h.refuse left

theorem caught (h : ComposesOpen Fits Q P) (catchType binding : Option String) :
    P Unit (Compiler.caught catchType binding) := by
  cases binding with
  | none => exact h.lift h.pop
  | some name =>
    cases catchType with
    | none => exact h.bind (h.pure _) fun _ => h.declareVariable _ _
    | some found => exact h.bind (h.classType found) fun _ => h.declareVariable _ _

/-- The parts of what ends a region, if each of them has the property by itself. -/
theorem handling (h : ComposesOpen Fits Q P)
    (endTry : ∀ start catchType, Q (Label × EditFrame) (endTry start catchType))
    (placeWith : ∀ label frame, Q Unit (placeWith label frame)) (start after : Label)
    (catchType binding : Option String) : P Unit (Compiler.handling start after catchType binding) :=
  h.bind (h.lift (endTry start catchType)) fun ended => h.bind (h.gotoIfReachable after) fun _ =>
    h.bind (h.lift (placeWith ended.1 ended.2)) fun _ => h.caught catchType binding

end ComposesOpen

namespace Composes

mutual

theorem stmt (h : Composes Fits Q P) : ∀ statement : Stmt, P _ (Compiler.stmt statement)
  | .declare name descriptor initial => by
    rw [Compiler.stmt]
    exact h.bind (h.fieldType descriptor) fun type => h.discardValue initial fun _ =>
      h.declareVariable name type
  | .assign name assigned => by
    rw [Compiler.stmt]
    exact h.lookUp name fun slot type fits => h.discardValue assigned fun _ => h.lift (h.store slot type fits)
  | .setArgument index assigned => by
    rw [Compiler.stmt]
    exact h.argument index fun slot type fits => h.discardValue assigned fun _ => h.lift (h.store slot type fits)
  | .eval expression => by
    rw [Compiler.stmt]
    exact h.bind (h.expr expression) fun _ => h.ite (h.lift h.pop) (h.pure _)
  | .branch condition whenTrue whenFalse => by
    rw [Compiler.stmt]
    exact h.labelled fun otherwise => h.bind (h.cond false otherwise condition) fun _ =>
      h.bind (h.block whenTrue) fun _ => h.ite (h.placeIfReachable otherwise) <|
      h.labelled fun done => h.bind (h.gotoIfReachable done) fun _ =>
      h.bind (h.placeIfReachable otherwise) fun _ => h.bind (h.block whenFalse) fun _ =>
        h.placeIfReachable done
  | .loop condition body => by
    rw [Compiler.stmt]
    exact h.labelled fun head => h.labelled fun exit =>
      h.bind (h.lift (h.place head)) fun _ => h.bind (h.cond false exit condition) fun _ =>
      h.bind (h.block body) fun _ => h.bind (h.gotoIfReachable head) fun _ =>
        h.placeIfReachable exit
  | .increment name amount => by
    rw [Compiler.stmt]
    exact h.lookUp name fun _ _ _ => h.ite h.refuse (h.push _ rfl)
  | .allOf result array element test => by
    rw [Compiler.stmt]
    exact h.allOf result array element test
  | .tryCatch body catchType binding handler => by
    rw [stmt_tryCatch]
    exact h.ite h.refuse <| h.labelled fun after => h.bind (h.lift h.beginTry) fun start =>
      h.bind (h.block body) fun _ => h.bind (h.handling start after catchType binding) fun _ =>
      h.bind (h.block handler) fun _ => h.placeIfReachable after
  | .leave result => by
    rw [Compiler.stmt]
    exact h.leave result

theorem block (h : Composes Fits Q P) : ∀ statements : List Stmt, P _ (Compiler.block statements)
  | [] => by
    rw [Compiler.block]
    exact h.pure _
  | first :: rest => by
    rw [Compiler.block]
    exact h.bind (h.stmt first) fun _ => h.block rest

end

end Composes

end Compiler

end ClassWeave
