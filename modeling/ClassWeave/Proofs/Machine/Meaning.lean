import ClassWeave.Code.Effect
import ClassWeave.Script.Basic
import ClassWeave.Code.Body

/-!
Running code. A machine tells what its slots hold and what the instructions do that are about objects;
constants, locals, the stack, ints and jumps are the same on every machine. A wide value takes two
slots.
-/

namespace ClassWeave

/-- What an instruction asks of a machine, with the members and constants that it names. -/
inductive Action where
  | text (text : String)
  | long (value : Int64)
  | field (access : FieldAccess) (field : FieldName)
  | call (kind : CallKind) (method : ConstantPool.MemberRef)
  | cast (target : String)
  | newArray (element : String)
  | other (insn : Insn)
  deriving DecidableEq

/-- An interpretation of the instructions. An action takes the slots of its operands, topmost first, and
gives the number of slots that are asked for, or throws. -/
structure Machine where
  Slot : Type
  Heap : Type
  int : Int32 → Slot
  toInt : Slot → Int32
  toInt_int : ∀ value, toInt (int value) = value
  null : Slot
  isNull : Slot → Bool
  isNull_null : isNull null = true
  same : Slot → Slot → Bool
  perform : Action → List Slot → (count : Nat) → Heap →
    Except (Slot × Heap) ({ values : List Slot // values.length = count } × Heap)
  /-- What is thrown for an operand of a throw, which may be null. -/
  raise : Slot → Heap → Slot × Heap
  isInstance : Slot → String → Heap → Bool

variable {M : Machine}

/-- The heap, and what was done to it, the latest first. -/
structure World (M : Machine) where
  heap : M.Heap
  log : List (Action × List M.Slot)

/-- Contents of the local slots; a slot is empty until something is stored there. -/
abbrev Locals (M : Machine) := Nat → Option M.Slot

namespace World

def perform (world : World M) (action : Action) (operands : List M.Slot) (count : Nat) :
    Except (M.Slot × World M) ({ values : List M.Slot // values.length = count } × World M) :=
  let log := (action, operands) :: world.log
  match M.perform action operands count world.heap with
  | .ok (values, heap) => .ok (values, ⟨heap, log⟩)
  | .error (exception, heap) => .error (exception, ⟨heap, log⟩)

end World

namespace Locals

/-- The slots of a value, if all of them hold something. -/
def read (locals : Locals M) (slot count : Nat) : Option (List M.Slot) :=
  (List.range' slot count).mapM locals

def write (locals : Locals M) (slot : Nat) (values : List M.Slot) : Locals M := fun i =>
  if slot ≤ i ∧ i < slot + values.length then values[i - slot]? else locals i

end Locals

/-- What an instruction does at a position, apart from where handlers and labels are. -/
inductive Move (M : Machine) where
  | next (locals : Locals M) (stack : List M.Slot) (world : World M)
  | jump (target : Label) (stack : List M.Slot)
  | returned (values : List M.Slot)
  | thrown (exception : M.Slot) (world : World M)
  | stuck

def StackOp.rearrange {α : Type} : StackOp → List α → Option (List α)
  | .pop, _ :: rest => some rest
  | .pop2, _ :: _ :: rest => some rest
  | .dup, a :: rest => some (a :: a :: rest)
  | .dupX1, a :: b :: rest => some (a :: b :: a :: rest)
  | .dupX2, a :: b :: c :: rest => some (a :: b :: c :: a :: rest)
  | .dup2, a :: b :: rest => some (a :: b :: a :: b :: rest)
  | .dup2X1, a :: b :: c :: rest => some (a :: b :: c :: a :: b :: rest)
  | .dup2X2, a :: b :: c :: d :: rest => some (a :: b :: c :: d :: a :: b :: rest)
  | .swap, a :: b :: rest => some (b :: a :: rest)
  | _, _ => none

def BitOp.apply : BitOp → Int32 → Int32 → Int32
  | .and => (· &&& ·)
  | .or => (· ||| ·)
  | .xor => (· ^^^ ·)

def InvokeKind.callKind : InvokeKind → CallKind
  | .virtual => .virtual
  | .special => .special
  | .static => .static
  | .interface _ => .interface

namespace Insn

/-- The action of an instruction that is about objects. -/
def action (pool : ConstantPool) : Insn → Except ClassError Action
  | .constLong value => return .long (Int64.ofNat value.val)
  | .loadConstant index => do
    match ← pool.get index with
    | .string text => return .text (← pool.utf8 text)
    | _ => return .other (.loadConstant index)
  | .loadWideConstant index => do
    match ← pool.get index with
    | .long value => return .long value
    | _ => return .other (.loadWideConstant index)
  | .field access index => do
    let field ← pool.fieldRef index
    return .field access ⟨field.owner, field.name, field.descriptor⟩
  | .invoke kind index => return .call kind.callKind (← pool.methodRef index)
  | .checkCast index => return .cast (← pool.className index)
  | .newRefArray index => return .newArray (← pool.className index)
  | insn => return .other insn

/-- Takes operands from the stack and puts the values there that the machine gives. -/
def act (pool : ConstantPool) (insn : Insn) (locals : Locals M) (stack : List M.Slot)
    (world : World M) : Move M :=
  match insn.action pool, insn.stackEffect pool with
  | .ok action, .ok effect =>
    if effect.pops ≤ stack.length then
      match world.perform action (stack.take effect.pops) effect.pushes with
      | .ok (values, world) => .next locals (values.val ++ stack.drop effect.pops) world
      | .error (exception, world) => .thrown exception world
    else .stuck
  | _, _ => .stuck

def run (pool : ConstantPool) (insn : Insn) (locals : Locals M) (stack : List M.Slot)
    (world : World M) : Move M :=
  match insn with
  | .nop => .next locals stack world
  | .constNull => .next locals (M.null :: stack) world
  | .constInt value => .next locals (M.int (Int32.ofInt (value.val - 1)) :: stack) world
  | .pushByte value => .next locals (M.int value.toInt32 :: stack) world
  | .pushShort value => .next locals (M.int value.toInt32 :: stack) world
  | .loadConstant index =>
    match pool.get index with
    | .ok (.integer value) => .next locals (M.int value :: stack) world
    | _ => act pool insn locals stack world
  | .load kind slot =>
    match locals.read slot.toNat kind.width with
    | some values => .next locals (values ++ stack) world
    | none => .stuck
  | .store kind slot =>
    if kind.width ≤ stack.length then
      .next (locals.write slot.toNat (stack.take kind.width)) (stack.drop kind.width) world
    else .stuck
  | .stack op =>
    match op.rearrange stack with
    | some stack => .next locals stack world
    | none => .stuck
  | .bitwise op false =>
    match stack with
    | b :: a :: rest => .next locals (M.int (op.apply (M.toInt a) (M.toInt b)) :: rest) world
    | _ => .stuck
  | .increment slot amount =>
    match locals slot.toNat with
    | some value =>
      .next (locals.write slot.toNat [M.int (M.toInt value + amount.toInt32)]) stack world
    | none => .stuck
  | insn => act pool insn locals stack world

end Insn

namespace Branch

/-- Jumps if the test of the value on top succeeds. -/
def decide (test : M.Slot → Bool) (target : Label) (locals : Locals M) (stack : List M.Slot)
    (world : World M) : Move M :=
  match stack with
  | value :: rest => if test value then .jump target rest else .next locals rest world
  | _ => .stuck

/-- Jumps if the test of the two values on top succeeds. -/
def decide₂ (test : M.Slot → M.Slot → Bool) (target : Label) (locals : Locals M)
    (stack : List M.Slot) (world : World M) : Move M :=
  match stack with
  | b :: a :: rest => if test a b then .jump target rest else .next locals rest world
  | _ => .stuck

/-- Target of a table for a key. -/
def entry (default : Label) (low : Int32) (targets : List Label) (key : Int32) : Label :=
  if low ≤ key then targets[(key.toInt - low.toInt).toNat]?.getD default else default

def run (branch : Branch Label) (locals : Locals M) (stack : List M.Slot) (world : World M) :
    Move M :=
  match branch with
  | .ifZero comparison target =>
    decide (fun value => comparison.holds (M.toInt value) 0) target locals stack world
  | .ifInts comparison target =>
    decide₂ (fun a b => comparison.holds (M.toInt a) (M.toInt b)) target locals stack world
  | .ifRefs equality target =>
    decide₂ (fun a b => M.same a b == (equality == .eq)) target locals stack world
  | .ifNull equality target =>
    decide (fun value => M.isNull value == (equality == .eq)) target locals stack world
  | .goto target => .jump target stack
  | .tableSwitch default low targets =>
    match stack with
    | key :: rest => .jump (entry default low targets (M.toInt key)) rest
    | _ => .stuck
  | .lookupSwitch default targets =>
    match stack with
    | key :: rest => .jump ((targets.lookup (M.toInt key)).getD default) rest
    | _ => .stuck
  | .return none => .returned []
  | .return (some kind) =>
    if kind.width ≤ stack.length then .returned (stack.take kind.width) else .stuck
  | .raise =>
    match stack with
    | value :: _ =>
      let (exception, heap) := M.raise value world.heap
      .thrown exception { world with heap }
    | _ => .stuck

end Branch

/-- Code to run, with the constants that it names. -/
structure Program where
  nodes : List Node
  handlers : List Handler
  pool : ConstantPool

def MethodBody.program (body : MethodBody) (pool : ConstantPool) : Program :=
  ⟨body.nodes, body.handlers, pool⟩

/-- The position is that of the next node. -/
structure State (M : Machine) where
  position : Nat
  locals : Locals M
  stack : List M.Slot
  world : World M

/-- What has become of code after some steps. -/
inductive Outcome (M : Machine) where
  | running (state : State M)
  | returned (values : List M.Slot) (world : World M)
  | escaped (exception : M.Slot) (world : World M)
  | stuck

/-- Does a handler for a class catch an exception? -/
def Machine.catches (M : Machine) (catchType : Option String) (exception : M.Slot)
    (world : World M) : Bool :=
  match catchType with
  | none => true
  | some name => M.isInstance exception name world.heap

namespace Program

variable (program : Program)

def position? (label : Label) : Option Nat := program.nodes.findIdx? (· = .label label)

/-- Is the position in the range of a handler? -/
def covers (handler : Handler) (position : Nat) : Bool :=
  match program.position? handler.start, program.position? handler.stop with
  | some start, some stop => start ≤ position && position < stop
  | _, _ => false

/-- The first handler that catches what is thrown at a position. -/
def handlerFor? (position : Nat) (exception : M.Slot) (world : World M) : Option Handler :=
  program.handlers.find? fun handler =>
    program.covers handler position && M.catches handler.catchType exception world

/-- What the node at the position does; control that has run past the end is stuck. -/
def move (state : State M) : Move M :=
  match program.nodes[state.position]? with
  | none => .stuck
  | some (.label _) => .next state.locals state.stack state.world
  | some (.insn i) => i.run program.pool state.locals state.stack state.world
  | some (.branch b) => b.run state.locals state.stack state.world

/-- Control goes on behind an instruction, at a label, or with the exception at a handler. -/
def step (state : State M) : Outcome M :=
  match program.move state with
  | .next locals stack world => .running ⟨state.position + 1, locals, stack, world⟩
  | .jump target stack =>
    match program.position? target with
    | some position => .running ⟨position, state.locals, stack, state.world⟩
    | none => .stuck
  | .returned values => .returned values state.world
  | .thrown exception world =>
    match program.handlerFor? state.position exception world with
    | none => .escaped exception world
    | some handler =>
      match program.position? handler.handler with
      | some position => .running ⟨position, state.locals, [exception], world⟩
      | none => .stuck
  | .stuck => .stuck

def after : Nat → State M → Outcome M
  | 0, state => .running state
  | steps + 1, state =>
    match program.step state with
    | .running next => after steps next
    | outcome => outcome

section Steps

variable {program : Program} {state next : State M} {outcome : Outcome M}

theorem after_succ (h : program.step state = .running next) (steps : Nat) :
    program.after (steps + 1) state = program.after steps next := by
  rw [after, h]

theorem after_one : program.after 1 state = program.step state := by
  rw [after]
  split
  · next h => rw [h]; rfl
  · rfl

/-- Code that has got somewhere runs on from there. -/
theorem after_add {m : Nat} (h : program.after m state = .running next) (n : Nat) :
    program.after (m + n) state = program.after n next := by
  induction m generalizing state with
  | zero =>
    cases h
    rw [Nat.zero_add]
  | succ m ih =>
    rw [after] at h
    split at h
    · next first hstep =>
      rw [Nat.succ_add, after_succ hstep]
      exact ih h
    · next hne =>
      exact absurd h (hne next)

/-- Code that has ended stays so. -/
theorem after_of_le {m n : Nat} (h : program.after m state = outcome) (hne : ∀ s, outcome ≠ .running s)
    (hle : m ≤ n) : program.after n state = outcome := by
  induction m generalizing state n with
  | zero => exact absurd h.symm (hne state)
  | succ m ih =>
    obtain ⟨n, rfl⟩ : ∃ k, n = k + 1 := ⟨n - 1, by omega⟩
    rw [after] at h ⊢
    split
    · next first hstep =>
      rw [hstep] at h
      exact ih h (by omega)
    · next hstep =>
      split at h
      · next first hrun => exact absurd hrun (hstep first)
      · exact h

end Steps

end Program

end ClassWeave
