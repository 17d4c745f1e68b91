import ClassWeave.Frame.Type

/-!
Frames: the types of the locals and of the operand stack at a point of the code. Locals have one
entry per slot, so a wide value is followed by `top`; class files leave that entry out.
-/

namespace ClassWeave

/-- The stack has its top first. -/
structure Frame (Class Position : Type) where
  locals : List (VerificationType Class Position)
  stack : List (VerificationType Class Position)
  deriving DecidableEq, Repr

abbrev EditFrame := Frame String Label
abbrev StoredFrame := Frame PoolIndex UInt16

namespace Frame

variable {C P : Type}

/-- One entry per value: the second slot of each wide value is left out. -/
def valuesOf : List (VerificationType C P) → List (VerificationType C P)
  | [] => []
  | [type] => [type]
  | type :: second :: rest =>
    if type.isWide then type :: valuesOf rest else type :: valuesOf (second :: rest)

/-- Without the unusable entries at the end. -/
def dropTops [DecidableEq C] [DecidableEq P] (types : List (VerificationType C P)) :
    List (VerificationType C P) :=
  (types.reverse.dropWhile (· = .top)).reverse

/-- Locals as a class file lists them. -/
def compactLocals [DecidableEq C] [DecidableEq P] (frame : Frame C P) :
    List (VerificationType C P) :=
  dropTops (valuesOf frame.locals)

/-- One entry per slot. -/
def slotsOf (types : List (VerificationType C P)) : List (VerificationType C P) :=
  types.flatMap fun type => if type.isWide then [type, .top] else [type]

def ofCompact (locals stack : List (VerificationType C P)) : Frame C P := ⟨slotsOf locals, stack⟩

/-- Equal but for unusable locals at the end. -/
def sameAs [DecidableEq C] [DecidableEq P] (a b : Frame C P) : Bool :=
  a.stack = b.stack ∧ a.compactLocals = b.compactLocals

/-- Slots of a stack. -/
def slotCount (types : List (VerificationType C P)) : Nat :=
  (types.map VerificationType.width).foldr (· + ·) 0

def stackSlots (frame : Frame C P) : Nat := slotCount frame.stack

/-- Translates each type, locals first and the stack from its bottom. -/
def mapM {C' P' : Type} {m : Type → Type} [Monad m] (onClass : C → m C') (onPosition : P → m P')
    (frame : Frame C P) : m (Frame C' P') := do
  let locals ← frame.locals.mapM (·.mapM onClass onPosition)
  let stack ← frame.stack.reverse.mapM (·.mapM onClass onPosition)
  return ⟨locals, stack.reverse⟩

end Frame

namespace EditFrame

/-- On entry to a method the locals hold the receiver, if there is one, and the parameters. -/
def methodEntry (thisClass : String) (isStatic isConstructor : Bool)
    (descriptor : MethodDescriptor) : EditFrame :=
  let receiver : List EditType :=
    if isConstructor then [.uninitializedThis] else if isStatic then [] else [.object thisClass]
  .ofCompact (receiver ++ descriptor.parameters.map EditType.ofFieldType) []

/-- At least `count` entries, with `top` in those that are new. -/
def padTo (count : Nat) (locals : List EditType) : List EditType :=
  locals ++ List.replicate (count - locals.length) .top

/-- Stores a type in a slot. A wide value of which a slot is overwritten loses its other slot. -/
def setLocal (frame : EditFrame) (slot : UInt16) (type : EditType) : EditFrame :=
  let i := slot.toNat
  let wideAt (locals : List EditType) (i : Nat) : Bool := (locals[i]?.map (·.isWide)).getD false
  let locals := padTo (i + type.width) frame.locals
  let locals := if 0 < i ∧ wideAt locals (i - 1) then locals.set (i - 1) .top else locals
  let locals := if type.isWide ∧ wideAt locals (i + 1) then locals.set (i + 2) .top else locals
  let locals := if ¬type.isWide ∧ wideAt locals i then locals.set (i + 1) .top else locals
  let locals := locals.set i type
  { frame with locals := if type.isWide then locals.set (i + 1) .top else locals }

/-- Locals of which either list may be the longer; what lies past its end is `top`. -/
def meetLocals : List EditType → List EditType → List EditType
  | [], others => others.map (EditType.meet .top)
  | locals, [] => locals.map (EditType.meet · .top)
  | a :: locals, b :: others => EditType.meet a b :: meetLocals locals others

/-- A wide value without `top` behind it cannot be used. -/
def dropHalves : List EditType → List EditType
  | [] => []
  | type :: rest =>
    (if type.isWide ∧ rest.head? ≠ some .top then .top else type) :: dropHalves rest

/-- What is known at a point that both frames reach. Stacks that differ have no such frame, unless a
null meets an object. -/
def merge (a b : EditFrame) : Option EditFrame :=
  if a.stack.length ≠ b.stack.length then none
  else
    let stack := List.zipWith EditType.meet a.stack b.stack
    if stack.contains .top then none
    else some ⟨dropHalves (meetLocals a.locals b.locals), stack⟩

def localsAssignable : List EditType → List EditType → Bool
  | _, [] => true
  | [], target :: targets => EditType.assignable .top target && localsAssignable [] targets
  | type :: types, target :: targets =>
    EditType.assignable type target && localsAssignable types targets

/-- May a state with the first frame flow to a point with the second? -/
def isAssignableTo (frame target : EditFrame) : Bool :=
  frame.stack.length = target.stack.length
    && (List.zipWith EditType.assignable frame.stack target.stack).all id
    && localsAssignable frame.locals target.locals

end EditFrame

end ClassWeave
