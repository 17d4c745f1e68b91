import ClassWeave.Code.Body
import ClassWeave.Frame.Verify

/-!
Building code. A builder knows the frame at the end of its code and refuses an instruction that
cannot run there. A label that is jumped to before it is placed has the merge of the frames of the
jumps; once it is placed its frame is fixed, and later jumps have to arrive with a frame that may
flow into it.
-/

namespace ClassWeave

/-- The nodes and the handlers are in reverse. -/
structure Builder where
  pool : ConstantPool
  labels : LabelSupply
  shape : MethodShape
  nodes : List Node
  /-- Frame behind the last node, if control gets there. -/
  frame : Option EditFrame
  /-- Frames of the labels that are placed or jumped to. -/
  labelFrames : FrameTable
  /-- Labels whose frames belong in a stack map. -/
  needsFrame : List Label
  /-- Label right behind the last instruction. -/
  pending : Option Label
  /-- For each open region, innermost first, what is known of the locals everywhere in it. -/
  regions : List (List EditType)
  handlers : List Handler
  maxStack : UInt16
  maxLocals : UInt16

/-- Code to be put into a body. `exit` is the frame at its end, if control gets there. -/
structure Fragment where
  nodes : List Node
  frames : FrameTable
  handlers : List Handler
  exit : Option EditFrame
  maxStack : UInt16
  maxLocals : UInt16

def Fragment.envelope (fragment : Fragment) : Envelope := ⟨fragment.maxStack, fragment.maxLocals⟩

abbrev Building := EStateM ClassError Builder

namespace Builder

/-- No code yet, with control arriving in the given frame. -/
def start (pool : ConstantPool) (labels : LabelSupply) (shape : MethodShape) (entry : EditFrame) :
    Builder where
  pool := pool
  labels := labels
  shape := shape
  nodes := []
  frame := some entry
  labelFrames := []
  needsFrame := []
  pending := none
  regions := []
  handlers := []
  maxStack := UInt16.ofNat entry.stackSlots
  maxLocals := UInt16.ofNat entry.locals.length

def isReachable (builder : Builder) : Bool := builder.frame.isSome

def isJumpedTo (builder : Builder) (label : Label) : Bool :=
  (builder.labelFrames.find? label).isSome

def isPlaced (builder : Builder) (label : Label) : Bool := builder.nodes.contains (.label label)

/-- Raises the bounds to the current frame, and weakens what is known in the open regions by it. -/
def observe (builder : Builder) : Builder :=
  match builder.frame with
  | none => builder
  | some frame =>
    let stack := UInt16.ofNat frame.stackSlots
    let locals := UInt16.ofNat frame.locals.length
    { builder with
      maxStack := if builder.maxStack ≤ stack then stack else builder.maxStack
      maxLocals := if builder.maxLocals ≤ locals then locals else builder.maxLocals
      regions := builder.regions.map fun known =>
        EditFrame.dropHalves (EditFrame.meetLocals known frame.locals) }

/-- Puts a node at the end. -/
def append (builder : Builder) (node : Node) (pending : Option Label) : Builder :=
  observe { builder with nodes := node :: builder.nodes, pending := pending }

def require (builder : Builder) (label : Label) : Builder :=
  if builder.needsFrame.contains label then builder
  else { builder with needsFrame := label :: builder.needsFrame }

def setFrame (builder : Builder) (label : Label) (frame : EditFrame) : Builder :=
  { builder with labelFrames := builder.labelFrames.set label frame }

/-- A step on the constants. -/
def interning {α : Type} (step : Interning α) : Building α := fun builder =>
  match step builder.pool with
  | .ok value pool => .ok value { builder with pool := pool }
  | .error problem pool => .error (.pool problem) { builder with pool := pool }

def fresh : Building Label := fun builder =>
  let (label, labels) := builder.labels.fresh
  .ok label { builder with labels := labels }

/-- Notes a jump with the given frame. -/
def jumpTo (target : Label) (frame : EditFrame) : Building Unit := do
  modify (·.require target)
  let builder ← get
  match builder.labelFrames.find? target with
  | none =>
    if builder.isPlaced target then throw (.missingFrame target)
    set (builder.setFrame target frame)
  | some expected =>
    if builder.isPlaced target then
      unless frame.isAssignableTo expected do throw (.incompatibleFrames target frame expected)
    else match expected.merge frame with
      | some merged => set (builder.setFrame target merged)
      | none => throw (.incompatibleFrames target frame expected)

/-- Puts a label at the end, whose frame is known. -/
def placeKnown (label : Label) : Building Unit := do
  let builder ← get
  if builder.isPlaced label then throw (.duplicateLabel label)
  set (builder.append (.label label) (some label))

/-- Puts a label where control falls into it or jumps to it. -/
def place (label : Label) : Building Unit := do
  let builder ← get
  if builder.isPlaced label then throw (.duplicateLabel label)
  let frame ← match builder.frame, builder.labelFrames.find? label with
    | some current, none => pure current
    | some current, some jumped =>
      match jumped.merge current with
      | some merged => pure merged
      | none => throw (.incompatibleFrames label current jumped)
    | none, some jumped => pure jumped
    | none, none => throw (.unreachableLabel label)
  let builder := if builder.isReachable then builder else builder.require label
  let builder := builder.setFrame label frame
  set ({ builder with frame := some frame }.append (.label label) (some label))

/-- Puts a label with a given frame, into which whatever arrives has to flow. -/
def placeWith (label : Label) (frame : EditFrame) : Building Unit := do
  let builder ← get
  for arriving in builder.frame.toList ++ (builder.labelFrames.find? label).toList do
    unless arriving.isAssignableTo frame do throw (.incompatibleFrames label arriving frame)
  let builder := (builder.require label).setFrame label frame
  set { builder with frame := some frame }
  placeKnown label

/-- The label in front of an instruction. An allocation gets one. -/
def allocation (insn : Insn) : Building (Option Label) := do
  match insn, (← get).pending with
  | .new _, none =>
    let label ← fresh
    place label
    return some label
  | _, pending => return pending

/-- Puts an instruction. -/
def push (insn : Insn) : Building Unit := do
  let allocation ← allocation insn
  let builder ← get
  match builder.frame with
  | none => throw .unreachableCode
  | some frame =>
    match insn.verify builder.pool builder.shape.thisClass allocation frame with
    | .error cause => throw (.refused insn.text cause)
    | .ok (_, frame) => set ({ builder with frame := some frame }.append (.insn insn) none)

/-- Puts a jump, whose targets get the frame behind it. -/
def pushBranch (branch : Branch Label) : Building Unit := do
  let builder ← get
  match builder.frame with
  | none => throw .unreachableCode
  | some frame =>
    set { builder with frame := none }
    match branch.verify builder.shape.returnType frame with
    | .error cause => throw (.refused (branch.text Label.text) cause)
    | .ok (_, frame) =>
      branch.jumpTargets.forM (jumpTo · frame)
      let next := if branch.fallsThrough then some frame else none
      modify fun builder => { builder with frame := next }.append (.branch branch) none

/-- Opens a protected region. -/
def beginTry : Building Label := do
  match (← get).frame with
  | none => throw .unreachableCode
  | some frame =>
    let label ← fresh
    place label
    modify fun builder => { builder with regions := frame.locals :: builder.regions }
    return label

def addHandler (handler : Handler) : Building Unit :=
  modify fun builder =>
    { builder.require handler.handler with handlers := handler :: builder.handlers }

/-- Type of what a handler catches. -/
def caughtType (catchType : Option String) : EditType :=
  .object (catchType.getD ClassName.throwable.text)

/-- The innermost region ends at a label. Its handler, still to be placed, starts with what is known of
the locals everywhere in the region. -/
def closeRegion (start stop : Label) (catchType : Option String) :
    Building (Label × EditFrame) := do
  match (← get).regions with
  | [] => throw .unreachableCode
  | known :: outer =>
    modify fun builder => { builder with regions := outer }
    let frame : EditFrame := ⟨known, [caughtType catchType]⟩
    let handler ← fresh
    addHandler ⟨start, stop, handler, catchType⟩
    modify (·.setFrame handler frame)
    return (handler, frame)

/-- Closes the innermost region here. -/
def endTry (start : Label) (catchType : Option String) : Building (Label × EditFrame) := do
  let stop ← fresh
  if (← get).isReachable then place stop else placeKnown stop
  closeRegion start stop catchType

def finish (builder : Builder) : Fragment where
  nodes := builder.nodes.reverse
  frames := builder.labelFrames.filter fun entry => builder.needsFrame.contains entry.1
  handlers := builder.handlers.reverse
  exit := builder.frame
  maxStack := builder.maxStack
  maxLocals := builder.maxLocals

/-- Pushes an int, by the shortest instruction that does. -/
def constInt (value : Int32) : Building Unit := do
  if -1 ≤ value ∧ value ≤ 5 then push (.constInt ⟨(value.toInt + 1).toNat % 7, Nat.mod_lt _ (by decide)⟩)
  else if -128 ≤ value ∧ value ≤ 127 then push (.pushByte value.toInt8)
  else if -32768 ≤ value ∧ value ≤ 32767 then push (.pushShort value.toInt16)
  else push (.loadConstant (← interning (ConstantPool.internInteger value)))

def constLong (value : Int64) : Building Unit := do
  if value = 0 then push (.constLong ⟨0, by decide⟩)
  else if value = 1 then push (.constLong ⟨1, by decide⟩)
  else push (.loadWideConstant (← interning (ConstantPool.internLong value)))

def constString (text : String) : Building Unit := do
  push (.loadConstant (← interning (ConstantPool.internString text)))

def field (access : FieldAccess) (owner name descriptor : String) : Building Unit := do
  push (.field access (← interning (ConstantPool.internField owner name descriptor)))

/-- Whether a call goes through an interface; the slots in the kind do not matter. -/
def invoke (kind : InvokeKind) (owner name descriptor : String) : Building Unit := do
  let ofInterface := match kind with
    | .interface _ => true
    | _ => false
  let index ← interning (ConstantPool.internMethod owner name descriptor ofInterface)
  match kind with
  | .interface _ =>
    match MethodDescriptor.parse descriptor with
    | .error _ => throw (.badDescriptor descriptor)
    | .ok method => push (.invoke (.interface (UInt8.ofNat (method.parameterSlots true))) index)
  | kind => push (.invoke kind index)

def checkCast (name : String) : Building Unit := do
  push (.checkCast (← interning (ConstantPool.internClass name)))

def newRefArray (element : String) : Building Unit := do
  push (.newRefArray (← interning (ConstantPool.internClass element)))

def load (slot : UInt16) (type : FieldType) : Building Unit :=
  push (.load (SlotKind.ofFieldType type) slot)

def store (slot : UInt16) (type : FieldType) : Building Unit :=
  push (.store (SlotKind.ofFieldType type) slot)

/-- Drops the value on top, which may be wide. -/
def pop : Building Unit := do
  match (← get).frame with
  | some ⟨_, type :: _⟩ => push (.stack (if type.isWide then .pop2 else .pop))
  | _ => push (.stack .pop)

/-- Leaves the method with what is on top, if it returns something. -/
def leave : Building Unit := do
  pushBranch (.returnFor (← get).shape.returnType)

/-- Pushes the default value of a type. -/
def zero (type : FieldType) : Building Unit :=
  push <| match SlotKind.ofFieldType type with
    | .int => .constInt ⟨1, by decide⟩
    | .long => .constLong ⟨0, by decide⟩
    | .float => .constFloat ⟨0, by decide⟩
    | .double => .constDouble ⟨0, by decide⟩
    | .reference => .constNull

end Builder

end ClassWeave
