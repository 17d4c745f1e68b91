import ClassWeave.Code.Layout

/-!
Writing a body as a code attribute: bytes for the nodes of a layout, offsets for the labels in the
tables, and the stack map table for the versions that have one.
-/

namespace ClassWeave

namespace LabelTable

def distance (labels : LabelTable) (offset : Nat) (label : Label) : Except ClassError Int :=
  return (← labels.offset label) - offset

def shortJump (labels : LabelTable) (offset : Nat) (opcode : UInt8) (label : Label) :
    Except ClassError Bytes := do
  let distance ← labels.distance offset label
  if isShortDistance distance then return opcode :: Bytes.i16 (Int16.ofInt distance)
  else throw (.branchOutOfRange label distance)

def longJump (labels : LabelTable) (offset : Nat) (label : Label) : Except ClassError Bytes :=
  return Bytes.i32 (Int32.ofInt (← labels.distance offset label))

/-- Offset of a label as tables hold it. -/
def index (labels : LabelTable) (label : Label) : Except ClassError UInt16 :=
  return UInt16.ofNat (← labels.offset label)

end LabelTable

namespace Branch

def bytes (labels : LabelTable) (offset : Nat) (wide : Bool) :
    Branch Label → Except ClassError Bytes
  | .ifZero comparison target => labels.shortJump offset (0x99 + comparison.code) target
  | .ifInts comparison target => labels.shortJump offset (0x9F + comparison.code) target
  | .ifRefs equality target => labels.shortJump offset (0xA5 + equality.code) target
  | .ifNull equality target => labels.shortJump offset (0xC6 + equality.code) target
  | .goto target =>
    if wide then return 0xC8 :: (← labels.longJump offset target)
    else labels.shortJump offset 0xA7 target
  | .tableSwitch default low targets => do
    let default ← labels.longJump offset default
    let jumps ← targets.mapM (labels.longJump offset)
    let high := low + Int32.ofNat targets.length - 1
    return 0xAA :: List.replicate (switchPadding offset) 0 ++ default ++ Bytes.i32 low
      ++ Bytes.i32 high ++ jumps.flatten
  | .lookupSwitch default targets => do
    let default ← labels.longJump offset default
    let pairs ← targets.mapM fun (key, target) => do
      return Bytes.i32 key ++ (← labels.longJump offset target)
    return 0xAB :: List.replicate (switchPadding offset) 0 ++ default
      ++ Bytes.i32 (Int32.ofNat targets.length) ++ pairs.flatten
  | .return (some kind) => return [0xAC + kind.code]
  | .return none => return [0xB1]
  | .raise => return [0xBF]

end Branch

namespace Placed

def bytes (labels : LabelTable) (placed : Placed) : Except ClassError Bytes :=
  match placed.node with
  | .label _ => return []
  | .insn i => return i.bytes
  | .branch b => b.bytes labels placed.offset placed.wide

end Placed

namespace Layout

def bytes (layout : Layout) : Except ClassError Bytes :=
  return (← layout.nodes.mapM (·.bytes layout.labels)).flatten

end Layout

def Handler.encode (labels : LabelTable) (handler : Handler) : Encoding ExceptionEntry := do
  let start ← labels.index handler.start
  let stop ← labels.index handler.stop
  if stop ≤ start then throw (.emptyRange handler.start handler.stop)
  let catchType ← match handler.catchType with
    | none => pure none
    | some name => some <$> (ConstantPool.internClass name : Interning PoolIndex)
  return ⟨start, stop, ← labels.index handler.handler, catchType⟩

/-- Frames at offsets, in ascending order. -/
abbrev OffsetFrames := List (Nat × EditFrame)

namespace OffsetFrames

/-- Puts a frame at an offset; one that is already there has to be the same. -/
def set (offset : Nat) (frame : EditFrame) : OffsetFrames → Except ClassError OffsetFrames
  | [] => .ok [(offset, frame)]
  | (other, existing) :: rest =>
    if offset < other then .ok ((offset, frame) :: (other, existing) :: rest)
    else if offset = other then
      if existing.sameAs frame then .ok ((offset, frame) :: rest)
      else .error (.conflictingFrames offset)
    else match set offset frame rest with
      | .ok rest => .ok ((other, existing) :: rest)
      | .error problem => .error problem

def hasOffset (frames : OffsetFrames) (offset : Nat) : Bool := frames.any (·.1 = offset)

/-- Frames at labels inside the code; those of labels that are not placed are left out. -/
def ofLabels (layout : Layout) (frames : FrameTable) : Except ClassError OffsetFrames :=
  frames.foldlM (fun placed (label, frame) =>
    match layout.labels.offset? label with
    | none => .ok placed
    | some offset => if offset = layout.length then .ok placed else placed.set offset frame) []

/-- Control that arrives by a jump needs a frame. -/
def checkTargets (layout : Layout) (frames : OffsetFrames) (targets : List Label) :
    Except ClassError Unit :=
  targets.forM fun label => do
    unless frames.hasOffset (← layout.labels.offset label) do throw (.missingFrame label)

/-- Code behind a node that never falls through needs a frame. -/
def checkAfterJumps (frames : OffsetFrames) :
    List Placed → (afterJump : Bool) → (label : Option Label) → Except ClassError Unit
  | [], _, _ => .ok ()
  | placed :: rest, afterJump, label =>
    match placed.node with
    | .label next => checkAfterJumps frames rest afterJump (some next)
    | node =>
      if afterJump ∧ ¬frames.hasOffset placed.offset then
        match label with
        | some label => .error (.missingFrame label)
        | none => .error .unreachableCode
      else checkAfterJumps frames rest (!node.fallsThrough) none

end OffsetFrames

/-- A frame as a class file holds it. All labels are looked up before a class is interned. -/
def EditFrame.store (labels : LabelTable) (frame : EditFrame) : Encoding StoredFrame := do
  let positioned ← (frame.mapM pure labels.index : Except ClassError (Frame String UInt16))
  positioned.mapM (fun name => (ConstantPool.internClass name : Interning PoolIndex)) pure

/-- Each frame as its difference from the one before it. The first delta is the offset itself, and
each further one is one less than the distance. -/
def OffsetFrames.compress (labels : LabelTable) :
    OffsetFrames → (previous : StoredFrame) → (previousOffset : Option Nat) →
      (done : List StackMapFrame) → Encoding (List StackMapFrame)
  | [], _, _, done => return done.reverse
  | (offset, frame) :: rest, previous, previousOffset, done => do
    let stored ← EditFrame.store labels frame
    let delta := match previousOffset with
      | none => offset
      | some before => offset - before - 1
    compress labels rest stored (some offset)
      (StoredFrame.stackMapFrame stored (UInt16.ofNat delta) previous :: done)

namespace MethodBody

def stackMap (body : MethodBody) (layout : Layout) : Encoding (List StackMapFrame) := do
  let frames ← OffsetFrames.ofLabels layout body.frames
  frames.checkTargets layout body.jumpTargets
  frames.checkAfterJumps layout.nodes false none
  let entry ← EditFrame.store layout.labels body.shape.entryFrame
  frames.compress layout.labels entry none []

def encodeLine (labels : LabelTable) (entry : LineEntry) : Except ClassError LineNumber :=
  return ⟨← labels.index entry.start, entry.line⟩

/-- An entry that ends before its start covers nothing. -/
def encodeLocal (labels : LabelTable) (entry : LocalEntry) : Encoding LocalVariable := do
  let start ← labels.offset entry.start
  let stop ← labels.offset entry.stop
  let name ← ConstantPool.internUtf8 entry.name
  let descriptor ← ConstantPool.internUtf8 entry.descriptor
  return ⟨UInt16.ofNat start, UInt16.ofNat (stop - start), name, descriptor, entry.slot⟩

/-- An attribute for a list, unless the list is empty. -/
def storeUnlessEmpty {α : Type} (format : AttributeFormat (List α)) (entries : List α) :
    Encoding (List Attribute) := do
  if entries.isEmpty then return [] else return [← format.store entries]

/-- The attributes for the lines and the variables. -/
def encodeDebug (body : MethodBody) (labels : LabelTable) : Encoding (List Attribute) := do
  let lines ← (body.lines.mapM (encodeLine labels) : Except ClassError (List LineNumber))
  let lines ← storeUnlessEmpty LineNumber.table lines
  let locals ← body.locals.mapM (encodeLocal labels)
  let locals ← storeUnlessEmpty LocalVariable.table locals
  let localTypes ← body.localTypes.mapM (encodeLocal labels)
  let localTypes ← storeUnlessEmpty LocalVariable.typeTable localTypes
  return lines ++ locals ++ localTypes

/-- Largest code array of a class file. -/
def maxCodeLength : Nat := 65535

def encodeWithLimit (body : MethodBody) (version : Version) (limit : Nat) : Encoding Code := do
  let layout ← Layout.compute body.nodes
  if min limit maxCodeLength < layout.length then throw (.codeOverflow layout.length)
  let code ← layout.bytes
  let exceptions ← body.handlers.mapM (Handler.encode layout.labels)
  let stackMaps ←
    if version.hasStackMaps then do
      storeUnlessEmpty stackMapTable (← body.stackMap layout)
    else pure []
  let debug ← body.encodeDebug layout.labels
  return ⟨body.envelope.maxStack, body.envelope.maxLocals, code, exceptions, stackMaps ++ debug⟩

def encode (body : MethodBody) (version : Version) : Encoding Code :=
  body.encodeWithLimit version maxCodeLength

end MethodBody

end ClassWeave
