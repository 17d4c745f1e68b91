import ClassWeave.Code.Body
import ClassWeave.Code.Read

/-!
Reading a code attribute as a body. Every offset that something refers to gets a label, in ascending
order of the offsets, and each has to be that of an instruction or the end of the code.
-/

namespace ClassWeave

/-- The attributes of a code attribute that are read; tables that stand there in parts are joined.
-/
structure CodeTables where
  frames : List StackMapFrame
  lines : List LineNumber
  locals : List LocalVariable
  localTypes : List LocalVariable

namespace CodeTables

def empty : CodeTables := ⟨[], [], [], []⟩

/-- Of several stack map tables the last counts. -/
def add (pool : ConstantPool) (tables : CodeTables) (item : Attribute) :
    Except ClassError CodeTables := do
  let name ← pool.utf8 item.name
  if name = stackMapTable.name then
    return { tables with frames := ← item.parse stackMapTable }
  else if name = LineNumber.table.name then
    return { tables with lines := tables.lines ++ (← item.parse LineNumber.table) }
  else if name = LocalVariable.table.name then
    return { tables with locals := tables.locals ++ (← item.parse LocalVariable.table) }
  else if name = LocalVariable.typeTable.name then
    return { tables with localTypes := tables.localTypes ++ (← item.parse LocalVariable.typeTable) }
  else return tables

end CodeTables

/-- Offsets of stack map frames: that of the first is its delta, and each further one lies its delta
and one more behind the one before it. -/
def stackMapOffsets : (previous : Option Nat) → List StackMapFrame → List (Nat × StackMapFrame)
  | _, [] => []
  | previous, frame :: rest =>
    let offset := match previous with
      | none => frame.delta.toNat
      | some before => before + frame.delta.toNat + 1
    (offset, frame) :: stackMapOffsets (some offset) rest

namespace Decoded

def targets : Decoded → List Nat
  | .insn _ => []
  | .branch b => b.jumpTargets

end Decoded

/-- Labels of the offsets that are referred to. -/
structure OffsetLabels where
  labels : NatMap Label
  count : Nat

namespace OffsetLabels

/-- Labels for the boundaries that are referred to, numbered in the order of the boundaries. -/
def assign (boundaries : List Nat) (referenced : NatMap Unit) : OffsetLabels :=
  boundaries.foldl (fun found offset =>
    if (referenced.get? offset).isSome then
      ⟨found.labels.set offset ⟨found.count⟩, found.count + 1⟩
    else found) ⟨.empty, 0⟩

def setOf (offsets : List Nat) : NatMap Unit :=
  offsets.foldl (fun set offset => set.set offset ()) .empty

/-- Fails at the lowest offset that is no boundary. -/
def ofReferences (boundaries referenced : List Nat) : Except ClassError OffsetLabels :=
  let known := setOf boundaries
  match (referenced.filter fun offset => (known.get? offset).isNone).min? with
  | some offset => .error (.malformedCode offset .notAnInstruction)
  | none => .ok (assign boundaries (setOf referenced))

def at? (labels : OffsetLabels) (offset : Nat) : Option Label := labels.labels.get? offset

def label (labels : OffsetLabels) (offset : Nat) : Except ClassError Label :=
  match labels.at? offset with
  | some label => .ok label
  | none => .error (.malformedCode offset .missingLabel)

/-- A type of a class file, with its class and allocation looked up. -/
def convert (labels : OffsetLabels) (pool : ConstantPool) (type : StoredType) :
    Except FrameFault EditType :=
  type.mapM
    (fun index => (pool.className index).mapError .unresolved)
    (fun offset => match labels.at? offset.toNat with
      | some label => .ok label
      | none => .error (.noInstruction offset))

def node (labels : OffsetLabels) : Decoded → Except ClassError Node
  | .insn i => return .insn i
  | .branch b => return .branch (← b.mapM labels.label)

/-- Instructions with a label in front of those that have one, put behind `done` in reverse. -/
def nodesOnto (labels : OffsetLabels) :
    List (Nat × Decoded) → (done : List Node) → Except ClassError (List Node)
  | [], done => .ok done
  | (offset, decoded) :: rest, done =>
    let done := match labels.at? offset with
      | some label => .label label :: done
      | none => done
    match labels.node decoded with
    | .ok node => nodesOnto labels rest (node :: done)
    | .error problem => .error problem

def handler (labels : OffsetLabels) (pool : ConstantPool) (entry : ExceptionEntry) :
    Except ClassError Handler := do
  let catchType ← match entry.catchType with
    | none => pure none
    | some index => some <$> (pool.className index : Except PoolError String)
  if entry.stop ≤ entry.start then throw (.malformedCode entry.start.toNat .badRange)
  let start ← labels.label entry.start.toNat
  let stop ← labels.label entry.stop.toNat
  return ⟨start, stop, ← labels.label entry.handler.toNat, catchType⟩

/-- Frames in full, each from the one before it. -/
def frames (labels : OffsetLabels) (pool : ConstantPool) :
    List (Nat × StackMapFrame) → (previous : EditFrame) → FrameTable → Except ClassError FrameTable
  | [], _, found => .ok found
  | (offset, frame) :: rest, previous, found =>
    match previous.applyStackMap frame (labels.convert pool) with
    | .error fault => .error (.malformedCode offset (.badFrame fault))
    | .ok next =>
      match labels.label offset with
      | .error problem => .error problem
      | .ok label => frames labels pool rest next (found.set label next)

def lineEntry (labels : OffsetLabels) (entry : LineNumber) : Except ClassError LineEntry :=
  return ⟨← labels.label entry.start.toNat, entry.line⟩

def localEntry (labels : OffsetLabels) (pool : ConstantPool) (entry : LocalVariable) :
    Except ClassError LocalEntry := do
  let start ← labels.label entry.start.toNat
  let stop ← labels.label (entry.start.toNat + entry.length.toNat)
  let name ← pool.utf8 entry.name
  return ⟨start, stop, name, ← pool.utf8 entry.descriptor, entry.slot⟩

end OffsetLabels

namespace MethodBody

def references (decoded : List (Nat × Decoded)) (code : Code) (tables : CodeTables)
    (frames : List (Nat × StackMapFrame)) : List Nat :=
  let allocations (frame : StackMapFrame) : List Nat := frame.types.filterMap fun
    | .uninitialized offset => some offset.toNat
    | _ => none
  let bounds (entry : LocalVariable) : List Nat :=
    [entry.start.toNat, entry.start.toNat + entry.length.toNat]
  decoded.flatMap (·.2.targets)
    ++ code.exceptions.flatMap (fun entry =>
      [entry.start.toNat, entry.stop.toNat, entry.handler.toNat])
    ++ frames.flatMap (fun (offset, frame) => offset :: allocations frame)
    ++ tables.lines.map (·.start.toNat)
    ++ (tables.locals ++ tables.localTypes).flatMap bounds

def decode (code : Code) (pool : ConstantPool) (shape : MethodShape) :
    Except ClassError MethodBody := do
  let decoded ← Decoded.readAll code.code
  let tables ← code.attributes.foldlM (CodeTables.add pool) .empty
  let stackMaps := stackMapOffsets none tables.frames
  let boundaries := decoded.map Prod.fst ++ [code.code.length]
  let labels ← OffsetLabels.ofReferences boundaries (references decoded code tables stackMaps)
  let nodes ← labels.nodesOnto decoded []
  let nodes := match labels.at? code.code.length with
    | some label => Node.label label :: nodes
    | none => nodes
  let handlers ← code.exceptions.mapM (labels.handler pool)
  let frames ← labels.frames pool stackMaps shape.entryFrame []
  let lines ← tables.lines.mapM labels.lineEntry
  let locals ← tables.locals.mapM (labels.localEntry pool)
  let localTypes ← tables.localTypes.mapM (labels.localEntry pool)
  return { shape
           envelope := ⟨code.maxStack, code.maxLocals⟩
           nodes := nodes.reverse
           handlers, frames, lines, locals, localTypes
           labels := ⟨labels.count⟩ }

end MethodBody

end ClassWeave
