import ClassWeave.Class.Attribute
import ClassWeave.Code.Branch

/-!
Method bodies with labels for positions, so that code can be put anywhere without moving the tables
that refer to it.
-/

namespace ClassWeave

inductive Node where
  | label (label : Label)
  | insn (insn : Insn)
  | branch (branch : Branch Label)
  deriving DecidableEq, Repr

namespace Node

def isLabel : Node → Bool
  | .label _ => true
  | _ => false

/-- May the node after it follow? -/
def fallsThrough : Node → Bool
  | .branch b => b.fallsThrough
  | _ => true

def jumpTargets : Node → List Label
  | .branch b => b.jumpTargets
  | _ => []

/-- The node as listings show it. -/
def text : Node → String
  | .label l => l.text ++ ":"
  | .insn i => i.text
  | .branch b => b.text Label.text

end Node

/-- A handler without a class catches everything thrown from `start` up to `stop`. -/
structure Handler where
  start : Label
  stop : Label
  handler : Label
  catchType : Option String
  deriving DecidableEq, Repr

structure LineEntry where
  start : Label
  line : UInt16
  deriving DecidableEq, Repr

structure LocalEntry where
  start : Label
  stop : Label
  name : String
  descriptor : String
  slot : UInt16
  deriving DecidableEq, Repr

/-- Declared bounds on the height of the stack and on the local slots. -/
structure Envelope where
  maxStack : UInt16
  maxLocals : UInt16
  deriving DecidableEq, Repr

namespace Envelope

/-- The least envelope around two. -/
def dominate (a b : Envelope) : Envelope :=
  ⟨if a.maxStack ≤ b.maxStack then b.maxStack else a.maxStack,
    if a.maxLocals ≤ b.maxLocals then b.maxLocals else a.maxLocals⟩

end Envelope

/-- What the code of a method depends on in its declaration. -/
structure MethodShape where
  thisClass : String
  isStatic : Bool
  isConstructor : Bool
  descriptor : MethodDescriptor
  deriving DecidableEq

namespace MethodShape

def parse (thisClass name : String) (flags : MethodFlags) (descriptor : String) :
    Except ClassError MethodShape :=
  match MethodDescriptor.parse descriptor with
  | .ok parsed => .ok ⟨thisClass, flags.isStatic, name = MemberName.constructor.text, parsed⟩
  | .error _ => .error (.badDescriptor descriptor)

def entryFrame (shape : MethodShape) : EditFrame :=
  EditFrame.methodEntry shape.thisClass shape.isStatic shape.isConstructor shape.descriptor

/-- Local slots of the receiver and the parameters. -/
def parameterSlots (shape : MethodShape) : UInt16 :=
  UInt16.ofNat (shape.descriptor.parameterSlots !shape.isStatic)

/-- First slot and type of a parameter; the receiver does not count as one. -/
def parameterSlot? (shape : MethodShape) (parameter : Nat) : Option (UInt16 × FieldType) :=
  shape.descriptor.parameters[parameter]?.map fun type =>
    let before := ((shape.descriptor.parameters.take parameter).map FieldType.width).foldr (· + ·) 0
    (UInt16.ofNat ((!shape.isStatic).toNat + before), type)

def returnType (shape : MethodShape) : Option FieldType := shape.descriptor.returnType

end MethodShape

/-- Frames at labels, in ascending order of the labels. -/
abbrev FrameTable := List (Label × EditFrame)

namespace FrameTable

def find? (frames : FrameTable) (label : Label) : Option EditFrame :=
  (List.find? (fun entry => entry.1 = label) frames).map Prod.snd

/-- Sets the frame at a label, in place of the one there. -/
def set (frames : FrameTable) (label : Label) (frame : EditFrame) : FrameTable :=
  match frames with
  | [] => [(label, frame)]
  | (other, existing) :: rest =>
    if label.number < other.number then (label, frame) :: (other, existing) :: rest
    else if label = other then (label, frame) :: rest
    else (other, existing) :: set rest label frame

end FrameTable

/-- The tables refer to positions through labels placed among the nodes. -/
structure MethodBody where
  shape : MethodShape
  envelope : Envelope
  nodes : List Node
  handlers : List Handler
  frames : FrameTable
  lines : List LineEntry
  locals : List LocalEntry
  localTypes : List LocalEntry
  labels : LabelSupply
  deriving DecidableEq

namespace MethodBody

/-- No code, with just the parameters in its envelope. -/
def empty (shape : MethodShape) : MethodBody :=
  ⟨shape, ⟨0, shape.parameterSlots⟩, [], [], [], [], [], [], ⟨0⟩⟩

def instructionCount (body : MethodBody) : Nat := body.nodes.countP (!·.isLabel)

/-- Position of the first node that is no label. -/
def firstInstruction (body : MethodBody) : Nat := body.nodes.findIdx (!·.isLabel)

def labelPosition? (body : MethodBody) (label : Label) : Option Nat :=
  body.nodes.findIdx? (· = .label label)

/-- The label right before a position, placed there if there is none. -/
def labelAt (body : MethodBody) (position : Nat) : Label × MethodBody :=
  let before? := if position = 0 then none else body.nodes[position - 1]?
  match before? with
  | some (.label label) => (label, body)
  | _ =>
    let (label, labels) := body.labels.fresh
    (label, { body with
      nodes := body.nodes.take position ++ .label label :: body.nodes.drop position
      labels := labels })

/-- Labels that a branch jumps to, then those of the handlers. -/
def jumpTargets (body : MethodBody) : List Label :=
  body.nodes.flatMap Node.jumpTargets ++ body.handlers.map (·.handler)

/-- May control run past the last node? -/
def fallsOffEnd (body : MethodBody) : Bool :=
  match body.nodes.reverse.find? (!·.isLabel) with
  | none => true
  | some node => node.fallsThrough

end MethodBody

end ClassWeave
