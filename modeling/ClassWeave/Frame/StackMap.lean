import ClassWeave.Frame.Basic
import ClassWeave.Pool.Intern

/-!
Stack map frames: how a class file writes a frame as its difference from the one before it.
-/

namespace ClassWeave

/-- The types of `full` are in the order of the file, so its stack has the bottom first. -/
inductive StackMapFrame where
  | same (delta : UInt16)
  | sameOne (delta : UInt16) (stack : StoredType)
  | chop (delta : UInt16) (count : UInt8)
  | append (delta : UInt16) (locals : List StoredType)
  | full (delta : UInt16) (locals stack : List StoredType)
  deriving DecidableEq, Repr

/-- Why a stack map frame cannot follow the frame before it. -/
inductive FrameFault where
  | chop (count available : Nat)
  | unresolved (cause : PoolError)
  | noInstruction (offset : UInt16)
  deriving DecidableEq, Repr

namespace StackMapFrame

def delta : StackMapFrame → UInt16
  | .same delta | .sameOne delta _ | .chop delta _ | .append delta _ | .full delta _ _ => delta

/-- The types it lists. -/
def types : StackMapFrame → List StoredType
  | .same _ | .chop _ _ => []
  | .sameOne _ type => [type]
  | .append _ locals => locals
  | .full _ locals stack => locals ++ stack

/-- A chop and an append have room for one to three locals. -/
def bytes : StackMapFrame → Except FormatError Bytes
  | .same delta =>
    .ok (if delta ≤ 63 then [delta.toUInt8] else 251 :: Bytes.u16 delta)
  | .sameOne delta type =>
    .ok ((if delta ≤ 63 then [delta.toUInt8 + 64] else 247 :: Bytes.u16 delta) ++ type.bytes)
  | .chop delta count =>
    if 1 ≤ count ∧ count ≤ 3 then .ok ((251 - count) :: Bytes.u16 delta)
    else .error (.chopCount count)
  | .append delta locals =>
    if 1 ≤ locals.length ∧ locals.length ≤ 3 then
      .ok (UInt8.ofNat (251 + locals.length) :: Bytes.u16 delta ++ locals.flatMap StoredType.bytes)
    else .error (.appendCount locals.length)
  | .full delta locals stack =>
    .ok (255 :: Bytes.u16 delta ++ Bytes.list StoredType.bytes locals
      ++ Bytes.list StoredType.bytes stack)

/-- The fields behind a frame type byte. -/
def readTagged (tag : UInt8) : Reader StackMapFrame := do
  if tag ≤ 63 then return .same tag.toUInt16
  else if tag ≤ 127 then return .sameOne (tag.toUInt16 - 64) (← StoredType.read)
  else if tag ≤ 246 then throw (.frameTag tag)
  else if tag = 247 then return .sameOne (← Reader.u16) (← StoredType.read)
  else if tag ≤ 250 then return .chop (← Reader.u16) (251 - tag)
  else if tag = 251 then return .same (← Reader.u16)
  else if tag ≤ 254 then
    return .append (← Reader.u16) (← Reader.repeatOnto StoredType.read (tag.toNat - 251) [])
  else
    return .full (← Reader.u16) (← Reader.list StoredType.read) (← Reader.list StoredType.read)

def read : Reader StackMapFrame := do readTagged (← Reader.u8)

end StackMapFrame

namespace Frame

variable {C P : Type} [DecidableEq C] [DecidableEq P]

/-- The frame that a stack map frame makes of the one before it. -/
def applyStackMap (previous : Frame C P) (frame : StackMapFrame)
    (convert : StoredType → Except FrameFault (VerificationType C P)) :
    Except FrameFault (Frame C P) := do
  let locals := previous.compactLocals
  match frame with
  | .same _ => return ofCompact locals []
  | .sameOne _ type => return ofCompact locals [← convert type]
  | .chop _ count =>
    if locals.length < count.toNat then throw (.chop count.toNat locals.length)
    return ofCompact (locals.take (locals.length - count.toNat)) []
  | .append _ added => return ofCompact (locals ++ (← added.mapM convert)) []
  | .full _ locals stack =>
    let locals ← locals.mapM convert
    let stack ← stack.mapM convert
    return ofCompact locals stack.reverse

end Frame

namespace StoredFrame

/-- The shortest form that makes this frame of the one before it. -/
def stackMapFrame (frame : StoredFrame) (delta : UInt16) (previous : StoredFrame) : StackMapFrame :=
  let locals := frame.compactLocals
  let before := previous.compactLocals
  let full := StackMapFrame.full delta locals frame.stack.reverse
  match frame.stack with
  | [] =>
    if locals.length ≤ before.length then
      let fewer := before.length - locals.length
      if fewer < 4 ∧ locals.isPrefixOf before then
        if fewer = 0 then .same delta else .chop delta (UInt8.ofNat fewer)
      else full
    else if locals.length - before.length < 4 ∧ before.isPrefixOf locals then
      .append delta (locals.drop before.length)
    else full
  | [type] => if locals = before then .sameOne delta type else full
  | _ => full

end StoredFrame

end ClassWeave
