import ClassWeave.Format.Basic

/-!
Access flags and format versions. Flag words keep only the bits that have a meaning for their kind
of declaration.
-/

namespace ClassWeave

inductive FlagKind where
  | ofClass | ofField | ofMethod
  deriving DecidableEq, Repr

/-- Bits with a meaning. -/
def FlagKind.mask : FlagKind → UInt16
  | .ofClass => 0xF631
  | .ofField => 0x50DF
  | .ofMethod => 0x1DFF

/-- Access flags of one kind of declaration. -/
structure Flags (kind : FlagKind) where
  bits : UInt16
  known : bits &&& kind.mask = bits
  deriving DecidableEq

abbrev ClassFlags := Flags .ofClass
abbrev FieldFlags := Flags .ofField
abbrev MethodFlags := Flags .ofMethod

namespace Flags

/-- Drops the bits without a meaning. -/
def ofBits (kind : FlagKind) (bits : UInt16) : Flags kind :=
  ⟨bits &&& kind.mask, by rw [UInt16.and_assoc, UInt16.and_self]⟩

def read (kind : FlagKind) : Reader (Flags kind) := return ofBits kind (← Reader.u16)

def bytes {kind : FlagKind} (flags : Flags kind) : Bytes := Bytes.u16 flags.bits

def isStatic (flags : MethodFlags) : Bool := flags.bits &&& 0x0008 ≠ 0

/-- Abstract and native methods never have code. -/
def hasNoBody (flags : MethodFlags) : Bool := flags.bits &&& 0x0500 ≠ 0

end Flags

/-- Version of the class file format. -/
structure Version where
  major : UInt16
  minor : UInt16
  deriving DecidableEq, Repr

namespace Version

/-- First version with stack map tables. -/
def java6 : Version := ⟨50, 0⟩

def hasStackMaps (version : Version) : Bool := 50 ≤ version.major

/-- Ordered by major version first. -/
def precedes (a b : Version) : Bool :=
  a.major < b.major ∨ (a.major = b.major ∧ a.minor < b.minor)

/-- The minor version comes first. -/
def read : Reader Version := do
  let minor ← Reader.u16
  let major ← Reader.u16
  return ⟨major, minor⟩

def bytes (version : Version) : Bytes := Bytes.u16 version.minor ++ Bytes.u16 version.major

end Version

end ClassWeave
