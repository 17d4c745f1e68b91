import ClassWeave.Pool.Basic

/-!
Interning: finding a constant in the pool or else appending it. A step that fails keeps what the
steps before it appended.
-/

namespace ClassWeave

abbrev Interning := EStateM PoolError ConstantPool

namespace ConstantPool

/-- Index of the constant, which is appended if no slot holds it yet. -/
def intern (constant : Constant) : Interning PoolIndex := fun pool =>
  match pool.find? constant with
  | some index => .ok index pool
  | none =>
    if room : pool.size + constant.width ≤ 65535 then
      .ok ⟨UInt16.ofNat pool.size⟩ (pool.push constant room)
    else .error (.overflow constant pool.size) pool

def internUtf8 (text : String) : Interning PoolIndex := intern (.utf8 text)

def internClass (name : String) : Interning PoolIndex := do
  intern (.classRef (← internUtf8 name))

def internString (text : String) : Interning PoolIndex := do
  intern (.string (← internUtf8 text))

def internInteger (value : Int32) : Interning PoolIndex := intern (.integer value)

def internLong (value : Int64) : Interning PoolIndex := intern (.long value)

def internNameAndType (name descriptor : String) : Interning PoolIndex := do
  let name ← internUtf8 name
  let descriptor ← internUtf8 descriptor
  intern (.nameAndType name descriptor)

def internField (owner name descriptor : String) : Interning PoolIndex := do
  let owner ← internClass owner
  let member ← internNameAndType name descriptor
  intern (.fieldRef owner member)

def internMethod (owner name descriptor : String) (ofInterface : Bool) : Interning PoolIndex := do
  let owner ← internClass owner
  let member ← internNameAndType name descriptor
  intern (.methodRef owner member ofInterface)

end ConstantPool

end ClassWeave
