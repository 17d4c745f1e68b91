import ClassWeave.NatMap

/-!
Labels: positions in a method body that stay put while code is inserted around them. Handing out a
label takes the next number, and a table gives bound labels their byte offsets.
-/

namespace ClassWeave

structure Label where
  number : Nat
  deriving DecidableEq, Repr

namespace Label

def text (label : Label) : String := "L" ++ toString label.number

end Label

/-- How many labels have been handed out; they are those with a smaller number. -/
structure LabelSupply where
  allocated : Nat
  deriving DecidableEq, Repr

namespace LabelSupply

def fresh (supply : LabelSupply) : Label × LabelSupply :=
  (⟨supply.allocated⟩, ⟨supply.allocated + 1⟩)

end LabelSupply

/-- Byte offsets of labels. -/
structure LabelTable where
  offsets : NatMap Nat

namespace LabelTable

def empty : LabelTable := ⟨.empty⟩

def offset? (table : LabelTable) (label : Label) : Option Nat := table.offsets.get? label.number

def isBound (table : LabelTable) (label : Label) : Bool := (table.offset? label).isSome

/-- Gives a label an offset, in place of the one it had. -/
def bind (table : LabelTable) (label : Label) (offset : Nat) : LabelTable :=
  ⟨table.offsets.set label.number offset⟩

theorem offset?_bind (table : LabelTable) (label : Label) (offset : Nat) (other : Label) :
    (table.bind label offset).offset? other =
      if other = label then some offset else table.offset? other := by
  obtain ⟨n⟩ := label
  obtain ⟨m⟩ := other
  simp [bind, offset?, NatMap.get?_set]

end LabelTable

end ClassWeave
