import ClassWeave.Code.Branch

/-!
Instructions by the names that listings give them.
-/

namespace ClassWeave

namespace Insn

/-- The instructions without operands. -/
def plain : List Insn :=
  let numbers : List NumberKind := [.int, .long, .float, .double]
  let elements : List ArrayKind := (List.range 8).map .ofCode
  [.nop, .constNull, .compareLong, .arrayLength, .monitorEnter, .monitorExit]
    ++ (List.finRange 7).map .constInt ++ (List.finRange 2).map .constLong
    ++ (List.finRange 3).map .constFloat ++ (List.finRange 2).map .constDouble
    ++ elements.map .arrayLoad ++ elements.map .arrayStore
    ++ (List.range 9).map (fun i => .stack (.ofCode i))
    ++ (List.range 5).flatMap (fun i => numbers.map (.arithmetic (.ofCode i)))
    ++ numbers.map .negate
    ++ (List.range 3).flatMap (fun i => [.bitwise (.ofCode i) false, .bitwise (.ofCode i) true])
    ++ (List.range 15).map (fun i => .convert (.ofCode i))

def ofName? (name : String) : Option Insn := plain.find? (·.text = name)

/-- A load or store, by its name and its slot. -/
def ofSlot? (name : String) (slot : UInt16) : Option Insn :=
  (List.range 5).findSome? fun i =>
    let kind := SlotKind.ofCode i
    if name = kind.letter ++ "Load" then some (.load kind slot)
    else if name = kind.letter ++ "Store" then some (.store kind slot)
    else none

end Insn

namespace Branch

/-- The instructions without targets. -/
def plain {T : Type} : List (Branch T) :=
  .return none :: .raise :: (List.range 5).map fun i => .return (some (.ofCode i))

def ofName? {T : Type} (name : String) : Option (Branch T) :=
  plain.find? fun branch => branch.text (fun _ => "") = name

end Branch

/-- Value of a type by its name. -/
def named? {α : Type} (nameOf : α → String) (values : List α) (name : String) : Option α :=
  values.find? (nameOf · = name)

namespace Comparison

def ofName? : String → Option Comparison := named? name [.eq, .ge, .gt, .le, .lt, .ne]

end Comparison

namespace Equality

def ofName? : String → Option Equality := named? name [.eq, .ne]

end Equality

namespace ShiftOp

def ofName? : String → Option ShiftOp := named? name [.left, .arithmeticRight, .logicalRight]

end ShiftOp

namespace NanMode

def ofName? : String → Option NanMode := named? name [.less, .greater]

end NanMode

namespace FieldAccess

def ofName? : String → Option FieldAccess :=
  named? name [.getStatic, .putStatic, .getField, .putField]

end FieldAccess

namespace BaseType

def ofName? : String → Option BaseType := named? name all

end BaseType

end ClassWeave
