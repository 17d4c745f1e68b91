import ClassWeave.NatMap
import ClassWeave.Pool.Constant

/-!
The constant pool: an append-only list of constants, laid out in slots. An index by content finds
the first slot that holds a given constant; the invariant ties it to the slots.
-/

namespace ClassWeave

inductive ConstantKind where
  | utf8 | classRef | nameAndType | fieldRef | methodRef | invokeDynamic | loadable
  deriving DecidableEq, Repr

def ConstantKind.text : ConstantKind → String
  | .utf8 => "Utf8"
  | .classRef => "Class"
  | .nameAndType => "NameAndType"
  | .fieldRef => "Fieldref"
  | .methodRef => "Methodref"
  | .invokeDynamic => "InvokeDynamic"
  | .loadable => "loadable constant"

inductive PoolError where
  | overflow (constant : Constant) (offset : Nat)
  | missing (index : PoolIndex)
  | unexpected (index : PoolIndex) (expected : ConstantKind)
  deriving DecidableEq, Repr

/-- Positions, in ascending order, of the constants filed under a bucket. -/
def filedUnder (slots : Array (Option Constant)) (bucket : Nat) : List Nat :=
  (List.range slots.size).filter fun i => slots[i]?.join.map Constant.bucket = some bucket

theorem filedUnder_push (slots : Array (Option Constant)) (slot : Option Constant) (bucket : Nat) :
    filedUnder (slots.push slot) bucket =
      filedUnder slots bucket ++
        if slot.map Constant.bucket = some bucket then [slots.size] else [] := by
  unfold filedUnder
  rw [Array.size_push, List.range_succ, List.filter_append]
  congr 1
  · refine List.filter_congr fun i hi => ?_
    rw [Array.getElem?_push_lt (List.mem_range.1 hi)]
    simp [List.mem_range.1 hi]
  · simp [List.filter_cons]

/-- Slot zero is empty, and so is the slot after each wide constant. -/
structure ConstantPool where
  slots : Array (Option Constant)
  filed : NatMap (List Nat)
  layout : slots.toList = none :: (slots.toList.filterMap id).flatMap Constant.slots
  size_le : slots.size ≤ 65535
  filed_eq : ∀ bucket, (filed.get? bucket).getD [] = filedUnder slots bucket

namespace ConstantPool

def empty : ConstantPool where
  slots := #[none]
  filed := .empty
  layout := by decide
  size_le := by decide
  filed_eq := fun bucket => by simp [filedUnder, List.range_succ]

/-- One more than the largest index. -/
def size (pool : ConstantPool) : Nat := pool.slots.size

def isEmpty (pool : ConstantPool) : Bool := pool.size ≤ 1

/-- The constants in order. -/
def constants (pool : ConstantPool) : List Constant := pool.slots.toList.filterMap id

/-- The constants in order, each with its index. -/
def entries (pool : ConstantPool) : List (PoolIndex × Constant) :=
  (pool.slots.toList.zipIdx).filterMap fun (slot, i) => slot.map fun c => (⟨UInt16.ofNat i⟩, c)

/-- Position of the first slot that holds the constant. -/
def position? (pool : ConstantPool) (constant : Constant) : Option Nat :=
  ((pool.filed.get? constant.bucket).getD []).find? fun i => pool.slots[i]? = some (some constant)

def find? (pool : ConstantPool) (constant : Constant) : Option PoolIndex :=
  (pool.position? constant).map fun i => ⟨UInt16.ofNat i⟩

/-- Slots with a constant behind them. -/
def extend (slots : Array (Option Constant)) (constant : Constant) : Array (Option Constant) :=
  if constant.isWide then (slots.push (some constant)).push none else slots.push (some constant)

theorem toList_extend (slots : Array (Option Constant)) (constant : Constant) :
    (extend slots constant).toList = slots.toList ++ constant.slots := by
  unfold extend Constant.slots
  split <;> simp

theorem size_extend (slots : Array (Option Constant)) (constant : Constant) :
    (extend slots constant).size = slots.size + constant.width := by
  unfold extend Constant.width
  split <;> simp

theorem filedUnder_extend (slots : Array (Option Constant)) (constant : Constant) (bucket : Nat) :
    filedUnder (extend slots constant) bucket =
      filedUnder slots bucket ++ if constant.bucket = bucket then [slots.size] else [] := by
  unfold extend
  split <;> simp [filedUnder_push]

/-- Appends a constant for which there is room. -/
def push (pool : ConstantPool) (constant : Constant) (room : pool.size + constant.width ≤ 65535) :
    ConstantPool :=
  match pool, room with
  | ⟨slots, filed, layout, _, filed_eq⟩, room =>
    let before := (filed.get? constant.bucket).getD []
    let after := before ++ [slots.size]
    { slots := extend slots constant
      filed := filed.set constant.bucket after
      layout := by
        rw [toList_extend, List.filterMap_append, List.flatMap_append]
        conv => lhs; rw [layout]
        rw [List.cons_append]
        congr 2
        unfold Constant.slots
        split <;> simp [*]
      size_le := by rw [size_extend]; exact room
      filed_eq := fun bucket => by
        rw [filedUnder_extend, ← filed_eq bucket, NatMap.get?_set]
        by_cases h : constant.bucket = bucket
        · simp [h, before, after]
        · rw [if_neg (fun e => h e.symm)]
          simp [h] }

def get (pool : ConstantPool) (index : PoolIndex) : Except PoolError Constant :=
  match pool.slots[index.toNat]? with
  | some (some constant) => .ok constant
  | _ => .error (.missing index)

def utf8 (pool : ConstantPool) (index : PoolIndex) : Except PoolError String := do
  match ← pool.get index with
  | .utf8 text => return text
  | _ => throw (.unexpected index .utf8)

/-- An array class is named by its descriptor. -/
def className (pool : ConstantPool) (index : PoolIndex) : Except PoolError String := do
  match ← pool.get index with
  | .classRef name => pool.utf8 name
  | _ => throw (.unexpected index .classRef)

/-- Name and descriptor, in this order. -/
def nameAndType (pool : ConstantPool) (index : PoolIndex) : Except PoolError (String × String) := do
  match ← pool.get index with
  | .nameAndType name descriptor => return (← pool.utf8 name, ← pool.utf8 descriptor)
  | _ => throw (.unexpected index .nameAndType)

/-- Reference to a field or method of a class. -/
structure MemberRef where
  owner : String
  name : String
  descriptor : String
  ofInterface : Bool
  deriving DecidableEq, Repr

def fieldRef (pool : ConstantPool) (index : PoolIndex) : Except PoolError MemberRef := do
  match ← pool.get index with
  | .fieldRef owner member =>
    let (name, descriptor) ← pool.nameAndType member
    return ⟨← pool.className owner, name, descriptor, false⟩
  | _ => throw (.unexpected index .fieldRef)

def methodRef (pool : ConstantPool) (index : PoolIndex) : Except PoolError MemberRef := do
  match ← pool.get index with
  | .methodRef owner member ofInterface =>
    let (name, descriptor) ← pool.nameAndType member
    return ⟨← pool.className owner, name, descriptor, ofInterface⟩
  | _ => throw (.unexpected index .methodRef)

/-- Name and descriptor of a call site that is linked at run time. -/
def callSite (pool : ConstantPool) (index : PoolIndex) : Except PoolError (String × String) := do
  match ← pool.get index with
  | .invokeDynamic _ member => pool.nameAndType member
  | _ => throw (.unexpected index .invokeDynamic)

/-- The slot count, then each constant. -/
def bytes (pool : ConstantPool) : Bytes :=
  Bytes.u16 (UInt16.ofNat pool.size) ++ pool.constants.flatMap Constant.bytes

/-- Reads constants until the pool has `limit` slots; `fuel` bounds their number. -/
def readOnto (limit : Nat) (limit_le : limit ≤ 65535) :
    (fuel : Nat) → ConstantPool → Bytes → Except FormatError (ConstantPool × Bytes)
  | 0, pool, input => .ok (pool, input)
  | fuel + 1, pool, input =>
    if pool.size < limit then
      match Constant.read input with
      | .error problem => .error problem
      | .ok (constant, rest) =>
        if h : pool.size + constant.width ≤ limit then
          readOnto limit limit_le fuel (pool.push constant (Nat.le_trans h limit_le)) rest
        else .error .poolOverrun
    else .ok (pool, input)

def read : Reader ConstantPool := do
  let count ← Reader.u16
  if count = 0 then throw .emptyPool
  fun input =>
    readOnto count.toNat (Nat.le_of_lt_succ count.toNat_lt) count.toNat .empty input

end ConstantPool

end ClassWeave
