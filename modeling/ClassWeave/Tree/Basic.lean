import ClassWeave.Text.Hex

/-!
Trees of texts and numbers: the form in which values are shown, and in which scripts and rules are
written down.
-/

namespace ClassWeave

inductive Tree where
  | null
  | flag (value : Bool)
  | number (value : Int)
  | text (value : String)
  | list (items : List Tree)
  | record (fields : List (String × Tree))

/-- Values that can be shown. -/
class ToTree (α : Type) where
  toTree : α → Tree

/-- Values that can be written down. -/
class OfTree (α : Type) where
  ofTree? : Tree → Option α

export ToTree (toTree)

instance {α : Type} [ToTree α] : CoeHead α Tree := ⟨toTree⟩

instance : ToTree Tree := ⟨id⟩
instance : ToTree Bool := ⟨.flag⟩
instance : ToTree Int := ⟨.number⟩
instance : ToTree Nat := ⟨fun n => .number n⟩
instance : ToTree String := ⟨.text⟩
instance : ToTree UInt8 := ⟨fun n => .number n.toNat⟩
instance : ToTree UInt16 := ⟨fun n => .number n.toNat⟩
instance : ToTree UInt32 := ⟨fun n => .number n.toNat⟩
instance : ToTree Int8 := ⟨fun n => .number n.toInt⟩
instance : ToTree Int16 := ⟨fun n => .number n.toInt⟩
instance : ToTree Int32 := ⟨fun n => .number n.toInt⟩

/-- Numbers of 64 bits are texts, since not every tool has integers that large. -/
instance : ToTree Int64 := ⟨fun n => .text (toString n.toInt)⟩

instance {α : Type} [ToTree α] : ToTree (Option α) := ⟨fun value => (value.map toTree).getD .null⟩

namespace Tree

def each {α : Type} [ToTree α] (items : List α) : Tree := .list (items.map toTree)

/-- Entries, with a run of more than four equal ones as one entry that tells their number. -/
def runs (entries : List String) : Tree :=
  each <| (entries.splitBy (· = ·)).flatMap fun run =>
    match run with
    | [] => []
    | entry :: _ => if 4 < run.length then [entry ++ " x" ++ toString run.length] else run

/-- Length of bytes and a hash, which stand for bytes that are too many to be shown. -/
def fingerprint (bytes : Bytes) : String :=
  let mix (hash : UInt64) (b : UInt8) : UInt64 := (hash ^^^ b.toUInt64) * 0x100000001B3
  let hash := bytes.foldl mix 0xCBF29CE484222325
  "len=" ++ toString bytes.length ++ " fnv1a64=" ++ Text.hex (Bytes.u64 hash)

/-- Most bytes that are shown one by one. -/
def maxShown : Nat := 2048

def ofBytes (bytes : Bytes) : Tree :=
  .text (if maxShown < bytes.length then fingerprint bytes else Text.hex bytes)

/-- A long text is shown by its bytes. -/
def ofText (text : String) : Tree :=
  .text (if maxShown < text.utf8ByteSize then fingerprint text.toUTF8.toList else text)

/-- What went wrong, by the name of the problem and its details. -/
def problem (name : String) (details : List (String × Tree)) : Tree :=
  .record (("error", name) :: details)

def problemWith (name message : String) : Tree := problem name [("message", message)]

def ofExcept {ε α : Type} [ToTree ε] [ToTree α] : Except ε α → Tree
  | .ok value => value
  | .error problem => problem

/-- The tree as a value. -/
def as? (α : Type) [OfTree α] (tree : Tree) : Option α := OfTree.ofTree? tree

/-- Field of a record; a field that is missing is null. -/
def field (tree : Tree) (name : String) : Tree :=
  match tree with
  | .record fields => ((fields.find? (·.1 = name)).map Prod.snd).getD .null
  | _ => .null

end Tree

instance : OfTree Tree := ⟨some⟩

instance : OfTree Bool where
  ofTree?
    | .flag value => some value
    | _ => none

instance : OfTree Int where
  ofTree?
    | .number value => some value
    | _ => none

instance : OfTree Nat where
  ofTree?
    | .number (.ofNat value) => some value
    | _ => none

instance : OfTree String where
  ofTree?
    | .text value => some value
    | _ => none

instance : OfTree UInt8 := ⟨fun tree => (tree.as? Nat).map .ofNat⟩
instance : OfTree UInt16 := ⟨fun tree => (tree.as? Nat).map .ofNat⟩
instance : OfTree Int8 := ⟨fun tree => (tree.as? Int).map .ofInt⟩
instance : OfTree Int16 := ⟨fun tree => (tree.as? Int).map .ofInt⟩
instance : OfTree Int32 := ⟨fun tree => (tree.as? Int).map .ofInt⟩
instance : OfTree Int64 := ⟨fun tree => ((tree.as? String).bind (·.toInt?)).map .ofInt⟩

instance {α : Type} [OfTree α] : OfTree (Option α) where
  ofTree?
    | .null => some none
    | tree => (tree.as? α).map some

instance {α : Type} [OfTree α] : OfTree (List α) where
  ofTree?
    | .list items => items.mapM (Tree.as? α)
    | _ => none

/-- A tuple is a list with one entry for each component. -/
instance {α β : Type} [OfTree α] [OfTree β] : OfTree (α × β) where
  ofTree?
    | .list [a, b] => return (← a.as? α, ← b.as? β)
    | .list (a :: b :: c :: rest) => return (← a.as? α, ← (Tree.list (b :: c :: rest)).as? β)
    | _ => none

end ClassWeave
