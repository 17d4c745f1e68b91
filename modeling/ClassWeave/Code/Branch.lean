import ClassWeave.Code.Insn

/-!
Instructions that jump or leave the method. Targets are abstract; the width of a goto and the
padding of a switch depend on the layout of the code and are not part of them.
-/

namespace ClassWeave

inductive Comparison where
  | eq | ge | gt | le | lt | ne
  deriving DecidableEq, Repr

namespace Comparison

/-- Does the comparison hold of two ints? -/
def holds (comparison : Comparison) (a b : Int32) : Bool :=
  match comparison with
  | .eq => a = b
  | .ge => b ≤ a
  | .gt => b < a
  | .le => a ≤ b
  | .lt => a < b
  | .ne => a ≠ b

def not : Comparison → Comparison
  | .eq => .ne
  | .ge => .lt
  | .gt => .le
  | .le => .gt
  | .lt => .ge
  | .ne => .eq

/-- Order in the opcode table. -/
def code : Comparison → UInt8
  | .eq => 0
  | .ne => 1
  | .lt => 2
  | .ge => 3
  | .gt => 4
  | .le => 5

def ofCode : Nat → Comparison
  | 0 => .eq
  | 1 => .ne
  | 2 => .lt
  | 3 => .ge
  | 4 => .gt
  | _ => .le

def name : Comparison → String
  | .eq => "EQ"
  | .ge => "GE"
  | .gt => "GT"
  | .le => "LE"
  | .lt => "LT"
  | .ne => "NE"

end Comparison

inductive Equality where
  | eq | ne
  deriving DecidableEq, Repr

namespace Equality

def not : Equality → Equality
  | .eq => .ne
  | .ne => .eq

def code : Equality → UInt8
  | .eq => 0
  | .ne => 1

def ofCode : Nat → Equality
  | 0 => .eq
  | _ => .ne

def name : Equality → String
  | .eq => "EQ"
  | .ne => "NE"

end Equality

/-- A table switch numbers its targets from `low`; a lookup switch pairs each with its key. -/
inductive Branch (Target : Type) where
  | ifZero (comparison : Comparison) (target : Target)
  | ifInts (comparison : Comparison) (target : Target)
  | ifRefs (equality : Equality) (target : Target)
  | ifNull (equality : Equality) (target : Target)
  | goto (target : Target)
  | tableSwitch (default : Target) (low : Int32) (targets : List Target)
  | lookupSwitch (default : Target) (targets : List (Int32 × Target))
  | return (kind : Option SlotKind)
  | raise
  deriving DecidableEq, Repr

namespace Branch

variable {T U : Type}

/-- May the next instruction follow? -/
def fallsThrough : Branch T → Bool
  | .ifZero _ _ | .ifInts _ _ | .ifRefs _ _ | .ifNull _ _ => true
  | _ => false

/-- Where it may jump to; a switch names its default first. -/
def jumpTargets : Branch T → List T
  | .ifZero _ target | .ifInts _ target | .ifRefs _ target | .ifNull _ target | .goto target =>
    [target]
  | .tableSwitch default _ targets => default :: targets
  | .lookupSwitch default targets => default :: targets.map Prod.snd
  | .return _ | .raise => []

/-- Stack slots it takes. -/
def pops : Branch T → Nat
  | .ifZero _ _ | .ifNull _ _ | .tableSwitch _ _ _ | .lookupSwitch _ _ | .raise => 1
  | .ifInts _ _ | .ifRefs _ _ => 2
  | .goto _ => 0
  | .return none => 0
  | .return (some kind) => kind.width

def mapM {m : Type → Type} [Monad m] (f : T → m U) : Branch T → m (Branch U)
  | .ifZero comparison target => return .ifZero comparison (← f target)
  | .ifInts comparison target => return .ifInts comparison (← f target)
  | .ifRefs equality target => return .ifRefs equality (← f target)
  | .ifNull equality target => return .ifNull equality (← f target)
  | .goto target => return .goto (← f target)
  | .tableSwitch default low targets => do
    let default ← f default
    return .tableSwitch default low (← targets.mapM f)
  | .lookupSwitch default targets => do
    let default ← f default
    return .lookupSwitch default (← targets.mapM fun (key, target) => return (key, ← f target))
  | .return kind => pure (.return kind)
  | .raise => pure .raise

def map (f : T → U) (branch : Branch T) : Branch U :=
  Id.run (branch.mapM fun target => pure (f target))

/-- The return that fits a return type. -/
def returnFor (type : Option FieldType) : Branch T := .return (type.map SlotKind.ofFieldType)

/-- The instruction as listings show it. -/
def text (targetText : T → String) : Branch T → String
  | .ifZero comparison target => "If(" ++ comparison.name ++ ", " ++ targetText target ++ ")"
  | .ifInts comparison target => "IfICmp(" ++ comparison.name ++ ", " ++ targetText target ++ ")"
  | .ifRefs equality target => "IfACmp(" ++ equality.name ++ ", " ++ targetText target ++ ")"
  | .ifNull equality target => "IfNull(" ++ equality.name ++ ", " ++ targetText target ++ ")"
  | .goto target => "Goto(" ++ targetText target ++ ")"
  | .tableSwitch default low targets =>
    "TableSwitch \x7b default: " ++ targetText default ++ ", low: " ++ toString low.toInt
      ++ ", targets: [" ++ ", ".intercalate (targets.map targetText) ++ "] \x7d"
  | .lookupSwitch default targets =>
    let pair := fun (entry : Int32 × T) =>
      "(" ++ toString entry.1.toInt ++ ", " ++ targetText entry.2 ++ ")"
    "LookupSwitch \x7b default: " ++ targetText default ++ ", targets: ["
      ++ ", ".intercalate (targets.map pair) ++ "] \x7d"
  | .return none => "Return"
  | .return (some kind) => kind.letter ++ "Return"
  | .raise => "AThrow"

end Branch

end ClassWeave
