import ClassWeave.Code.Body
import ClassWeave.Code.Mnemonic
import ClassWeave.Tree.Basic

/-!
Reading the parts of code from trees: labels, types, frames, tables and jumps.
-/

namespace ClassWeave

/-- Values that are written by a name. -/
@[reducible] def OfTree.ofName {α : Type} (ofName? : String → Option α) : OfTree α :=
  ⟨fun tree => (tree.as? String).bind ofName?⟩

instance : OfTree Label := ⟨fun tree => (tree.as? Nat).map Label.mk⟩
instance : OfTree PoolIndex := ⟨fun tree => (tree.as? UInt16).map PoolIndex.mk⟩
instance {kind : FlagKind} : OfTree (Flags kind) :=
  ⟨fun tree => (tree.as? UInt16).map (.ofBits kind)⟩
instance : OfTree EditType := .ofName EditType.ofText?
instance : OfTree StoredType := .ofName StoredType.ofText?
instance : OfTree Comparison := .ofName Comparison.ofName?
instance : OfTree Equality := .ofName Equality.ofName?
instance : OfTree ShiftOp := .ofName ShiftOp.ofName?
instance : OfTree NanMode := .ofName NanMode.ofName?
instance : OfTree BaseType := .ofName BaseType.ofName?

/-- The stack is written from its bottom; a list that is left out is empty. -/
instance {C P : Type} [OfTree (VerificationType C P)] : OfTree (Frame C P) where
  ofTree? tree := do
    let locals ← (tree.field "locals").as? (Option (List (VerificationType C P)))
    let stack ← (tree.field "stack").as? (Option (List (VerificationType C P)))
    return ⟨locals.getD [], (stack.getD []).reverse⟩

instance : OfTree StackMapFrame where
  ofTree? tree := do
    match tree with
    | .list [.text "Same", delta] => return .same (← delta.as? _)
    | .list [.text "SameOne", delta, type] => return .sameOne (← delta.as? _) (← type.as? _)
    | .list [.text "Chop", delta, count] => return .chop (← delta.as? _) (← count.as? _)
    | .list [.text "Append", delta, locals] => return .append (← delta.as? _) (← locals.as? _)
    | .list [.text "Full", delta, locals, stack] =>
      return .full (← delta.as? _) (← locals.as? _) (← stack.as? _)
    | _ => none

instance : OfTree Envelope where
  ofTree? tree := do
    let (maxStack, maxLocals) ← tree.as? _
    return ⟨maxStack, maxLocals⟩

instance : OfTree Handler where
  ofTree? tree := do
    let (start, stop, handler, catchType) ← tree.as? _
    return ⟨start, stop, handler, catchType⟩

instance : OfTree LineEntry where
  ofTree? tree := do
    let (start, line) ← tree.as? _
    return ⟨start, line⟩

instance : OfTree LocalEntry where
  ofTree? tree := do
    let (start, stop, name, descriptor, slot) ← tree.as? _
    return ⟨start, stop, name, descriptor, slot⟩

instance : OfTree InvokeKind where
  ofTree? tree := do
    match tree with
    | .text "Virtual" => return .virtual
    | .text "Special" => return .special
    | .text "Static" => return .static
    | .list [.text "Interface", slots] => return .interface (← slots.as? _)
    | _ => none

instance : OfTree (Branch Label) where
  ofTree? tree := do
    match tree with
    | .text name => Branch.ofName? name
    | .list [.text "If", comparison, target] =>
      return .ifZero (← comparison.as? _) (← target.as? _)
    | .list [.text "IfICmp", comparison, target] =>
      return .ifInts (← comparison.as? _) (← target.as? _)
    | .list [.text "IfACmp", equality, target] =>
      return .ifRefs (← equality.as? _) (← target.as? _)
    | .list [.text "IfNull", equality, target] =>
      return .ifNull (← equality.as? _) (← target.as? _)
    | .list [.text "Goto", target] => return .goto (← target.as? _)
    | .list [.text "TableSwitch", default, low, targets] =>
      return .tableSwitch (← default.as? _) (← low.as? _) (← targets.as? _)
    | .list [.text "LookupSwitch", default, targets] =>
      return .lookupSwitch (← default.as? _) (← targets.as? _)
    | _ => none

end ClassWeave
