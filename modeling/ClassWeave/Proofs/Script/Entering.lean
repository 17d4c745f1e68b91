import ClassWeave.Proofs.Descriptor.Rendering
import ClassWeave.Proofs.Script.Hosting

/-!
The slots that a method starts with. On entry each parameter stands where it is looked for, apart from the others and
from the receiver, and no slot is left over. The exceptions are static constructors, which have a receiver on entry
that is counted nowhere, and descriptors with more slots than can be numbered.
-/

namespace ClassWeave

namespace Frame

variable {C P : Type}

/-- A value stands behind the slots of those in front of it. -/
theorem getElem?_slotsOf (front back : List (VerificationType C P)) (type : VerificationType C P) :
    (slotsOf (front ++ type :: back))[(front.map (·.width)).sum]? = some type := by
  have hsplit : slotsOf (front ++ type :: back) =
      slotsOf front ++ ((if type.isWide then [type, .top] else [type]) ++ slotsOf back) := by
    unfold slotsOf
    rw [List.flatMap_append, List.flatMap_cons]
  rw [hsplit, ← length_slotsOf, List.getElem?_append_right (Nat.le_refl _), Nat.sub_self]
  split <;> rfl

end Frame

namespace MethodShape

variable {shape : MethodShape}

/-- What is in the first slot on entry, if it is not a parameter. -/
def receiver? (shape : MethodShape) : Option EditType :=
  if shape.isConstructor then some .uninitializedThis
  else if shape.isStatic then none
  else some (.object shape.thisClass)

/-- The locals on entry are the receiver and the parameters, each in the slots that it is looked for in. -/
structure PlacesParameters (shape : MethodShape) : Prop where
  length : shape.entryFrame.locals.length = shape.parameterSlots.toNat
  receiver (type : EditType) : shape.receiver? = some type → shape.entryFrame.locals[0]? = some type
  placed (index : Nat) (type : FieldType) : shape.descriptor.parameters[index]? = some type →
    ∃ slot, shape.parameterSlot? index = some (slot, type) ∧
      shape.entryFrame.locals[slot.toNat]? = some (EditType.ofFieldType type) ∧
      slot.toNat + type.width ≤ shape.parameterSlots.toNat ∧
      (shape.receiver?.isSome = true → 0 < slot.toNat)
  apart (index other : Nat) (slot slot' : UInt16) (type type' : FieldType) : index ≠ other →
    shape.parameterSlot? index = some (slot, type) → shape.parameterSlot? other = some (slot', type') →
    slot.toNat + type.width ≤ slot'.toNat ∨ slot'.toNat + type'.width ≤ slot.toNat

theorem locals_entryFrame (shape : MethodShape) : shape.entryFrame.locals =
    Frame.slotsOf (shape.receiver?.toList ++ shape.descriptor.parameters.map EditType.ofFieldType) := by
  unfold receiver?
  change Frame.slotsOf ((if shape.isConstructor then [.uninitializedThis]
    else if shape.isStatic then [] else [.object shape.thisClass]) ++ _) = _
  split
  · rfl
  · split <;> rfl

/-- Slots of the receiver on entry. -/
theorem sum_receiver (shape : MethodShape) :
    (shape.receiver?.toList.map (·.width)).sum = (!shape.isStatic || shape.isConstructor).toNat := by
  unfold receiver?
  cases shape.isConstructor <;> cases shape.isStatic <;> rfl

theorem parameterSlot?_eq_none (index : Nat) :
    shape.parameterSlot? index = none ↔ shape.descriptor.parameters.length ≤ index := by
  unfold parameterSlot?
  rw [Option.map_eq_none_iff, List.getElem?_eq_none_iff]

section Counted

variable (counted : ¬(shape.isStatic = true ∧ shape.isConstructor = true))
include counted

/-- But for static constructors, a receiver is counted if it is there on entry. -/
theorem hasReceiver_eq : (!shape.isStatic || shape.isConstructor) = !shape.isStatic := by
  cases hstatic : shape.isStatic with
  | false => rfl
  | true => exact Bool.eq_false_iff.2 fun hconstructor => counted ⟨hstatic, hconstructor⟩

theorem not_isStatic_of_receiver (h : shape.receiver?.isSome = true) : (!shape.isStatic) = true := by
  rw [← hasReceiver_eq counted]
  unfold receiver? at h
  revert h
  cases shape.isConstructor <;> cases shape.isStatic <;> simp

/-- A parameter stands where it is looked for. -/
theorem getElem?_entryFrame {index : Nat} {type : FieldType} (h : shape.descriptor.parameters[index]? = some type) :
    shape.entryFrame.locals[shape.slotsBefore index]? = some (EditType.ofFieldType type) := by
  obtain ⟨hlt, hget⟩ := List.getElem?_eq_some_iff.1 h
  have hsplit : shape.descriptor.parameters =
      shape.descriptor.parameters.take index ++ type :: shape.descriptor.parameters.drop (index + 1) := by
    rw [← hget, ← List.drop_eq_getElem_cons hlt, List.take_append_drop]
  have hslots : ((shape.receiver?.toList ++ (shape.descriptor.parameters.take index).map EditType.ofFieldType).map
      (·.width)).sum = shape.slotsBefore index := by
    rw [List.map_append, List.map_map, EditType.width_comp_ofFieldType, List.sum_append, sum_receiver,
      hasReceiver_eq counted, slotsBefore, List.sum_eq_foldr]
  rw [locals_entryFrame, hsplit, List.map_append, List.map_cons, ← List.append_assoc, ← hslots]
  exact Frame.getElem?_slotsOf _ _ _

end Counted

theorem placesParameters_iff : shape.PlacesParameters ↔
    ¬(shape.isStatic = true ∧ shape.isConstructor = true) ∧
      shape.descriptor.parameterSlots (!shape.isStatic) ≤ 65535 := by
  constructor
  · intro places
    have hlength := places.length
    rw [length_locals_entryFrame, parameterSlots, UInt16.toNat_ofNat', MethodDescriptor.parameterSlots,
      MethodDescriptor.parameterSlots] at hlength
    have counted : ¬(shape.isStatic = true ∧ shape.isConstructor = true) := by
      rintro ⟨hstatic, hconstructor⟩
      rw [hstatic, hconstructor] at hlength
      simp only [Bool.not_true, Bool.false_or, Bool.toNat_true, Bool.toNat_false, Nat.add_zero] at hlength
      omega
    refine ⟨counted, ?_⟩
    rw [hasReceiver_eq counted] at hlength
    rw [MethodDescriptor.parameterSlots]
    omega
  · rintro ⟨counted, few⟩
    refine ⟨?_, ?_, ?_, ?_⟩
    · rw [length_locals_entryFrame, hasReceiver_eq counted, toNat_parameterSlots few]
    · intro type h
      rw [locals_entryFrame, h]
      exact Frame.getElem?_slotsOf [] _ type
    · intro index type h
      obtain ⟨slot, hslot⟩ : ∃ slot, shape.parameterSlot? index = some (slot, type) :=
        ⟨_, congrArg (Option.map _) h⟩
      obtain ⟨-, hbefore⟩ := (parameterSlot?_eq_some few).1 hslot
      have hentry := getElem?_entryFrame counted h
      refine ⟨slot, hslot, hbefore ▸ hentry, parameterSlot?_le few hslot, fun hreceiver => ?_⟩
      rw [hbefore, slotsBefore, not_isStatic_of_receiver counted hreceiver]
      exact Nat.add_pos_left Nat.one_pos _
    · intro index other slot slot' type type' hne h h'
      rcases Nat.lt_or_gt_of_ne hne with hlt | hgt
      · exact .inl (parameterSlot?_apart few h h' hlt)
      · exact .inr (parameterSlot?_apart few h' h hgt)

/-- The slots of the parameters have one meaning, unless the method is a static constructor or has more slots than can
be numbered. -/
theorem places_of_parse {thisClass name text : String} {flags : MethodFlags}
    (h : MethodShape.parse thisClass name flags text = .ok shape) :
    MethodDescriptor.parse text = .ok shape.descriptor ∧
    (shape.PlacesParameters ↔ ¬(flags.isStatic = true ∧ name = MemberName.constructor.text) ∧
      shape.descriptor.parameterSlots (!flags.isStatic) ≤ 65535) ∧
    ∀ index, shape.parameterSlot? index = none ↔ shape.descriptor.parameters.length ≤ index := by
  unfold MethodShape.parse at h
  split at h
  · next descriptor hdescriptor =>
    cases h
    refine ⟨hdescriptor, ?_, parameterSlot?_eq_none⟩
    rw [placesParameters_iff, decide_eq_true_eq]
  · cases h

/-- Behind the receiver, two of the parameters are wide. -/
theorem places_run_of_parse :
    let shape : MethodShape := ⟨"a/B", false, false,
      ⟨[.base .int, .base .long, .ref (.array 0 (.base .int)), .base .double], none⟩⟩
    MethodShape.parse "a/B" "run" ⟨0, by decide⟩ "(IJ[ID)V" = .ok shape ∧ shape.PlacesParameters ∧
      shape.parameterSlot? 3 = some (5, .base .double) ∧ shape.parameterSlot? 4 = none := by
  intro shape
  have hdescriptor : MethodDescriptor.parse "(IJ[ID)V" = .ok shape.descriptor :=
    MethodDescriptor.parse_eq_ok.2 (by decide)
  have h : MethodShape.parse "a/B" "run" ⟨0, by decide⟩ "(IJ[ID)V" = .ok shape := by
    unfold MethodShape.parse
    rw [hdescriptor]
    decide
  obtain ⟨-, places, none⟩ := places_of_parse h
  exact ⟨h, places.2 (by decide), by decide, (none 4).2 (by decide)⟩

/-- A static constructor has a receiver on entry, which is in the slot of its first parameter. -/
theorem not_places_static :
    let shape : MethodShape := ⟨"a/B", true, true, ⟨[.base .int], none⟩⟩
    MethodShape.parse "a/B" "<init>" ⟨8, by decide⟩ "(I)V" = .ok shape ∧
      shape.entryFrame.locals = [.uninitializedThis, .integer] ∧ shape.parameterSlots = 1 ∧
      shape.parameterSlot? 0 = some (0, .base .int) ∧ ¬shape.PlacesParameters := by
  intro shape
  have hdescriptor : MethodDescriptor.parse "(I)V" = .ok shape.descriptor :=
    MethodDescriptor.parse_eq_ok.2 (by decide)
  have h : MethodShape.parse "a/B" "<init>" ⟨8, by decide⟩ "(I)V" = .ok shape := by
    unfold MethodShape.parse
    rw [hdescriptor]
    decide
  have hlocals : shape.entryFrame.locals = [.uninitializedThis, .integer] := by decide
  have hslots : shape.parameterSlots = 1 := by decide
  refine ⟨h, hlocals, hslots, by decide, fun places => ?_⟩
  have hlength := places.length
  rw [hlocals, hslots] at hlength
  revert hlength
  decide

end MethodShape

end ClassWeave
