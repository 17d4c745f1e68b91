import ClassWeave.Proofs.Script.Hosting

/-!
A method that is called: its locals are the receiver and the arguments, and its stack is empty.
-/

namespace ClassWeave

variable {M : Machine}

theorem FieldType.width_pos (type : FieldType) : 0 < type.width := by
  cases type with
  | base type => cases type <;> exact Nat.succ_pos _
  | ref type => exact Nat.one_pos

/-- The slots of the arguments, and the receiver unless the method is static. -/
structure MethodShape.Call (M : Machine) (shape : MethodShape) where
  receiver : Option M.Slot
  arguments : List (List M.Slot)
  receiver_isSome : receiver.isSome = !shape.isStatic
  widths : arguments.map List.length = shape.descriptor.parameters.map FieldType.width

namespace MethodShape.Call

variable {shape : MethodShape} (call : shape.Call M)

def locals : Locals M := fun i => (call.receiver.toList ++ call.arguments.flatten)[i]?

def store : Store M := ⟨call.receiver, fun index => call.arguments[index]?, fun _ => none⟩

/-- State of a program at its first node. -/
def entry (world : World M) : State M := ⟨0, call.locals, [], world⟩

theorem length_arguments : call.arguments.length = shape.descriptor.parameters.length := by
  rw [← List.length_map List.length, call.widths, List.length_map]

/-- In front of an argument are the slots of those before it, and of the receiver. -/
theorem length_before (index : Nat) :
    (call.receiver.toList ++ (call.arguments.take index).flatten).length = shape.slotsBefore index := by
  rw [List.length_append, List.length_flatten, List.map_take, call.widths, ← List.map_take,
    List.sum_eq_foldr, slotsBefore, ← call.receiver_isSome]
  cases call.receiver <;> rfl

theorem length_locals : (call.receiver.toList ++ call.arguments.flatten).length =
    shape.descriptor.parameterSlots (!shape.isStatic) := by
  have h := call.length_before shape.descriptor.parameters.length
  rw [List.take_of_length_le call.length_arguments.le] at h
  rw [h, slotsBefore, List.take_length, Nat.add_comm]
  rfl

theorem filled_locals : call.locals.filled = {i | i < shape.descriptor.parameterSlots (!shape.isStatic)} := by
  ext i
  rw [← call.length_locals]
  simp only [Locals.filled, locals, Set.mem_ofPred_eq, isSome_getElem?]

theorem read_locals {index : Nat} {values : List M.Slot} (h : call.arguments[index]? = some values) :
    call.locals.read (shape.slotsBefore index) values.length = some values := by
  refine Locals.read_eq_some.2 ⟨rfl, fun k hk => ?_⟩
  obtain ⟨hlt, rfl⟩ := List.getElem?_eq_some_iff.1 h
  have hsplit : call.receiver.toList ++ call.arguments.flatten =
      (call.receiver.toList ++ (call.arguments.take index).flatten) ++
        (call.arguments[index] ++ (call.arguments.drop (index + 1)).flatten) := by
    rw [List.append_assoc, ← @List.flatten_cons _ call.arguments[index], List.getElem_cons_drop,
      ← List.flatten_append, List.take_append_drop]
  rw [locals, hsplit, ← call.length_before index, List.getElem?_append_right (Nat.le_add_right _ _),
    Nat.add_sub_cancel_left, List.getElem?_append_left hk]

end MethodShape.Call

/-- A method starts with no more than its receiver and its parameters. -/
theorem MethodShape.promises_entryFrame {shape : MethodShape} (h : shape.isConstructor = false) :
    EditFrame.promises shape.entryFrame.locals ⊆
      {i | i < shape.descriptor.parameterSlots (!shape.isStatic)} := by
  have hslots := EditFrame.promises_slotsOf
  simp only [← Frame.length_slotsOf] at hslots
  rw [← length_entryFrame h]
  exact hslots _

namespace Host

variable {host : Host}

theorem matches_call (call : host.shape.Call M) : host.Matches call.store call.locals where
  receiver hs := by
    have := call.receiver_isSome
    rw [hs] at this
    obtain ⟨r, hr⟩ := Option.isSome_iff_exists.1 this
    unfold MethodShape.Call.locals MethodShape.Call.store
    rw [hr]
    rfl
  arguments index slot type hp := by
    obtain ⟨hfound, hslot⟩ := (MethodShape.parameterSlot?_eq_some host.few).1 hp
    have hwidth : (call.arguments[index]?).map List.length = some type.width := by
      rw [← List.getElem?_map, call.widths, List.getElem?_map, hfound]
      rfl
    obtain ⟨values, hvalues, hlength⟩ := Option.map_eq_some_iff.1 hwidth
    rw [hslot, ← hlength, call.read_locals hvalues]
    exact hvalues.symm
  bindings number slot type hv := by
    have habove := host.above _ (List.mem_of_getElem? hv)
    rw [MethodShape.toNat_parameterSlots host.few, ← call.length_locals] at habove
    rw [← Nat.sub_add_cancel type.width_pos, Locals.read_succ, MethodShape.Call.locals, List.getElem?_eq_none habove]
    rfl
end Host

end ClassWeave
