import ClassWeave.Proofs.Code.Leading
import ClassWeave.Proofs.Machine.Running
import ClassWeave.Proofs.Script.Meaning
import ClassWeave.Proofs.Script.Running

/-!
Compiled code in a program that hosts it. The nodes and handlers of the program start with those that the
compiler has made so far, its pool has the constants, and its locals have the values of the variables in
slots of their own.
-/

namespace ClassWeave

variable {M : Machine}

namespace Program

variable {program : Program} {locals : Locals M} {s t : State M} {α β : Type} {first last : Nat}

/-- From a state on, the code between two positions does what an evaluation does, and leaves the locals
as they are. The goal says where the code gets with a value, and with which stack. -/
def Yields (program : Program) (locals : Locals M) (first last : Nat) (s : State M)
    (result : EStateM.Result (Fault M) (World M) α) (goal : α → Nat → List M.Slot → Prop) : Prop :=
  match result with
  | .ok a world => ∃ position stack, program.Reaches s ⟨position, locals, stack, world⟩ ∧
      goal a position stack
  | .error (.thrown exception) world => ∃ position stack before, first ≤ position ∧ position < last ∧
      program.Reaches s ⟨position, locals, stack, before⟩ ∧
        program.move ⟨position, locals, stack, before⟩ = .thrown exception world
  | .error .stuck _ => False

namespace Yields

variable {step : Evaluating M α} {next : α → Evaluating M β} {world : World M}
  {goal goal' : α → Nat → List M.Slot → Prop} {goalNext : β → Nat → List M.Slot → Prop}
  {result : EStateM.Result (Fault M) (World M) α} {first' last' : Nat}

theorem mono (h : program.Yields locals first last s result goal) (hfirst : first' ≤ first)
    (hlast : last ≤ last') (hgoal : ∀ a position stack, goal a position stack → goal' a position stack) :
    program.Yields locals first' last' s result goal' := by
  match result with
  | .ok a world =>
    obtain ⟨position, stack, hreaches, ha⟩ := h
    exact ⟨position, stack, hreaches, hgoal _ _ _ ha⟩
  | .error (.thrown exception) world =>
    obtain ⟨position, stack, before, hge, hlt, h⟩ := h
    exact ⟨position, stack, before, hfirst.trans hge, hlt.trans_le hlast, h⟩
  | .error .stuck _ => exact h

/-- What holds further on holds from the start. -/
theorem after (h : program.Reaches s t) (ht : program.Yields locals first last t result goal) :
    program.Yields locals first last s result goal := by
  match result with
  | .ok a world =>
    obtain ⟨position, stack, hreaches, ha⟩ := ht
    exact ⟨position, stack, h.trans hreaches, ha⟩
  | .error (.thrown exception) world =>
    obtain ⟨position, stack, before, hge, hlt, hreaches, hmove⟩ := ht
    exact ⟨position, stack, before, hge, hlt, h.trans hreaches, hmove⟩
  | .error .stuck _ => exact ht

/-- An evaluation goes on where the one before it has got. -/
theorem bind (h : program.Yields locals first last s (step world) goal)
    (hnext : ∀ a position stack world', step world = .ok a world' → goal a position stack →
      program.Yields locals first last ⟨position, locals, stack, world'⟩ (next a world') goalNext) :
    program.Yields locals first last s ((step >>= next) world) goalNext := by
  change Yields program locals first last s (EStateM.bind step next world) goalNext
  unfold EStateM.bind
  match hstep : step world with
  | .ok a world' =>
    rw [hstep] at h
    obtain ⟨position, stack, hreaches, ha⟩ := h
    exact (hnext a position stack world' hstep ha).after hreaches
  | .error fault world' =>
    rw [hstep] at h
    cases fault with
    | thrown exception => exact h
    | stuck => exact h

/-- What an evaluation has got to is only the way to somewhere else. -/
theorem onward {goal' : α → Nat → List M.Slot → Prop} (h : program.Yields locals first last s result goal)
    (hnext : ∀ a position stack world, goal a position stack → ∃ position' stack',
      program.Reaches ⟨position, locals, stack, world⟩ ⟨position', locals, stack', world⟩ ∧
        goal' a position' stack') :
    program.Yields locals first last s result goal' := by
  match result with
  | .ok a world =>
    obtain ⟨position, stack, hreaches, ha⟩ := h
    obtain ⟨position', stack', hmore, hgoal⟩ := hnext a position stack world ha
    exact ⟨position', stack', hreaches.trans hmore, hgoal⟩
  | .error (.thrown exception) world => exact h
  | .error .stuck _ => exact h

theorem dropped (h : program.Yields locals first last s (step world) goal) :
    program.Yields locals first last s ((discard step) world)
      fun _ position stack => ∃ a, goal a position stack := by
  change Yields program locals first last s (EStateM.map (fun _ => PUnit.unit) step world) _
  unfold EStateM.map
  match hstep : step world with
  | .ok a world' =>
    rw [hstep] at h
    obtain ⟨position, stack, hreaches, ha⟩ := h
    exact ⟨position, stack, hreaches, a, ha⟩
  | .error fault world' =>
    rw [hstep] at h
    cases fault with
    | thrown exception => exact h
    | stuck => exact h

theorem pure {a : α} {position : Nat} {stack : List M.Slot} (hgoal : goal a position stack) :
    program.Yields locals first last ⟨position, locals, stack, world⟩ ((Pure.pure a : Evaluating M α) world)
      goal := ⟨position, stack, .refl _, hgoal⟩

end Yields

end Program

namespace MethodShape

variable {shape : MethodShape} {index other : Nat} {slot slot' : UInt16} {type type' : FieldType}

/-- Slots of the parameters in front of one, with that of the receiver. -/
def slotsBefore (shape : MethodShape) (index : Nat) : Nat :=
  (!shape.isStatic).toNat +
    ((shape.descriptor.parameters.take index).map FieldType.width).foldr (· + ·) 0

theorem slotsBefore_mono (h : index ≤ other) : shape.slotsBefore index ≤ shape.slotsBefore other := by
  unfold slotsBefore
  obtain ⟨more, hmore⟩ := @List.take_prefix_take_left _ shape.descriptor.parameters _ _ h
  rw [← List.sum_eq_foldr, ← List.sum_eq_foldr, ← hmore, List.map_append, List.sum_append]
  exact Nat.add_le_add_left (Nat.le_add_right _ _) _

theorem slotsBefore_succ (h : shape.descriptor.parameters[index]? = some type) :
    shape.slotsBefore (index + 1) = shape.slotsBefore index + type.width := by
  unfold slotsBefore
  rw [← List.sum_eq_foldr, ← List.sum_eq_foldr, List.take_add_one, h, List.map_append, List.sum_append,
    Nat.add_assoc]
  rfl

theorem slotsBefore_le : shape.slotsBefore index ≤ shape.descriptor.parameterSlots (!shape.isStatic) := by
  refine (slotsBefore_mono (Nat.le_max_left index shape.descriptor.parameters.length)).trans ?_
  unfold slotsBefore MethodDescriptor.parameterSlots
  rw [List.take_of_length_le (Nat.le_max_right _ _), Nat.add_comm]

/-- What a method has in its locals at the start. -/
theorem length_locals_entryFrame (shape : MethodShape) : shape.entryFrame.locals.length =
    shape.descriptor.parameterSlots (!shape.isStatic || shape.isConstructor) := by
  refine (Frame.length_slotsOf _).trans ?_
  rw [List.map_append, List.map_map, EditType.width_comp_ofFieldType, List.sum_append,
    MethodDescriptor.parameterSlots, ← List.sum_eq_foldr, Nat.add_comm]
  cases shape.isStatic <;> cases shape.isConstructor <;> rfl

/-- A method starts with the slots of its receiver and its parameters. -/
theorem length_entryFrame (h : shape.isConstructor = false) :
    shape.entryFrame.locals.length = shape.descriptor.parameterSlots (!shape.isStatic) := by
  rw [length_locals_entryFrame, h, Bool.or_false]

variable (few : shape.descriptor.parameterSlots (!shape.isStatic) ≤ 65535)
include few

theorem toNat_parameterSlots :
    shape.parameterSlots.toNat = shape.descriptor.parameterSlots (!shape.isStatic) :=
  ConstantPool.toNat_ofNat_of_lt few

theorem parameterSlot?_eq_some : shape.parameterSlot? index = some (slot, type) ↔
    shape.descriptor.parameters[index]? = some type ∧ slot.toNat = shape.slotsBefore index := by
  have hlt : (UInt16.ofNat (shape.slotsBefore index)).toNat = shape.slotsBefore index :=
    ConstantPool.toNat_ofNat_of_lt (slotsBefore_le.trans few)
  unfold parameterSlot?
  rw [Option.map_eq_some_iff]
  constructor
  · rintro ⟨found, hfound, h⟩
    cases h
    exact ⟨hfound, hlt⟩
  · rintro ⟨hfound, hslot⟩
    refine ⟨type, hfound, Prod.ext (UInt16.toNat_inj.1 ?_) rfl⟩
    exact hlt.trans hslot.symm

theorem parameterSlot?_le (h : shape.parameterSlot? index = some (slot, type)) :
    slot.toNat + type.width ≤ shape.parameterSlots.toNat := by
  obtain ⟨hfound, hslot⟩ := (parameterSlot?_eq_some few).1 h
  rw [hslot, ← slotsBefore_succ hfound, toNat_parameterSlots few]
  exact slotsBefore_le

theorem parameterSlot?_apart (h : shape.parameterSlot? index = some (slot, type))
    (h' : shape.parameterSlot? other = some (slot', type')) (hlt : index < other) :
    slot.toNat + type.width ≤ slot'.toNat := by
  obtain ⟨hfound, hslot⟩ := (parameterSlot?_eq_some few).1 h
  rw [hslot, ← slotsBefore_succ hfound, ((parameterSlot?_eq_some few).1 h').2]
  exact slotsBefore_mono hlt

end MethodShape

/-- A program that hosts the code of a method, and the slots of the variables in it, in the order of their
declarations. -/
structure Host where
  program : Program
  shape : MethodShape
  slots : List (UInt16 × FieldType)
  few : shape.descriptor.parameterSlots (!shape.isStatic) ≤ 65535
  ascending : slots.Pairwise fun v w => v.1.toNat + v.2.width ≤ w.1.toNat
  above : ∀ v ∈ slots, shape.parameterSlots.toNat ≤ v.1.toNat

namespace Host

variable {host : Host} {store : Store M} {locals : Locals M} {slot : UInt16} {type : FieldType}
  {values : List M.Slot} {index number : Nat}

/-- Receiver, parameters and variables have their values in their slots. -/
structure Matches (host : Host) (store : Store M) (locals : Locals M) : Prop where
  receiver : host.shape.isStatic = false → locals 0 = store.receiver
  arguments : ∀ index slot type, host.shape.parameterSlot? index = some (slot, type) →
    locals.read slot.toNat type.width = store.arguments index
  bindings : ∀ number slot type, host.slots[number]? = some (slot, type) →
    locals.read slot.toNat type.width = store.bindings number

/-- Neither a parameter nor a variable has a slot from one slot up to another. -/
structure Free (host : Host) (slot stop : Nat) : Prop where
  above : host.shape.parameterSlots.toNat ≤ slot
  apart : ∀ v ∈ host.slots, v.1.toNat + v.2.width ≤ slot ∨ stop ≤ v.1.toNat

theorem receiver_lt (h : host.shape.isStatic = false) : 0 < host.shape.parameterSlots.toNat := by
  rw [MethodShape.toNat_parameterSlots host.few, MethodDescriptor.parameterSlots, h]
  exact Nat.succ_pos _

namespace Matches

theorem write_free (h : host.Matches store locals) {slot : Nat} (free : host.Free slot (slot + values.length)) :
    host.Matches store (locals.write slot values) where
  receiver hs := by
    rw [← h.receiver hs, Locals.write, if_neg]
    have hfirst := receiver_lt hs
    have habove := free.above
    omega
  arguments index slot' type hp := by
    rw [← h.arguments index slot' type hp]
    exact Locals.read_write_of_apart _ _ (.inl ((MethodShape.parameterSlot?_le host.few hp).trans free.above))
  bindings number slot' type hv := by
    rw [← h.bindings number slot' type hv]
    exact Locals.read_write_of_apart _ _ (free.apart _ (List.mem_of_getElem? hv))

theorem setVariable (h : host.Matches store locals) (hv : host.slots[number]? = some (slot, type))
    (hlength : values.length = type.width) :
    host.Matches (store.setVariable number values) (locals.write slot.toNat values) where
  receiver hs := by
    rw [show (store.setVariable number values).receiver = store.receiver from rfl, ← h.receiver hs,
      Locals.write, if_neg]
    have hfirst := receiver_lt hs
    have habove : _ ≤ slot.toNat := host.above _ (List.mem_of_getElem? hv)
    omega
  arguments index slot' type' hp := by
    rw [show (store.setVariable number values).arguments = store.arguments from rfl,
      ← h.arguments index slot' type' hp]
    exact Locals.read_write_of_apart _ _ (.inl ((MethodShape.parameterSlot?_le host.few hp).trans
      (host.above _ (List.mem_of_getElem? hv))))
  bindings other slot' type' hv' := by
    unfold Store.setVariable
    dsimp only
    by_cases he : other = number
    · subst he
      cases hv.symm.trans hv'
      rw [if_pos rfl, ← hlength]
      exact Locals.read_write _ _ _
    · rw [if_neg he, ← h.bindings other slot' type' hv']
      refine Locals.read_write_of_apart _ _ ?_
      rw [hlength]
      obtain ⟨hn, hget⟩ := List.getElem?_eq_some_iff.1 hv
      obtain ⟨ho, hget'⟩ := List.getElem?_eq_some_iff.1 hv'
      rcases Nat.lt_or_gt_of_ne he with hlt | hlt
      · have := List.pairwise_iff_getElem.1 host.ascending other number ho hn hlt
        rw [hget, hget'] at this
        exact .inl this
      · have := List.pairwise_iff_getElem.1 host.ascending number other hn ho hlt
        rw [hget, hget'] at this
        exact .inr this

theorem setArgument (h : host.Matches store locals)
    (hp : host.shape.parameterSlot? index = some (slot, type)) (hlength : values.length = type.width) :
    host.Matches (store.setArgument index values) (locals.write slot.toNat values) where
  receiver hs := by
    rw [show (store.setArgument index values).receiver = store.receiver from rfl, ← h.receiver hs,
      Locals.write, if_neg]
    have := ((MethodShape.parameterSlot?_eq_some host.few).1 hp).2
    rw [this, MethodShape.slotsBefore, hs]
    simp only [Bool.not_false, Bool.toNat_true]
    omega
  arguments other slot' type' hp' := by
    unfold Store.setArgument
    dsimp only
    by_cases he : other = index
    · subst he
      cases hp.symm.trans hp'
      rw [if_pos rfl, ← hlength]
      exact Locals.read_write _ _ _
    · rw [if_neg he, ← h.arguments other slot' type' hp']
      refine Locals.read_write_of_apart _ _ ?_
      rw [hlength]
      rcases Nat.lt_or_gt_of_ne he with hlt | hlt
      · exact .inl (MethodShape.parameterSlot?_apart host.few hp' hp hlt)
      · exact .inr (MethodShape.parameterSlot?_apart host.few hp hp' hlt)
  bindings number slot' type' hv := by
    rw [show (store.setArgument index values).bindings = store.bindings from rfl,
      ← h.bindings number slot' type' hv]
    refine Locals.read_write_of_apart _ _ (.inr ?_)
    rw [hlength]
    exact (MethodShape.parameterSlot?_le host.few hp).trans (host.above _ (List.mem_of_getElem? hv))

end Matches

end Host

namespace Compiler

open Builder

variable {c c' c'' : Compiler}

/-- Position of the next node. -/
def position (c : Compiler) : Nat := c.builder.nodes.length

def names (c : Compiler) : Scope := c.scope.map fun entry => (entry.1, entry.2.2)

/-- The slots of the variables, in the order of their declarations. -/
def slots (c : Compiler) : List (UInt16 × FieldType) := c.scope.reverse.map Prod.snd

theorem length_slots (c : Compiler) : c.slots.length = c.scope.length := by
  rw [slots, List.length_map, List.length_reverse]

theorem length_names (c : Compiler) : c.names.length = c.scope.length := List.length_map _

/-- A name stands for the same variable in the code and in the text. -/
theorem lookUp_eq_ok {name : String} {found : UInt16 × FieldType} (h : lookUp name c = .ok found c') :
    c' = c ∧ ∃ number, c.names.find? name = some (number, found.2) ∧ c.slots[number]? = some found := by
  unfold lookUp at h
  rw [get_bind_eq_ok] at h
  cases hl : c.scope.lookup name with
  | none =>
    rw [hl] at h
    exact (throw_ne_ok.1 h).elim
  | some entry =>
    rw [hl] at h
    obtain ⟨rfl, rfl⟩ := pure_eq_ok.1 h
    refine ⟨rfl, ?_⟩
    unfold names slots
    generalize c'.scope = scope at hl
    induction scope with
    | nil => cases hl
    | cons entry rest ih =>
      obtain ⟨other, value⟩ := entry
      rw [List.lookup_cons] at hl
      by_cases he : name = other
      · subst he
        rw [beq_self_eq_true] at hl
        cases hl
        refine ⟨rest.length, ?_, ?_⟩
        · rw [List.map_cons, Scope.find?, if_pos rfl, List.length_map]
        · rw [List.reverse_cons, List.map_append, List.getElem?_append_right (by simp)]
          simp
      · rw [beq_false_of_ne he] at hl
        obtain ⟨number, hfind, hslot⟩ := ih hl
        refine ⟨number, ?_, ?_⟩
        · rw [List.map_cons, Scope.find?, if_neg he]
          exact hfind
        · rw [List.reverse_cons, List.map_append]
          exact (List.getElem?_append_left (List.getElem?_eq_some_iff.1 hslot).1).trans hslot

/-- Variables have slots in ascending order, above those of the parameters and below the next one. -/
structure Packed (c : Compiler) : Prop where
  ascending : c.slots.Pairwise fun v w => v.1.toNat + v.2.width ≤ w.1.toNat
  above : ∀ v ∈ c.slots, c.builder.shape.parameterSlots.toNat ≤ v.1.toNat
  below : ∀ v ∈ c.slots, v.1.toNat + v.2.width ≤ c.nextLocal.toNat
  next : c.builder.shape.parameterSlots.toNat ≤ c.nextLocal.toNat

theorem Packed.congr (h : c.Packed) (scope : c'.scope = c.scope) (nextLocal : c'.nextLocal = c.nextLocal)
    (shape : c'.builder.shape = c.builder.shape) : c'.Packed := by
  have slots : c'.slots = c.slots := by rw [slots, slots, scope]
  exact ⟨slots ▸ h.ascending, by rw [slots, shape]; exact h.above, by rw [slots, nextLocal]; exact h.below,
    by rw [nextLocal, shape]; exact h.next⟩

/-- One compiler is in front of another: code and variables are only added. -/
structure Precedes (c c' : Compiler) : Prop where
  nodes : c.builder.nodes <:+ c'.builder.nodes
  handlers : c.builder.handlers <:+ c'.builder.handlers
  pool : c.builder.pool ≤ c'.builder.pool
  shape : c'.builder.shape = c.builder.shape
  scope : c.scope <:+ c'.scope
  packed : c.Packed → c'.Packed
  nextLocal : c.nextLocal.toNat ≤ c'.nextLocal.toNat
  fresh : ∀ number v, c.scope.length ≤ number → c'.slots[number]? = some v →
    c.nextLocal.toNat ≤ v.1.toNat
  inner : ∀ handler ∈ c'.builder.handlers,
    handler ∈ c.builder.handlers ∨ c.builder.isPlaced handler.start = false

/-- Compiling goes on, with the open regions as they are. -/
structure Goes (c c' : Compiler) : Prop extends Precedes c c' where
  run : Run c.builder c'.builder
  balanced : Balanced c.builder c'.builder

/-- Compiling goes on without declarations and regions. -/
structure Stays (c c' : Compiler) : Prop where
  run : Run c.builder c'.builder
  balanced : Balanced c.builder c'.builder
  scope : c'.scope = c.scope
  nextLocal : c'.nextLocal = c.nextLocal
  handlers : c'.builder.handlers = c.builder.handlers

theorem slots_extended (h : c.scope <:+ c'.scope) : c.slots <+: c'.slots :=
  (List.reverse_prefix.2 h).map Prod.snd

namespace Stays

theorem refl (c : Compiler) : Stays c c := ⟨.refl _, .refl _, rfl, rfl, rfl⟩

theorem trans (h : Stays c c') (h' : Stays c' c'') : Stays c c'' where
  run := h.run.trans h'.run
  balanced := h.balanced.trans h'.balanced
  scope := h'.scope.trans h.scope
  nextLocal := h'.nextLocal.trans h.nextLocal
  handlers := h'.handlers.trans h.handlers

theorem names (h : Stays c c') : c'.names = c.names := by
  unfold Compiler.names
  rw [h.scope]

theorem slots (h : Stays c c') : c'.slots = c.slots := by
  unfold Compiler.slots
  rw [h.scope]

theorem packed (h : Stays c c') (hp : c.Packed) : c'.Packed :=
  hp.congr h.scope h.nextLocal h.run.shape_eq

theorem goes (h : Stays c c') : Goes c c' where
  nodes := h.run.nodes_suffix
  handlers := h.run.handlers_suffix
  pool := h.run.pool_le
  shape := h.run.shape_eq
  run := h.run
  balanced := h.balanced
  scope := h.scope ▸ List.suffix_refl _
  packed := h.packed
  nextLocal := h.nextLocal ▸ Nat.le_refl _
  fresh number v hn hv := by
    rw [List.getElem?_eq_none (by rw [length_slots, h.scope]; exact hn)] at hv
    cases hv
  inner handler hm := .inl (h.handlers ▸ hm)

end Stays

theorem position_le (h : Run c.builder c'.builder) : c.position ≤ c'.position :=
  h.nodes_suffix.length_le

theorem Precedes.trans (h : Precedes c c') (h' : Precedes c' c'') : Precedes c c'' where
  nodes := h.nodes.trans h'.nodes
  handlers := h.handlers.trans h'.handlers
  pool := ConstantPool.le_trans h.pool h'.pool
  shape := h'.shape.trans h.shape
  scope := h.scope.trans h'.scope
  packed hp := h'.packed (h.packed hp)
  nextLocal := h.nextLocal.trans h'.nextLocal
  fresh number v hn hv := by
    by_cases hlt : number < c'.scope.length
    · obtain ⟨more, hmore⟩ := slots_extended h'.scope
      rw [← hmore, List.getElem?_append_left (by rw [length_slots]; exact hlt)] at hv
      exact h.fresh number v hn hv
    · exact h.nextLocal.trans (h'.fresh number v (Nat.le_of_not_lt hlt) hv)
  inner handler hm := by
    rcases h'.inner handler hm with hm | hnew
    · exact h.inner handler hm
    · right
      cases hp : c.builder.isPlaced handler.start with
      | false => rfl
      | true =>
        rw [(isPlaced_iff _ _).2 (h.nodes.subset ((isPlaced_iff _ _).1 hp))] at hnew
        cases hnew

namespace Goes

theorem refl (c : Compiler) : Goes c c := (Stays.refl c).goes

theorem trans (h : Goes c c') (h' : Goes c' c'') : Goes c c'' :=
  ⟨h.toPrecedes.trans h'.toPrecedes, h.run.trans h'.run, h.balanced.trans h'.balanced⟩

end Goes

end Compiler

namespace Host

open Compiler Builder

variable {host : Host} {c c' : Compiler} {node : Node} {label : Label}

/-- The program starts with the code so far, and goes on with variables in slots of their own. -/
structure Contains (host : Host) (c : Compiler) : Prop where
  nodes : c.builder.nodes.reverse <+: host.program.nodes
  handlers : c.builder.handlers.reverse <+: host.program.handlers
  pool : c.builder.pool ≤ host.program.pool
  targets : ∀ branch : Branch Label, .branch branch ∈ c.builder.nodes →
    ∀ target ∈ branch.jumpTargets, ∃ position, host.program.position? target = some position
  shape : c.builder.shape = host.shape
  slots : c.slots <+: host.slots
  later : ∀ number v, c.scope.length ≤ number → host.slots[number]? = some v →
    c.nextLocal.toNat ≤ v.1.toNat

namespace Contains

theorem of_precedes (h : host.Contains c') (hg : Precedes c c') : host.Contains c where
  nodes := (List.reverse_prefix.2 hg.nodes).trans h.nodes
  handlers := (List.reverse_prefix.2 hg.handlers).trans h.handlers
  pool := ConstantPool.le_trans hg.pool h.pool
  targets branch hb := h.targets branch (hg.nodes.subset hb)
  shape := hg.shape.symm.trans h.shape
  slots := (slots_extended hg.scope).trans h.slots
  later number v hn hv := by
    by_cases hlt : number < c'.scope.length
    · obtain ⟨more, hmore⟩ := h.slots
      rw [← hmore, List.getElem?_append_left (by rw [length_slots]; exact hlt)] at hv
      exact hg.fresh number v hn hv
    · exact hg.nextLocal.trans (h.later number v (Nat.le_of_not_lt hlt) hv)

theorem of_goes (h : host.Contains c') (hg : Goes c c') : host.Contains c :=
  h.of_precedes hg.toPrecedes

theorem of_run {B : Builder} (h : host.Contains { c with builder := B }) (run : Run c.builder B) :
    host.Contains c where
  nodes := (List.reverse_prefix.2 run.nodes_suffix).trans h.nodes
  handlers := (List.reverse_prefix.2 run.handlers_suffix).trans h.handlers
  pool := ConstantPool.le_trans run.pool_le h.pool
  targets branch hb := h.targets branch (run.nodes_suffix.subset hb)
  shape := run.shape_eq.symm.trans h.shape
  slots := h.slots
  later := h.later

theorem getElem?_slots (h : host.Contains c) {number : Nat} {v : UInt16 × FieldType}
    (hv : c.slots[number]? = some v) : host.slots[number]? = some v := by
  obtain ⟨rest, hrest⟩ := h.slots
  rw [← hrest]
  exact (List.getElem?_append_left (List.getElem?_eq_some_iff.1 hv).1).trans hv

section Nodes

variable (h : host.Contains c')
include h

theorem getElem?_position (hn : c'.builder.nodes = node :: c.builder.nodes) :
    host.program.nodes[c.position]? = some node := by
  obtain ⟨rest, hrest⟩ := h.nodes
  rw [← hrest, hn, List.reverse_cons, List.append_assoc, List.getElem?_append_right (by simp [position])]
  simp [position]

/-- A label stands where it is placed first. -/
theorem position?_eq {later earlier : List Node} (hn : c'.builder.nodes = later ++ .label label :: earlier)
    (hm : .label label ∉ earlier) : host.program.position? label = some earlier.length := by
  obtain ⟨rest, hrest⟩ := h.nodes
  unfold Program.position?
  rw [← hrest, hn, List.reverse_append, List.reverse_cons, List.append_assoc, List.append_assoc,
    List.findIdx?_append, List.findIdx?_eq_none_iff.2, Option.none_or, List.singleton_append,
    List.findIdx?_cons]
  · simp
  · intro node hnode
    refine decide_eq_false fun he => hm ?_
    rw [← he]
    exact List.mem_reverse.1 hnode

theorem position?_label (hn : c'.builder.nodes = .label label :: c.builder.nodes)
    (hm : .label label ∉ c.builder.nodes) : host.program.position? label = some c.position :=
  @position?_eq _ _ _ h [] _ hn hm

/-- A placed label is in the code so far, and any other behind it. -/
theorem position?_lt (hp : c'.builder.isPlaced label = true) :
    ∃ position, host.program.position? label = some position ∧ position < c'.position := by
  obtain ⟨rest, hrest⟩ := h.nodes
  have hmem := List.mem_reverse.2 ((isPlaced_iff _ _).1 hp)
  have hsome : (c'.builder.nodes.reverse.findIdx? (· = .label label)).isSome = true :=
    List.findIdx?_isSome.trans (List.any_eq_true.2 ⟨_, hmem, decide_eq_true rfl⟩)
  obtain ⟨position, hposition⟩ := Option.isSome_iff_exists.1 hsome
  refine ⟨position, ?_, ?_⟩
  · unfold Program.position?
    rw [← hrest, List.findIdx?_append, hposition]
    rfl
  · have hlt := (List.findIdx?_eq_some_iff_findIdx_eq.1 hposition).1
    rwa [List.length_reverse] at hlt

theorem le_position? {position : Nat} (hp : c'.builder.isPlaced label = false)
    (hposition : host.program.position? label = some position) : c'.position ≤ position := by
  obtain ⟨rest, hrest⟩ := h.nodes
  unfold Program.position? at hposition
  rw [← hrest, List.findIdx?_append, List.findIdx?_eq_none_iff.2, Option.none_or,
    Option.map_eq_some_iff] at hposition
  · obtain ⟨behind, -, rfl⟩ := hposition
    rw [List.length_reverse]
    exact Nat.le_add_left _ _
  · intro node hnode
    refine decide_eq_false fun he => ?_
    rw [he, List.mem_reverse, ← isPlaced_iff, hp] at hnode
    cases hnode

theorem covers_lt {handler : Handler} {position : Nat} (hb : Bookkept c'.builder)
    (hm : handler ∈ c'.builder.handlers) (hc : host.program.covers handler position = true) :
    position < c'.position := by
  obtain ⟨-, stopped, -⟩ := hb.handlers handler hm
  obtain ⟨stop, hstop, hlt⟩ := h.position?_lt stopped
  unfold Program.covers at hc
  rw [hstop] at hc
  cases hstart : host.program.position? handler.start with
  | none =>
    rw [hstart] at hc
    cases hc
  | some start =>
    rw [hstart] at hc
    exact (of_decide_eq_true (Bool.and_eq_true _ _ ▸ hc).2).trans hlt

theorem le_of_covers {handler : Handler} {position : Nat} (hp : c'.builder.isPlaced handler.start = false)
    (hc : host.program.covers handler position = true) : c'.position ≤ position := by
  unfold Program.covers at hc
  split at hc
  · next start stop hstart hstop =>
    exact (h.le_position? hp hstart).trans (of_decide_eq_true (Bool.and_eq_true _ _ ▸ hc).1)
  · cases hc

end Nodes

section Moves

variable (h : host.Contains c') {locals : Locals M} {stack : List M.Slot} {world : World M}
include h

theorem move_insn {insn : Insn} (hn : c'.builder.nodes = .insn insn :: c.builder.nodes) :
    host.program.move ⟨c.position, locals, stack, world⟩ =
      insn.run host.program.pool locals stack world := by
  unfold Program.move
  rw [h.getElem?_position hn]

theorem move_branch {branch : Branch Label} (hn : c'.builder.nodes = .branch branch :: c.builder.nodes) :
    host.program.move ⟨c.position, locals, stack, world⟩ = branch.run locals stack world := by
  unfold Program.move
  rw [h.getElem?_position hn]

/-- Control passes a label. -/
theorem step_label (hn : c'.builder.nodes = .label label :: c.builder.nodes) :
    host.program.step ⟨c.position, locals, stack, world⟩ =
      .running ⟨c'.position, locals, stack, world⟩ := by
  rw [show c'.position = c.position + 1 by rw [position, hn]; rfl, Program.step, Program.move,
    h.getElem?_position hn]

theorem reaches_label (hn : c'.builder.nodes = .label label :: c.builder.nodes) :
    host.program.Reaches ⟨c.position, locals, stack, world⟩ ⟨c'.position, locals, stack, world⟩ :=
  .step (h.step_label hn)

end Moves

end Contains

end Host

end ClassWeave
