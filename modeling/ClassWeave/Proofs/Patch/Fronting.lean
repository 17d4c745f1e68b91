import ClassWeave.Proofs.Machine.Following
import ClassWeave.Proofs.Script.Choosing
import ClassWeave.Proofs.Script.Numbering

/-!
A body with guards in front of it. Called as the old body is, it decides between the guards, runs the tail of
the first whose condition holds, and gets to the first node of the old body unless that tail leaves the
method. From there on it does what the old body does.
-/

namespace ClassWeave

open Compiler Builder

variable {M : Machine}

/-- Receiver and parameters have their values in their slots. -/
structure MethodShape.Holds (shape : MethodShape) (store : Store M) (locals : Locals M) : Prop where
  receiver : shape.isStatic = false → locals 0 = store.receiver
  arguments : ∀ index slot type, shape.parameterSlot? index = some (slot, type) →
    locals.read slot.toNat type.width = store.arguments index

/-- From a state on, a program ends as statements do in front of a position, or goes on there with no
operands, or is still running after a number of steps. -/
def Program.Resumes (program : Program) (shape : MethodShape) (position : Nat) (steps : Nat) (s : State M) :
    Ending M → Prop
  | .next store world => ∃ locals, program.Reaches s ⟨position, locals, [], world⟩ ∧ shape.Holds store locals
  | .left values world => ∃ n, program.after n s = .returned values world
  | .thrown exception _ world => ∃ n, program.after n s = .escaped exception world
  | .running world => ∃ n t, steps ≤ n ∧ program.after n s = .running t ∧ t.world = world
  | .stuck => False

namespace Host

variable {host : Host} {resume : Label} {steps position : Nat} {s : State M} {ending : Ending M}

/-- Control passes the label where guards resume. -/
theorem resumes_of_passes (h : host.Passes resume steps s ending)
    (hposition : host.program.position? resume = some position)
    (hnode : host.program.nodes[position]? = some (.label resume)) :
    host.program.Resumes host.shape (position + 1) steps s ending := by
  cases ending with
  | next store world =>
    obtain ⟨locals, found, hfound, hreaches, hmatches⟩ := h
    rw [Option.some.inj (hfound.symm.trans hposition)] at hreaches
    have passed : host.program.Reaches ⟨position, locals, [], world⟩ ⟨position + 1, locals, [], world⟩ := by
      apply Program.Reaches.next
      rw [Program.move, hnode]
    exact ⟨locals, hreaches.trans passed, hmatches.receiver, hmatches.arguments⟩
  | left values world => exact h
  | thrown exception store world => exact h
  | running world => exact h
  | stuck => exact h

end Host

namespace PrologueGuard

variable {guard : PrologueGuard} {old body : MethodBody} {pool pool' : ConstantPool}

namespace Built

variable {resume : Label} {opened chained : Compiler} {builder : Builder}
  (h : guard.Built old pool resume opened chained builder)
include h

/-- The code is about labels that come after those of the old body. -/
theorem above : builder.Above old.labels.allocated := by
  obtain ⟨B, hB, hopened⟩ := lift_eq_ok.1 h.opens
  obtain ⟨habove, hresume⟩ := above_fresh (above_start pool old.labels old.shape old.shape.entryFrame) hB
  have hstart : opened.Above old.labels.allocated := by
    rw [hopened]
    exact habove
  have hchained := keeps_chain old.shape.entryFrame hresume guard.guards _ _ _ hstart h.chains
  exact keeps_placeWith hresume _ _ _ _ hchained h.ends

/-- What the code does in a program that starts with it, if nothing that comes later is a handler for it. -/
theorem resumes (method : old.shape.isConstructor = false) (some : guard.guards ≠ [])
    (few : old.shape.descriptor.parameterSlots (!old.shape.isStatic) ≤ 65535) (program : Program)
    (nodes : builder.nodes.reverse <+: program.nodes) {others : List Handler}
    (handlers : program.handlers = builder.handlers.reverse ++ others)
    (apart : ∀ handler ∈ others, ∀ position < builder.nodes.length, program.covers handler position = false)
    (hpool : program.pool = builder.pool) (call : old.shape.Call M) (world : World M) (fuel : Nat) :
    program.Resumes old.shape builder.nodes.length fuel (call.entry world)
      (Guard.execAll old.shape fuel [] guard.guards call.store world) := by
  obtain ⟨-, tidy, closed⟩ := h.closed
  obtain ⟨hnodes, hnew⟩ := nodes_placeWith h.ends
  obtain ⟨stays, hresume, hframe, hposition⟩ := Host.stays_fresh h.opens
  have fine : Fine opened.builder := stays.run.fine (fine_start _ _ _ _)
  have packed : opened.Packed := stays.packed (packed_start _)
  have choosing := fun host : Host =>
    Host.choosesAll_chain M host guard.guards some fine packed hresume h.chains
  let final : Compiler := { chained with builder := builder }
  have ending : Precedes chained final := Host.precedes_placeWith h.ends
  have precedes : Precedes opened final :=
    (choosing ⟨program, old.shape, [], few, .nil, List.forall_mem_nil _⟩).precedes.trans ending
  have hshape : final.builder.shape = old.shape := precedes.shape.trans stays.run.shape_eq
  have ended : final.Packed := precedes.packed packed
  let host : Host := ⟨program, old.shape, final.slots, few, ended.ascending, hshape ▸ ended.above⟩
  have contains : host.Contains final :=
    { nodes := nodes
      handlers := handlers ▸ List.prefix_append _ _
      pool := hpool ▸ ConstantPool.le_refl _
      targets := fun branch hb target ht => by
        have hm : .label target ∈ program.nodes :=
          nodes.subset (List.mem_reverse.2 (tidy.target_mem closed hb ht))
        exact Option.isSome_iff_exists.1 (List.findIdx?_isSome.trans
          (List.any_eq_true.2 ⟨_, hm, decide_eq_true rfl⟩))
      shape := hshape
      slots := List.prefix_refl _
      later := fun number v hn hv => by
        rw [List.getElem?_eq_none (by rwa [length_slots])] at hv
        cases hv }
  have sole : host.Sole final := by
    intro handler hm
    have hm : handler ∈ builder.handlers.reverse ++ others := handlers ▸ hm
    rcases List.mem_append.1 hm with hm | hm
    · exact .inl (List.mem_reverse.1 hm)
    · exact .inr (apart handler hm)
  have arrives : opened.builder.Arrives [] call.locals.filled := by
    refine ⟨old.shape.entryFrame, _, hframe, rfl, ?_⟩
    rw [call.filled_locals]
    exact MethodShape.promises_entryFrame method
  have hrun := (choosing host).runs (contains.of_precedes ending) (sole.of_precedes contains ending) fuel
    call.store call.locals (@Host.matches_call M host call) arrives world
  have hplaced : host.program.position? resume = .some chained.position :=
    contains.position?_label hnodes hnew
  have hresumes := Host.resumes_of_passes hrun hplaced (contains.getElem?_position hnodes)
  have hlength : builder.nodes.length = chained.position + 1 := by
    rw [hnodes]
    rfl
  rw [stays.run.shape_eq, stays.names, hposition] at hresumes
  rw [hlength]
  exact hresumes

end Built

end PrologueGuard

end ClassWeave
