import ClassWeave.Proofs.Machine.Meaning
import Mathlib.Data.Set.Basic

/-!
How programs run: what is read from the locals after a write, where a program gets, and that what it has
done stays done.
-/

namespace ClassWeave

variable {M : Machine}

namespace Locals

variable {locals : Locals M} {slot other count : Nat} {values : List M.Slot}

/-- The slots that hold something. -/
def filled (locals : Locals M) : Set Nat := {i | (locals i).isSome = true}

theorem read_succ (locals : Locals M) (slot count : Nat) :
    locals.read slot (count + 1) =
      (locals slot).bind fun first => (locals.read (slot + 1) count).map (first :: ·) := by
  unfold read
  rw [List.range'_succ, List.mapM_cons]
  cases locals slot with
  | none => rfl
  | some first => cases List.mapM locals (List.range' (slot + 1) count) <;> rfl

theorem read_one (locals : Locals M) (slot : Nat) :
    locals.read slot 1 = (locals slot).map fun value => [value] := by
  rw [read_succ]
  cases locals slot <;> rfl

theorem read_eq_some : locals.read slot count = some values ↔
    values.length = count ∧ ∀ k < count, locals (slot + k) = values[k]? := by
  induction count generalizing slot values with
  | zero =>
    rw [show locals.read slot 0 = some [] from rfl, Option.some.injEq, eq_comm]
    exact ⟨fun h => ⟨h ▸ rfl, nofun⟩, fun h => List.length_eq_zero_iff.1 h.1⟩
  | succ n ih =>
    rw [read_succ, Option.bind_eq_some_iff]
    constructor
    · rintro ⟨first, hfirst, h⟩
      obtain ⟨rest, hrest, rfl⟩ := Option.map_eq_some_iff.1 h
      obtain ⟨hlength, hget⟩ := ih.1 hrest
      refine ⟨congrArg (· + 1) hlength, fun k hk => ?_⟩
      cases k with
      | zero => exact hfirst
      | succ k =>
        rw [← Nat.succ_add_eq_add_succ]
        exact hget k (Nat.lt_of_succ_lt_succ hk)
    · rintro ⟨hlength, hget⟩
      cases values with
      | nil => cases hlength
      | cons first rest =>
        refine ⟨first, hget 0 (Nat.succ_pos n), Option.map_eq_some_iff.2 ⟨rest, ih.2 ⟨?_, ?_⟩, rfl⟩⟩
        · exact Nat.succ.inj hlength
        · intro k hk
          rw [Nat.succ_add_eq_add_succ]
          exact hget (k + 1) (Nat.succ_lt_succ hk)

theorem exists_read (h : ∀ k < count, slot + k ∈ locals.filled) :
    ∃ values, locals.read slot count = some values := by
  induction count generalizing slot with
  | zero => exact ⟨[], rfl⟩
  | succ n ih =>
    obtain ⟨first, hfirst⟩ := Option.isSome_iff_exists.1 (h 0 (Nat.succ_pos n))
    obtain ⟨rest, hrest⟩ := @ih (slot + 1) fun k hk => by
      rw [Nat.succ_add_eq_add_succ]
      exact h (k + 1) (Nat.succ_lt_succ hk)
    rw [Nat.add_zero] at hfirst
    exact ⟨first :: rest, by rw [read_succ, hfirst, hrest]; rfl⟩

/-- A write leaves the slots apart from its own as they are. -/
theorem read_write_of_apart (locals : Locals M) (values : List M.Slot)
    (h : slot + count ≤ other ∨ other + values.length ≤ slot) :
    (locals.write other values).read slot count = locals.read slot count := by
  refine Option.ext fun found => ?_
  rw [read_eq_some, read_eq_some]
  refine and_congr_right fun _ => forall₂_congr fun k hk => ?_
  rw [write, if_neg (by omega)]

theorem write_of_apart (locals : Locals M) (values : List M.Slot) {i : Nat}
    (h : i < slot ∨ slot + values.length ≤ i) : locals.write slot values i = locals i := by
  rw [write, if_neg (by omega)]

theorem write_one (locals : Locals M) (slot : Nat) (value : M.Slot) :
    locals.write slot [value] slot = some value := by
  rw [write, if_pos ⟨le_rfl, Nat.lt_succ_self _⟩, Nat.sub_self]
  rfl

theorem read_write (locals : Locals M) (slot : Nat) (values : List M.Slot) :
    (locals.write slot values).read slot values.length = some values := by
  refine read_eq_some.2 ⟨rfl, fun k hk => ?_⟩
  rw [write, if_pos ⟨Nat.le_add_right _ _, Nat.add_lt_add_left hk slot⟩, Nat.add_sub_cancel_left]

theorem filled_write (locals : Locals M) (slot : Nat) (values : List M.Slot) :
    (locals.write slot values).filled =
      locals.filled ∪ {i | slot ≤ i ∧ i < slot + values.length} := by
  ext i
  simp only [filled, write, Set.mem_union, Set.mem_ofPred_eq]
  split
  · next h =>
    rw [List.getElem?_eq_getElem (by omega)]
    exact ⟨fun _ => .inr h, fun _ => rfl⟩
  · next h => exact ⟨.inl, fun hi => hi.resolve_right h⟩

end Locals

/-- A move keeps what was done before it. -/
def Move.Logs (log : List (Action × List M.Slot)) : Move M → Prop
  | .next _ _ world | .thrown _ world => log <:+ world.log
  | .jump _ _ | .returned _ | .stuck => True

section

variable (locals : Locals M) (stack : List M.Slot) (world : World M)

theorem Insn.logs_act (pool : ConstantPool) (insn : Insn) :
    (insn.act pool locals stack world).Logs world.log := by
  unfold act World.perform
  split
  · split
    · next action effect _ _ _ =>
      cases M.perform action (stack.take effect.pops) effect.pushes world.heap <;>
        exact List.suffix_cons _ _
    · trivial
  · trivial

theorem Insn.logs_run (pool : ConstantPool) (insn : Insn) :
    (insn.run pool locals stack world).Logs world.log := by
  unfold run
  split
  all_goals try split
  all_goals first | exact List.suffix_refl _ | exact logs_act .. | trivial

theorem Branch.logs_run (branch : Branch Label) : (branch.run locals stack world).Logs world.log := by
  unfold run
  split
  all_goals try unfold decide
  all_goals try unfold decide₂
  all_goals try split
  all_goals try split
  all_goals first | exact List.suffix_refl _ | trivial

end

namespace Program

variable {program : Program} {locals : Locals M} {s t u : State M}

/-- The program gets from one state to another in some number of steps. -/
def Reaches (program : Program) (s t : State M) : Prop := ∃ n, program.after n s = .running t

namespace Reaches

theorem refl (s : State M) : program.Reaches s s := ⟨0, rfl⟩

theorem trans (h : program.Reaches s t) (h' : program.Reaches t u) : program.Reaches s u := by
  obtain ⟨m, hm⟩ := h
  obtain ⟨n, hn⟩ := h'
  exact ⟨m + n, (after_add hm n).trans hn⟩

theorem step (h : program.step s = .running t) : program.Reaches s t := ⟨1, after_one.trans h⟩

theorem next {position : Nat} {stack stack' : List M.Slot} {locals' : Locals M} {world world' : World M}
    (h : program.move ⟨position, locals, stack, world⟩ = .next locals' stack' world') :
    program.Reaches ⟨position, locals, stack, world⟩ ⟨position + 1, locals', stack', world'⟩ :=
  step (by rw [Program.step, h])

theorem jump {position target : Nat} {stack stack' : List M.Slot} {world : World M} {label : Label}
    (h : program.move ⟨position, locals, stack, world⟩ = .jump label stack')
    (hp : program.position? label = some target) :
    program.Reaches ⟨position, locals, stack, world⟩ ⟨target, locals, stack', world⟩ :=
  step (by rw [Program.step, h]; dsimp only; rw [hp])

end Reaches

/-- What was done on the way to a state is the start of all that is done. -/
theorem log_suffix_step (h : program.step s = .running t) : s.world.log <:+ t.world.log := by
  have logs : (program.move s).Logs s.world.log := by
    unfold move
    split
    · trivial
    · exact List.suffix_refl _
    · exact Insn.logs_run _ _ _ _ _
    · exact Branch.logs_run _ _ _ _
  unfold step at h
  split at h
  · next hmove =>
    cases h
    rw [hmove] at logs
    exact logs
  · split at h
    · cases h
      exact List.suffix_refl _
    · cases h
  · cases h
  · next hmove =>
    rw [hmove] at logs
    split at h
    · cases h
    · split at h
      · cases h
        exact logs
      · cases h
  · cases h

theorem log_suffix_after {n : Nat} (h : program.after n s = .running t) : s.world.log <:+ t.world.log := by
  induction n generalizing s with
  | zero =>
    cases h
    exact List.suffix_refl _
  | succ n ih =>
    rw [after] at h
    split at h
    · next hstep => exact (log_suffix_step hstep).trans (ih h)
    · next hne => exact absurd h (hne t)

end Program

end ClassWeave
