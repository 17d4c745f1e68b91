import ClassWeave.Proofs.Machine.Running

/-!
Runs that tell which instructions they take. Labels and branches only steer, so what a run does on its way
is told by the positions of the instructions that it takes.
-/

namespace ClassWeave

variable {M : Machine}

/-- The move is not a jump. -/
def Move.Unjumped : Move M → Prop
  | .jump _ _ => False
  | _ => True

section

variable (pool : ConstantPool) (insn : Insn) (locals : Locals M) (stack : List M.Slot) (world : World M)

theorem Insn.unjumped_act : (insn.act pool locals stack world).Unjumped := by
  unfold act
  split
  · split
    · split <;> trivial
    · trivial
  · trivial

theorem Insn.unjumped_run : (insn.run pool locals stack world).Unjumped := by
  unfold run
  split
  all_goals try split
  all_goals first | trivial | exact unjumped_act ..

end

namespace Program

variable {program other : Program} {s t u : State M} {trace more : List Nat} {first last : Nat}

/-- The program gets from one state to another over the instructions at some positions, in that order. -/
inductive Walks (program : Program) : State M → List Nat → State M → Prop where
  | refl (s : State M) : Walks program s [] s
  | take {s t u : State M} {insn : Insn} {trace : List Nat}
      (here : program.nodes[s.position]? = some (.insn insn)) (step : program.step s = .running t)
      (rest : Walks program t trace u) : Walks program s (s.position :: trace) u
  | steer {s t u : State M} {trace : List Nat}
      (here : ∀ insn, program.nodes[s.position]? ≠ some (.insn insn)) (step : program.step s = .running t)
      (rest : Walks program t trace u) : Walks program s trace u

namespace Walks

theorem trans (h : program.Walks s trace t) (h' : program.Walks t more u) :
    program.Walks s (trace ++ more) u := by
  induction h with
  | refl => exact h'
  | take here step _ ih => exact .take here step (ih h')
  | steer here step _ ih => exact .steer here step (ih h')

theorem reaches (h : program.Walks s trace t) : program.Reaches s t := by
  induction h with
  | refl => exact .refl _
  | take _ step _ ih => exact (Reaches.step step).trans ih
  | steer _ step _ ih => exact (Reaches.step step).trans ih

theorem steered (here : ∀ insn, program.nodes[s.position]? ≠ some (.insn insn))
    (step : program.step s = .running t) : program.Walks s [] t := .steer here step (.refl t)

end Walks

/-- From a position on the code goes straight ahead: it has no branches, and no handler covers it. -/
structure Straight (program : Program) (first : Nat) : Prop where
  unbranched : ∀ position, first ≤ position → ∀ branch : Branch Label,
    program.nodes[position]? ≠ some (.branch branch)
  uncovered : ∀ position, first ≤ position → ∀ handler ∈ program.handlers,
    program.covers handler position = false

/-- A step in such code goes to the next position. -/
theorem Straight.move_eq (h : program.Straight first) (hfirst : first ≤ s.position)
    (step : program.step s = .running t) :
    program.move s = .next t.locals t.stack t.world ∧ t.position = s.position + 1 := by
  have unjumped : (program.move s).Unjumped := by
    unfold move
    split
    · trivial
    · trivial
    · exact Insn.unjumped_run ..
    · next branch hn => exact absurd hn (h.unbranched _ hfirst branch)
  have unhandled (exception : M.Slot) (world : World M) :
      program.handlerFor? s.position exception world = none := by
    refine List.find?_eq_none.2 fun handler hm => ?_
    rw [h.uncovered _ hfirst handler hm]
    simp
  unfold Program.step at step
  split at step
  · next hmove =>
    cases step
    exact ⟨hmove, rfl⟩
  · next hmove =>
    rw [hmove] at unjumped
    exact unjumped.elim
  · cases step
  · rw [unhandled] at step
    cases step
  · cases step

/-- A run through such code takes every instruction on its way, once and in order, and so does a run of
another program with the same instructions there. -/
theorem Straight.walks (h : program.Straight first) (pool : other.pool = program.pool)
    (same : ∀ position, first ≤ position → position < last → ∃ insn,
      program.nodes[position]? = some (.insn insn) ∧ other.nodes[position]? = some (.insn insn))
    (hfirst : first ≤ s.position) (hreaches : program.Reaches s t) (hlast : t.position = last) :
    s.position ≤ last ∧ other.Walks s (List.range' s.position (last - s.position)) t := by
  obtain ⟨n, hn⟩ := hreaches
  induction n generalizing s with
  | zero =>
    cases hn
    rw [hlast, Nat.sub_self]
    exact ⟨Nat.le_refl _, .refl t⟩
  | succ n ih =>
    rw [after] at hn
    split at hn
    · next s' hstep =>
      obtain ⟨hmove, hposition⟩ := h.move_eq hfirst hstep
      obtain ⟨hle, walks⟩ := ih (hposition ▸ Nat.le_succ_of_le hfirst) hn
      have hlt : s.position < last := by omega
      obtain ⟨insn, hnode, hother⟩ := same s.position hfirst hlt
      have hrun : other.move s = program.move s := by
        unfold move
        rw [hnode, hother, pool]
      have hstep' : other.step s = .running s' := by
        unfold Program.step
        rw [hrun, hmove]
        exact congrArg Outcome.running (by rw [← hposition])
      refine ⟨hlt.le, ?_⟩
      rw [show last - s.position = last - s'.position + 1 by omega, List.range'_succ, ← hposition]
      exact .take hother hstep' walks
    · next hne => exact absurd hn (hne t)

end Program

end ClassWeave
