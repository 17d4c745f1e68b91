import ClassWeave.Proofs.Script.Branching

/-!
How code that stands for statements ends: behind its last node with no operands on the stack, out of the
method, with an exception that none of its own handlers catches, or not within a number of steps.
-/

namespace ClassWeave

open Evaluating Compiler Builder

variable {M : Machine} {host : Host} {c c' d d' : Compiler}

namespace Host

/-- An exception is on its way out of the code between two compilers. What handlers may rely on still
holds. -/
structure Raises (host : Host) (c c' : Compiler) (exception : M.Slot) (store : Store M)
    (world : World M) (s : State M) : Prop where
  move : host.program.move s = .thrown exception world
  ge : c.position ≤ s.position
  lt : s.position < c'.position
  store : host.Matches store s.locals
  kept : c'.builder.Kept s.locals.filled
  uncaught : ∀ handler ∈ c'.builder.handlers, host.program.covers handler s.position = true →
    M.catches handler.catchType exception world = false

/-- From a state on, the code between two compilers ends as statements do. What is still running has made
a number of steps. -/
def Ends (host : Host) (c c' : Compiler) (steps : Nat) (s : State M) (ending : Ending M) : Prop :=
  match ending with
  | .next store world => ∃ locals, host.program.Reaches s ⟨c'.position, locals, [], world⟩ ∧
      host.Matches store locals ∧ c'.builder.Arrives [] locals.filled
  | .left values world => ∃ n, host.program.after n s = .returned values world
  | .thrown exception store world => ∃ t, host.program.Reaches s t ∧
      host.Raises c c' exception store world t
  | .running world => ∃ n t, steps ≤ n ∧ host.program.after n s = .running t ∧ t.world = world
  | .stuck => False

/-- Code in front of an evaluation, and behind it, cannot catch what is thrown there. -/
theorem Contains.uncaught (contains : host.Contains c') (fine : Fine d.builder) (stays : Stays d d')
    (behind : Goes d' c') {handler : Handler} (hm : handler ∈ c'.builder.handlers) {position : Nat}
    (hge : d.position ≤ position) (hlt : position < d'.position) :
    host.program.covers handler position = false := by
  refine Bool.eq_false_iff.2 fun hc => ?_
  have contains' := contains.of_goes behind
  rcases behind.inner handler hm with hm | hnew
  · rw [stays.handlers] at hm
    exact Nat.not_lt_of_le hge ((contains'.of_goes stays.goes).covers_lt fine.bookkept hm hc)
  · exact Nat.not_lt_of_le (contains'.le_of_covers hnew hc) hlt

theorem Raises.widen {exception : M.Slot} {store : Store M} {world : World M} {s : State M}
    (ahead : Run c.builder d.builder) (behind : Goes d' c') (contains : host.Contains c')
    (h : host.Raises d d' exception store world s) : host.Raises c c' exception store world s where
  move := h.move
  ge := (position_le ahead).trans h.ge
  lt := h.lt.trans_le (position_le behind.run)
  store := h.store
  kept := behind.balanced.kept h.kept
  uncaught handler hm hc := by
    rcases behind.inner handler hm with hm | hnew
    · exact h.uncaught handler hm hc
    · exact absurd h.lt (Nat.not_lt_of_le ((contains.of_goes behind).le_of_covers hnew hc))

namespace Ends

variable {steps fewer : Nat} {s t : State M} {ending : Ending M} {store : Store M} {world : World M}

theorem mono (h : host.Ends c c' steps s ending) (hle : fewer ≤ steps) :
    host.Ends c c' fewer s ending := by
  match ending with
  | .running world =>
    obtain ⟨n, t, hsteps, hrun⟩ := h
    exact ⟨n, t, hle.trans hsteps, hrun⟩
  | .next _ _ | .left _ _ | .thrown _ _ _ | .stuck => exact h

/-- Steps on the way to where the code runs on are made in any case. -/
theorem after_succ {n : Nat} (hs : host.program.after n s = .running t)
    (h : host.Ends c c' steps t ending) : host.Ends c c' (n + steps) s ending := by
  match ending with
  | .next store world =>
    obtain ⟨locals, hreaches, h⟩ := h
    exact ⟨locals, .trans ⟨n, hs⟩ hreaches, h⟩
  | .left values world =>
    obtain ⟨m, h⟩ := h
    exact ⟨n + m, (Program.after_add hs m).trans h⟩
  | .thrown exception store world =>
    obtain ⟨u, hreaches, h⟩ := h
    exact ⟨u, .trans ⟨n, hs⟩ hreaches, h⟩
  | .running world =>
    obtain ⟨m, u, hle, hrun, h⟩ := h
    exact ⟨n + m, u, Nat.add_le_add_left hle n, (Program.after_add hs m).trans hrun, h⟩
  | .stuck => exact h

theorem after (hs : host.program.Reaches s t) (h : host.Ends c c' steps t ending) :
    host.Ends c c' steps s ending := by
  obtain ⟨n, hn⟩ := hs
  exact (h.after_succ hn).mono (Nat.le_add_left _ _)

/-- What is in front of the code does not matter. -/
theorem widen (ahead : Run c.builder d.builder) (h : host.Ends d c' steps s ending) :
    host.Ends c c' steps s ending := by
  match ending with
  | .thrown exception store world =>
    obtain ⟨t, hreaches, hraises⟩ := h
    exact ⟨t, hreaches, { hraises with ge := (position_le ahead).trans hraises.ge }⟩
  | .next _ _ | .left _ _ | .running _ | .stuck => exact h

/-- Where code ends with what is behind it, what is there ends the whole. -/
theorem andThen {next : Store M → World M → Ending M} (ahead : Run c.builder d.builder) (behind : Goes d' c')
    (contains : host.Contains c') (h : host.Ends d d' steps s ending)
    (hnext : ∀ store world locals, host.Matches store locals → d'.builder.Arrives [] locals.filled →
      host.Ends c c' steps ⟨d'.position, locals, [], world⟩ (next store world)) :
    host.Ends c c' steps s (ending.andThen next) := by
  match ending with
  | .next store world =>
    obtain ⟨locals, hreaches, hm, ha⟩ := h
    exact (hnext store world locals hm ha).after hreaches
  | .thrown exception store world =>
    obtain ⟨t, hreaches, hraises⟩ := h
    exact ⟨t, hreaches, hraises.widen ahead behind contains⟩
  | .left _ _ | .running _ | .stuck => exact h

theorem andThen_next (ending : Ending M) : ending.andThen .next = ending := by
  cases ending <;> rfl

/-- Code whose end is behind that of other code, and gets there from it. -/
theorem onward (ahead : Run c.builder d.builder) (behind : Goes d' c') (contains : host.Contains c')
    (h : host.Ends d d' steps s ending)
    (hnext : ∀ (store : Store M) world (locals : Locals M), host.Matches store locals →
      d'.builder.Arrives [] locals.filled →
        host.Ends c c' steps ⟨d'.position, locals, [], world⟩ (.next store world)) :
    host.Ends c c' steps s ending := by
  rw [← andThen_next ending]
  exact h.andThen ahead behind contains hnext

/-- An evaluation throws out of the statement that it is part of, or the statement goes on. -/
theorem ofEval {α : Type} {step : Evaluating M α} {next : α → World M → Ending M} {locals : Locals M}
    {goal : α → Nat → List M.Slot → Prop} (ahead : Run c.builder d.builder) (stays : Stays d d') (behind : Goes d' c')
    (fine : Fine d.builder) (contains : host.Contains c') (hm : host.Matches store locals)
    (ha : d.builder.Arrives [] locals.filled)
    (h : host.program.Yields locals d.position d'.position s (step world) goal)
    (hnext : ∀ a position stack world', goal a position stack →
      host.Ends c c' steps ⟨position, locals, stack, world'⟩ (next a world')) :
    host.Ends c c' steps s (Ending.ofEval step store world next) := by
  unfold Ending.ofEval
  match hstep : step world with
  | .ok a world' =>
    rw [hstep] at h
    obtain ⟨position, stack, hreaches, hgoal⟩ := h
    exact (hnext a position stack world' hgoal).after hreaches
  | .error (.thrown exception) world' =>
    rw [hstep] at h
    obtain ⟨position, stack, before, hge, hlt, hreaches, hmove⟩ := h
    refine ⟨_, hreaches, hmove, (position_le ahead).trans hge,
      hlt.trans_le (position_le behind.run), hm,
      behind.balanced.kept (stays.balanced.kept (ha.kept fine)), fun handler hmem hc => ?_⟩
    rw [contains.uncaught fine stays behind hmem hge hlt] at hc
    cases hc
  | .error .stuck world' =>
    rw [hstep] at h
    exact h

section Labels

variable {label : Label} {u : Unit} {locals : Locals M} (contains : host.Contains c')
  (h : placeIfReachable label d = .ok u c') (hm : host.Matches store locals)
include contains h hm

theorem place_of_arrives (ha : d.builder.Arrives [] locals.filled) :
    host.Ends c c' steps ⟨d.position, locals, [], world⟩ (.next store world) := by
  obtain ⟨hreaches, ha'⟩ := @reaches_placeIfReachable M host d c' label u locals [] world d.position
    contains h none (fun l hl => by cases hl) ⟨rfl, ha⟩
  exact ⟨locals, hreaches, hm, ha'⟩

theorem place_of_gets {position : Nat} (hg : host.Gets d (some label) locals.filled position) :
    host.Ends c c' steps ⟨position, locals, [], world⟩ (.next store world) := by
  obtain ⟨hreaches, ha'⟩ := reaches_placeIfReachable contains h
    (fun l hl => (Option.some.inj hl).symm) hg
  exact ⟨locals, hreaches, hm, ha'⟩

end Labels

end Ends

section Locals

variable {B : Builder} {u : Unit} {locals : Locals M} {values : List M.Slot} {kind : SlotKind}
  {slot : UInt16} {widths : List Nat} (stack : List M.Slot) (world : World M)

theorem position_push {insn : Insn} (hnew : ∀ index, insn ≠ .new index) (h : push insn c.builder = .ok u B) :
    B.nodes = .insn insn :: c.builder.nodes ∧ ({ c with builder := B } : Compiler).position = c.position + 1 := by
  obtain ⟨before, after, -, -, rfl⟩ := push_eq_ok hnew h
  refine ⟨append_nodes _ _ _, ?_⟩
  rw [Compiler.position, append_nodes]
  rfl

/-- An instruction on the locals moves on. -/
theorem reaches_insn {insn : Insn} {locals' : Locals M} {stack stack' : List M.Slot} {world : World M}
    (contains : host.Contains { c with builder := B }) (hnew : ∀ index, insn ≠ .new index)
    (h : push insn c.builder = .ok u B)
    (hrun : insn.run host.program.pool locals stack world = .next locals' stack' world) :
    host.program.Reaches ⟨c.position, locals, stack, world⟩
      ⟨({ c with builder := B } : Compiler).position, locals', stack', world⟩ := by
  obtain ⟨hn, hposition⟩ := position_push hnew h
  rw [hposition]
  exact .next ((contains.move_insn hn).trans hrun)

theorem takes_store (h : push (.store kind slot) c.builder = .ok u B) : c.builder.Takes [kind.width] :=
  fun frame hframe => by
    obtain ⟨before, after, hf, hv, -⟩ := push_eq_ok (by simp) h
    cases hf.symm.trans hframe
    exact ⟨after.widths, (Insn.verify_store hv).1⟩

theorem reaches_store (contains : host.Contains { c with builder := B })
    (h : push (.store kind slot) c.builder = .ok u B) (hlength : values.length = kind.width)
    (ha : c.builder.Arrives (kind.width :: widths) locals.filled) :
    host.program.Reaches ⟨c.position, locals, values ++ stack, world⟩
        ⟨({ c with builder := B } : Compiler).position, locals.write slot.toNat values, stack, world⟩ ∧
      B.Arrives widths (locals.write slot.toNat values).filled := by
  have hrun : (Insn.store kind slot).run host.program.pool locals (values ++ stack) world =
      .next (locals.write slot.toNat values) stack world := by
    rw [Insn.run, if_pos (by rw [List.length_append]; omega), List.take_left' hlength,
      List.drop_left' hlength]
  refine ⟨reaches_insn contains (by simp) h hrun, ?_⟩
  obtain ⟨before, after, hf, hv, rfl⟩ := push_eq_ok (by simp) h
  obtain ⟨frame, rest, hframe, hwidths, hsub⟩ := ha
  cases hf.symm.trans hframe
  obtain ⟨hbefore, hpromises⟩ := Insn.verify_store hv
  refine ⟨after, rest, append_frame _ _ _, ?_, ?_⟩
  · exact (List.cons.inj (hbefore.symm.trans hwidths)).2
  · rw [Locals.filled_write, hlength]
    exact hpromises.trans (Set.union_subset_union_left _ hsub)

theorem reaches_load (contains : host.Contains { c with builder := B })
    (h : push (.load kind slot) c.builder = .ok u B)
    (hread : locals.read slot.toNat kind.width = some values) (ha : c.builder.Arrives widths locals.filled) :
    host.program.Reaches ⟨c.position, locals, stack, world⟩
        ⟨({ c with builder := B } : Compiler).position, locals, values ++ stack, world⟩ ∧
      B.Arrives (kind.width :: widths) locals.filled := by
  refine ⟨reaches_insn contains (by simp) h (by rw [Insn.run, hread]), ?_⟩
  obtain ⟨before, after, hf, hv, rfl⟩ := push_eq_ok (by simp) h
  obtain ⟨frame, rest, hframe, hwidths, hsub⟩ := ha
  cases hf.symm.trans hframe
  obtain ⟨hafter, hlocals, -⟩ := Insn.verify_load hv
  refine ⟨after, rest, append_frame _ _ _, ?_, hlocals ▸ hsub⟩
  rw [hafter, hwidths, List.cons_append]

/-- A load finds a value. -/
theorem exists_load (h : push (.load kind slot) c.builder = .ok u B) (ha : c.builder.Arrives widths locals.filled) :
    ∃ values, values.length = kind.width ∧ locals.read slot.toNat kind.width = some values := by
  obtain ⟨before, after, hf, hv, rfl⟩ := push_eq_ok (by simp) h
  obtain ⟨frame, rest, hframe, hwidths, hsub⟩ := ha
  cases hf.symm.trans hframe
  obtain ⟨-, -, promised⟩ := Insn.verify_load hv
  obtain ⟨values, hvalues⟩ := Locals.exists_read fun k hk => hsub (promised k hk)
  exact ⟨values, (Locals.read_eq_some.1 hvalues).1, hvalues⟩

theorem reaches_increment {amount : Int16} {value : M.Slot} (contains : host.Contains { c with builder := B })
    (h : push (.increment slot amount) c.builder = .ok u B) (hread : locals slot.toNat = some value)
    (ha : c.builder.Arrives widths locals.filled) :
    host.program.Reaches ⟨c.position, locals, stack, world⟩
        ⟨({ c with builder := B } : Compiler).position,
          locals.write slot.toNat [M.int (M.toInt value + amount.toInt32)], stack, world⟩ ∧
      B.Arrives widths (locals.write slot.toNat [M.int (M.toInt value + amount.toInt32)]).filled := by
  refine ⟨reaches_insn contains (by simp) h (by rw [Insn.run, hread]), ?_⟩
  obtain ⟨before, after, hf, hv, rfl⟩ := push_eq_ok (by simp) h
  obtain ⟨frame, rest, hframe, hwidths, hsub⟩ := ha
  cases hf.symm.trans hframe
  obtain ⟨rfl, -⟩ := Insn.verify_increment hv
  refine ⟨after, rest, append_frame _ _ _, hwidths, ?_⟩
  rw [Locals.filled_write]
  exact hsub.trans Set.subset_union_left

/-- An increment finds an int. -/
theorem exists_increment {amount : Int16} (h : push (.increment slot amount) c.builder = .ok u B)
    (ha : c.builder.Arrives widths locals.filled) : ∃ value, locals slot.toNat = some value := by
  obtain ⟨before, after, hf, hv, rfl⟩ := push_eq_ok (by simp) h
  obtain ⟨frame, rest, hframe, hwidths, hsub⟩ := ha
  cases hf.symm.trans hframe
  exact Option.isSome_iff_exists.1 (hsub (Insn.verify_increment hv).2)

/-- What drops the value on top takes as many slots as that has. -/
theorem pop_eq_ok (h : Builder.pop c.builder = .ok u B) : ∃ op, push (.stack op) c.builder = .ok u B ∧
    ∀ w filled, c.builder.Arrives [w] filled → B.Arrives [] filled ∧
      ∀ (values stack : List M.Slot), values.length = w → op.rearrange (values ++ stack) = some stack := by
  unfold Builder.pop at h
  rw [get_bind_eq_ok] at h
  match hf : c.builder.frame with
  | none =>
    rw [hf] at h
    refine ⟨.pop, h, fun w filled ha => ?_⟩
    obtain ⟨frame, -, hframe, -⟩ := ha
    cases hf.symm.trans hframe
  | some ⟨known, []⟩ =>
    rw [hf] at h
    refine ⟨.pop, h, fun w filled ha => ?_⟩
    obtain ⟨frame, rest, hframe, hwidths, -⟩ := ha
    cases hf.symm.trans hframe
    cases hwidths
  | some ⟨known, type :: below⟩ =>
    rw [hf] at h
    cases hwide : type.isWide with
    | false =>
      simp only [hwide, Bool.false_eq_true, if_false] at h
      refine ⟨.pop, h, fun w filled ha => ?_⟩
      have hw := (takes_of_push (by simp) h fun _ _ => Insn.shifts_pop).eq_of_arrives ha rfl
      obtain ⟨rfl, -⟩ := List.cons.inj hw
      refine ⟨arrives_of_push (by simp) h (fun _ _ => Insn.shifts_pop) ha, fun values stack hlength => ?_⟩
      obtain ⟨value, rfl⟩ := List.length_eq_one_iff.1 hlength
      rfl
    | true =>
      simp only [hwide, if_true] at h
      refine ⟨.pop2, h, fun w filled ha => ?_⟩
      obtain ⟨before, after, hbefore, hv, rfl⟩ := push_eq_ok (by simp) h
      obtain ⟨frame, rest, hframe, hwidths, hsub⟩ := ha
      cases hf.symm.trans hbefore
      cases hf.symm.trans hframe
      obtain ⟨hw, hrest⟩ := List.cons.inj hwidths
      have hafter := Insn.verify_pop2 rfl hwide hv
      have hw : w = 2 := hw.symm.trans (if_pos hwide)
      refine ⟨⟨after, after.widths, append_frame _ _ _, rfl, hafter ▸ hsub⟩, fun values stack hlength => ?_⟩
      obtain ⟨a, b, rfl⟩ := List.length_eq_two.1 (hlength.trans hw)
      rfl

end Locals

end Host

end ClassWeave
