import ClassWeave.Proofs.Script.Calling
import ClassWeave.Proofs.Script.Compiled
import ClassWeave.Proofs.Script.Tallying

/-!
The code that replaces a body does what the script says: it returns, throws or goes on forever as the
script does, and asks the machine for the same actions on the way.
-/

namespace ClassWeave

open Compiler Builder

variable {M : Machine}

namespace Host

mutual

/-- A statement runs as its code does. -/
theorem follows_stmt (M : Machine) (host : Host) : ∀ (statement : Stmt) {c c' : Compiler} {u : Unit},
    Fine c.builder → c.Packed → stmt statement c = .ok u c' →
      Follows M host c c' (statement.namesAfter c.builder.shape c.names)
        (Stmt.exec c.builder.shape · c.names statement)
  | .declare _ _ _, _, _, _, fine, _, h => follows_declare fine h
  | .assign _ _, _, _, _, fine, _, h => follows_assign fine h
  | .setArgument _ _, _, _, _, fine, _, h => follows_setArgument fine h
  | .eval _, _, _, _, fine, _, h => follows_eval fine h
  | .branch _ whenTrue whenFalse, _, _, _, fine, packed, h =>
    follows_branch (follows_block M host whenTrue) (follows_block M host whenFalse) fine packed h
  | .loop _ body, _, _, _, fine, packed, h => follows_loop (follows_block M host body) fine packed h
  | .increment _ _, _, _, _, _, _, h => follows_increment h
  | .allOf _ _ _ _, _, _, _, fine, packed, h => follows_allOf fine packed h
  | .tryCatch body _ _ handler, _, _, _, fine, packed, h =>
    follows_tryCatch (follows_block M host body) (follows_block M host handler) fine packed h
  | .leave _, _, _, _, fine, _, h => follows_leave fine h

theorem follows_block (M : Machine) (host : Host) : ∀ statements : List Stmt, FollowsAll M host statements
  | [] => fun _ _ h => by
    rw [block] at h
    obtain ⟨-, rfl⟩ := pure_eq_ok.1 h
    exact .nothing _
  | first :: rest => fun fine packed h => by
    rw [block] at h
    obtain ⟨_, c₁, h₁, h⟩ := bind_eq_ok.1 h
    have one := follows_stmt M host first fine packed h₁
    have others := follows_block M host rest (one.goes.run.fine fine) (one.goes.packed packed) h
    rw [one.goes.run.shape_eq, one.names] at others
    exact one.andThen others

end

end Host

namespace Program

variable {program : Program} {start : State M} {meaning : Nat → Ending M} {steps : Nat}

/-- A program ends as statements do, or is still running after a number of steps. -/
def Meets (program : Program) (start : State M) (steps : Nat) : Ending M → Prop
  | .left values world => ∃ n, program.after n start = .returned values world
  | .thrown exception _ world => ∃ n, program.after n start = .escaped exception world
  | .running world => ∃ n t, steps ≤ n ∧ program.after n start = .running t ∧ t.world = world
  | .next _ _ | .stuck => False

/-- A program ends as something does that runs on fuel, or neither ends. What it does until then has been
done once the fuel has run out, and what has been done then it does. -/
structure Refines (program : Program) (start : State M) (meaning : Nat → Ending M) : Prop where
  ends : ∀ fuel, meaning fuel ≠ .stuck ∧ ∀ store world, meaning fuel ≠ .next store world
  moves : ∀ n, program.after n start ≠ .stuck
  returned : ∀ values world,
    (∃ n, program.after n start = .returned values world) ↔ ∃ fuel, meaning fuel = .left values world
  escaped : ∀ exception world, (∃ n, program.after n start = .escaped exception world) ↔
    ∃ fuel store, meaning fuel = .thrown exception store world
  endless : (∀ n, ∃ t, program.after n start = .running t) ↔ ∀ fuel, ∃ world, meaning fuel = .running world
  reached : ∀ fuel world, meaning fuel = .running world →
    ∃ n t, program.after n start = .running t ∧ t.world = world
  logged : ∀ n t world, program.after n start = .running t → meaning n = .running world →
    t.world.log <:+ world.log

/-- A program that ends does so in one way. -/
theorem outcome_unique {m n : Nat} {outcome outcome' : Outcome M} (h : program.after m start = outcome)
    (h' : program.after n start = outcome') (hne : ∀ s, outcome ≠ .running s)
    (hne' : ∀ s, outcome' ≠ .running s) : outcome = outcome' := by
  rw [← after_of_le h hne (Nat.le_max_left m n), after_of_le h' hne' (Nat.le_max_right m n)]

/-- Statements that are given as many steps as their code makes end with it. -/
theorem Meets.of_after {ending : Ending M} {outcome : Outcome M} (h : program.Meets start steps ending)
    (hend : program.after steps start = outcome) (hne : ∀ s, outcome ≠ .running s) :
    (∃ values world, ending = .left values world ∧ outcome = .returned values world) ∨
      ∃ exception store world, ending = .thrown exception store world ∧
        outcome = .escaped exception world := by
  match ending with
  | .left values world =>
    obtain ⟨n, hn⟩ := h
    exact .inl ⟨values, world, rfl, outcome_unique hend hn hne nofun⟩
  | .thrown exception store world =>
    obtain ⟨n, hn⟩ := h
    exact .inr ⟨exception, store, world, rfl, outcome_unique hend hn hne nofun⟩
  | .running world =>
    obtain ⟨n, t, hle, hn, -⟩ := h
    exact absurd ((after_of_le hend hne hle).symm.trans hn) (hne t)

theorem refines_of_meets (h : ∀ fuel, program.Meets start fuel (meaning fuel)) :
    program.Refines start meaning where
  ends fuel := by
    have hmeets := h fuel
    generalize meaning fuel = ending at hmeets
    cases ending <;> first | exact hmeets.elim | exact ⟨nofun, nofun⟩
  moves n hn := by
    obtain ⟨_, _, -, he⟩ | ⟨_, _, _, -, he⟩ := (h n).of_after hn nofun <;> cases he
  returned values world := by
    constructor
    · rintro ⟨n, hn⟩
      obtain ⟨_, _, hleft, he⟩ | ⟨_, _, _, -, he⟩ := (h n).of_after hn nofun <;> cases he
      exact ⟨n, hleft⟩
    · rintro ⟨fuel, hfuel⟩
      exact (hfuel ▸ h fuel : program.Meets start fuel (.left values world))
  escaped exception world := by
    constructor
    · rintro ⟨n, hn⟩
      obtain ⟨_, _, -, he⟩ | ⟨_, store, _, hthrown, he⟩ := (h n).of_after hn nofun <;> cases he
      exact ⟨n, store, hthrown⟩
    · rintro ⟨fuel, store, hfuel⟩
      exact (hfuel ▸ h fuel : program.Meets start fuel (.thrown exception store world))
  endless := by
    constructor
    · intro hrun fuel
      have hmeets := h fuel
      generalize meaning fuel = ending at hmeets ⊢
      cases ending with
      | running world => exact ⟨world, rfl⟩
      | left values world =>
        obtain ⟨n, hn⟩ := hmeets
        obtain ⟨t, ht⟩ := hrun n
        cases hn.symm.trans ht
      | thrown exception store world =>
        obtain ⟨n, hn⟩ := hmeets
        obtain ⟨t, ht⟩ := hrun n
        cases hn.symm.trans ht
      | next | stuck => exact hmeets.elim
    · intro hrun n
      by_contra hne
      obtain ⟨world, hworld⟩ := hrun n
      obtain ⟨_, _, he, -⟩ | ⟨_, _, _, he, -⟩ :=
        (h n).of_after rfl (fun s hs => hne ⟨s, hs⟩) <;> cases hworld.symm.trans he
  reached fuel world hfuel := by
    obtain ⟨n, t, -, hn⟩ := (hfuel ▸ h fuel : program.Meets start fuel (.running world))
    exact ⟨n, t, hn⟩
  logged n t world hn hfuel := by
    obtain ⟨m, u, hle, hm, rfl⟩ := (hfuel ▸ h n : program.Meets start n (.running world))
    obtain ⟨k, rfl⟩ := Nat.exists_eq_add_of_le hle
    exact log_suffix_after ((after_add hn k).symm.trans hm)

end Program

theorem Compiler.packed_start (builder : Builder) : (Compiler.start builder 0).Packed := by
  have hnext : (Compiler.start builder 0).nextLocal = builder.shape.parameterSlots := by
    unfold Compiler.start
    dsimp only
    rw [if_pos UInt16.zero_le]
  exact ⟨.nil, List.forall_mem_nil _, List.forall_mem_nil _, hnext ▸ Nat.le_refl _⟩

namespace Host

variable {host : Host} {c c' : Compiler} {start : State M} {fuel : Nat} {ending : Ending M}

/-- Statements that are the whole of a program do not get behind it, and nothing else catches what they
throw. -/
theorem meets_of_ends (h : host.Ends c c' fuel start ending) (ended : c'.builder.frame = none)
    (handlers : host.program.handlers = c'.builder.handlers.reverse) :
    host.program.Meets start fuel ending := by
  match ending with
  | .next store world =>
    obtain ⟨locals, -, -, frame, -, hframe, -⟩ := h
    cases ended.symm.trans hframe
  | .left values world => exact h
  | .thrown exception store world =>
    obtain ⟨t, ⟨n, hn⟩, raises⟩ := h
    have uncaught : host.program.handlerFor? t.position exception world = none := by
      refine List.find?_eq_none.2 fun handler hm hcatches => ?_
      obtain ⟨hc, hcaught⟩ := Bool.and_eq_true _ _ ▸ hcatches
      rw [raises.uncaught handler (List.mem_reverse.1 (handlers ▸ hm)) hc] at hcaught
      cases hcaught
    refine ⟨n + 1, (Program.after_add hn 1).trans (Program.after_one.trans ?_)⟩
    rw [Program.step, raises.move]
    dsimp only
    rw [uncaught]
  | .running world => exact h
  | .stuck => exact h

end Host

namespace Replacement

variable {replacement : Replacement} {old body : MethodBody} {pool pool' : ConstantPool}

theorem refines_of_apply (h : replacement.apply (some old) pool = .ok (.patched body) pool')
    (few : old.shape.descriptor.parameterSlots false ≤ 255) (call : old.shape.Call M) (world : World M) :
    (body.program pool').Refines (call.entry world) fun fuel =>
      Stmt.execAll old.shape fuel [] replacement.body call.store world := by
  obtain ⟨before, compiler, hold, hconstructor, rfl, hblock, compiled⟩ := built_of_apply h
  cases hold
  have hshape : compiler.builder.shape = old.shape := compiled.run.shape_eq
  have few : old.shape.descriptor.parameterSlots (!old.shape.isStatic) ≤ 65535 :=
    (Nat.add_le_add few (Bool.toNat_le _)).trans (by decide)
  let start := Compiler.start (.start pool ⟨0⟩ old.shape old.shape.entryFrame) 0
  have follows := fun host : Host => Host.follows_block M host replacement.body
    (fine_start pool ⟨0⟩ old.shape old.shape.entryFrame : Fine start.builder) (packed_start _) hblock
  have packed := (follows ⟨body.program compiler.builder.pool, old.shape, [], few, .nil,
    List.forall_mem_nil _⟩).goes.packed (packed_start _)
  let host : Host := ⟨body.program compiler.builder.pool, old.shape, compiler.slots, few,
    packed.ascending, hshape ▸ packed.above⟩
  have contains : host.Contains compiler :=
    { nodes := compiled.nodes ▸ List.prefix_refl _
      handlers := compiled.handlers ▸ List.prefix_refl _
      pool := ConstantPool.le_refl _
      targets := fun branch hb target ht => by
        have hm := compiled.wellPlaced.targets branch (compiled.mem_nodes.2 hb) target ht
        exact Option.isSome_iff_exists.1 (List.findIdx?_isSome.trans
          (List.any_eq_true.2 ⟨_, hm, decide_eq_true rfl⟩))
      shape := hshape
      slots := List.prefix_refl _
      later := fun number v hn hv => by
        rw [List.getElem?_eq_none (by rwa [length_slots])] at hv
        cases hv }
  have arrives : start.builder.Arrives [] call.locals.filled := by
    refine ⟨_, _, rfl, rfl, ?_⟩
    rw [call.filled_locals]
    exact MethodShape.promises_entryFrame hconstructor
  refine Program.refines_of_meets fun fuel => ?_
  have ends := (follows host).runs contains fuel call.store call.locals
    (@Host.matches_call M host call) arrives world
  exact Host.meets_of_ends ends compiled.ended compiled.handlers

/-- A machine on which everything about objects gives zeros. -/
def zeroing : Machine where
  Slot := Int32
  Heap := Unit
  int := id
  toInt := id
  toInt_int _ := rfl
  null := 0
  isNull value := value == 0
  isNull_null := rfl
  same a b := a == b
  perform _ _ count heap := .ok (⟨List.replicate count 0, List.length_replicate⟩, heap)
  raise exception heap := (exception, heap)
  isInstance _ _ _ := true

def clearingCall : clearingShape.Call zeroing := ⟨none, [[(7 : Int32)], [(1 : Int32)]], rfl, rfl⟩

theorem refines_clearing : ∃ body pool,
    clearing.apply (some (.empty clearingShape)) .empty = .ok (.patched body) pool ∧
      clearingShape.descriptor.parameterSlots false ≤ 255 ∧
      (body.program pool).Refines (clearingCall.entry ⟨(), []⟩) fun fuel =>
        Stmt.execAll clearingShape fuel [] clearing.body clearingCall.store ⟨(), []⟩ := by
  obtain ⟨body, pool, h⟩ := clearing_patched
  have few : clearingShape.descriptor.parameterSlots false ≤ 255 := by decide
  exact ⟨body, pool, h, few, refines_of_apply h few clearingCall ⟨(), []⟩⟩

end Replacement

end ClassWeave
