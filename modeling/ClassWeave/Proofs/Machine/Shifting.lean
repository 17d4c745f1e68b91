import ClassWeave.Proofs.Code.Labelling
import ClassWeave.Proofs.Machine.Running

/-!
Code in front of a program. If the labels in it are new and its handlers cover nothing behind it, what is
behind it runs as it does alone.
-/

namespace ClassWeave

variable {M : Machine}

/-- The state behind a number of further nodes. -/
def State.behind (count : Nat) (s : State M) : State M := { s with position := count + s.position }

def Outcome.behind (count : Nat) : Outcome M → Outcome M
  | .running s => .running (s.behind count)
  | outcome => outcome

/-- A move jumps to none but the targets, if at all. -/
def Move.JumpsTo (targets : List Label) : Move M → Prop
  | .jump target _ => target ∈ targets
  | .next _ _ _ | .returned _ | .thrown _ _ | .stuck => True

namespace Branch

variable (locals : Locals M) (stack : List M.Slot) (world : World M)

theorem entry_mem (default : Label) (low : Int32) (targets : List Label) (key : Int32) :
    entry default low targets key ∈ default :: targets := by
  unfold entry
  split
  · cases ht : targets[(key.toInt - low.toInt).toNat]? with
    | none => exact List.mem_cons_self
    | some found => exact List.mem_cons_of_mem _ (List.mem_of_getElem? ht)
  · exact List.mem_cons_self

theorem lookup_mem (default : Label) (targets : List (Int32 × Label)) (key : Int32) :
    (targets.lookup key).getD default ∈ default :: targets.map Prod.snd := by
  cases ht : targets.lookup key with
  | none => exact List.mem_cons_self
  | some found =>
    obtain ⟨before, after, rfl, -⟩ := List.lookup_eq_some_iff.1 ht
    exact List.mem_cons_of_mem _ (List.mem_map.2 ⟨(key, found), by simp, rfl⟩)

theorem jumpsTo_run (branch : Branch Label) :
    (branch.run locals stack world).JumpsTo branch.jumpTargets := by
  unfold run
  split
  all_goals try unfold decide
  all_goals try unfold decide₂
  all_goals try split
  all_goals try split
  all_goals first | exact entry_mem _ _ _ _ | exact lookup_mem _ _ _ | exact List.mem_singleton_self _ | trivial

end Branch

theorem Insn.jumpsTo_run (pool : ConstantPool) (insn : Insn) (locals : Locals M) (stack : List M.Slot)
    (world : World M) : (insn.run pool locals stack world).JumpsTo [] := by
  unfold run act
  split
  all_goals try split
  all_goals try split
  all_goals try split
  all_goals try split
  all_goals trivial

namespace Program

/-- The program with further nodes and handlers in front. -/
def inFront (program : Program) (nodes : List Node) (handlers : List Handler) : Program :=
  ⟨nodes ++ program.nodes, handlers ++ program.handlers, program.pool⟩

/-- A program refers to a label. -/
def Names (program : Program) (label : Label) : Prop :=
  (∃ branch : Branch Label, .branch branch ∈ program.nodes ∧ label ∈ branch.jumpTargets) ∨
    ∃ handler ∈ program.handlers, label = handler.start ∨ label = handler.stop ∨ label = handler.handler

variable {program : Program} {nodes : List Node} {handlers : List Handler} {label : Label}

theorem position?_inFront (h : .label label ∉ nodes) :
    (program.inFront nodes handlers).position? label = (program.position? label).map (nodes.length + ·) := by
  unfold position? inFront
  rw [List.findIdx?_append, List.findIdx?_eq_none_iff.2, Option.none_or]
  · exact congrArg (Option.map · _) (funext fun _ => Nat.add_comm _ _)
  · exact fun node hn => decide_eq_false fun he => h (he ▸ hn)

theorem covers_inFront {handler : Handler} (hstart : .label handler.start ∉ nodes)
    (hstop : .label handler.stop ∉ nodes) (position : Nat) :
    (program.inFront nodes handlers).covers handler (nodes.length + position) = program.covers handler position := by
  unfold covers
  rw [position?_inFront hstart, position?_inFront hstop]
  cases program.position? handler.start with
  | none => rfl
  | some start =>
    cases program.position? handler.stop with
    | none => rfl
    | some stop => simp

/-- A jump goes to a target of a branch. -/
theorem names_of_jump {s : State M} {stack : List M.Slot} (h : program.move s = .jump label stack) :
    ∃ branch : Branch Label, .branch branch ∈ program.nodes ∧ label ∈ branch.jumpTargets := by
  unfold move at h
  split at h
  · cases h
  · cases h
  · next insn _ =>
    have jumps := insn.jumpsTo_run program.pool s.locals s.stack s.world
    rw [h] at jumps
    exact absurd jumps List.not_mem_nil
  · next branch hb =>
    have jumps := branch.jumpsTo_run s.locals s.stack s.world
    rw [h] at jumps
    exact ⟨branch, List.mem_of_getElem? hb, jumps⟩

section Lockstep

variable (fresh : ∀ label, program.Names label → .label label ∉ nodes)
  (apart : ∀ handler ∈ handlers, ∀ position,
    (program.inFront nodes handlers).covers handler (nodes.length + position) = false)

theorem move_behind (s : State M) :
    (program.inFront nodes handlers).move (s.behind nodes.length) = program.move s := by
  unfold move inFront State.behind
  dsimp only
  rw [List.getElem?_append_right (Nat.le_add_right _ _), Nat.add_sub_cancel_left]

include fresh apart

theorem handlerFor?_inFront (position : Nat) (exception : M.Slot) (world : World M) :
    (program.inFront nodes handlers).handlerFor? (nodes.length + position) exception world =
      program.handlerFor? position exception world := by
  have none : handlers.find? (fun handler =>
      (program.inFront nodes handlers).covers handler (nodes.length + position) &&
        M.catches handler.catchType exception world) = none :=
    List.find?_eq_none.2 fun handler hm => by rw [apart handler hm, Bool.false_and]; exact Bool.false_ne_true
  unfold handlerFor?
  rw [inFront, List.find?_append, ← inFront, none, Option.none_or]
  rw [← List.head?_filter, ← List.head?_filter]
  refine congrArg List.head? (List.filter_congr fun handler hm => ?_)
  rw [covers_inFront (fresh _ (.inr ⟨handler, hm, .inl rfl⟩)) (fresh _ (.inr ⟨handler, hm, .inr (.inl rfl)⟩))]

/-- The same nodes are executed, with the same jumps and the same handlers. -/
theorem step_behind (s : State M) :
    (program.inFront nodes handlers).step (s.behind nodes.length) = (program.step s).behind nodes.length := by
  unfold step
  rw [move_behind]
  cases hmove : program.move s with
  | next locals stack world =>
    exact congrArg Outcome.running (congrArg (State.mk · locals stack world) (Nat.add_assoc _ _ _))
  | jump target stack =>
    dsimp only
    have hfresh : .label target ∉ nodes := fresh target (.inl (names_of_jump hmove))
    rw [position?_inFront hfresh]
    cases program.position? target <;> rfl
  | returned values => rfl
  | thrown exception world =>
    dsimp only
    rw [State.behind, handlerFor?_inFront fresh apart]
    cases hfound : program.handlerFor? s.position exception world with
    | none => rfl
    | some handler =>
      dsimp only
      rw [position?_inFront (fresh _ (.inr ⟨handler, List.mem_of_find?_eq_some hfound, .inr (.inr rfl)⟩))]
      cases program.position? handler.handler <;> rfl
  | stuck => rfl

theorem after_behind (steps : Nat) (s : State M) :
    (program.inFront nodes handlers).after steps (s.behind nodes.length) =
      (program.after steps s).behind nodes.length := by
  induction steps generalizing s with
  | zero => rfl
  | succ steps ih =>
    rw [after, after, step_behind fresh apart]
    cases program.step s with
    | running next => exact ih next
    | returned _ _ | escaped _ _ | stuck => rfl

end Lockstep

end Program

/-- The old code refers to what the body mentions. -/
theorem MethodBody.mentions_of_names {old : MethodBody} {pool : ConstantPool} {label : Label}
    (h : (old.program pool).Names label) : old.Mentions label := by
  rcases h with ⟨branch, hm, ht⟩ | ⟨handler, hm, rfl | rfl | rfl⟩
  · exact .target (List.mem_append_left _ (List.mem_flatMap.2 ⟨_, hm, ht⟩))
  · exact .start hm
  · exact .stop hm
  · exact .target (List.mem_append_right _ (List.mem_map_of_mem hm))

end ClassWeave
