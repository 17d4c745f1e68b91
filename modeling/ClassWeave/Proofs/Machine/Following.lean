import ClassWeave.Proofs.Machine.Shifting
import ClassWeave.Proofs.Patch.Heights

/-!
Code behind a program, with a handler that comes after those of the program. If the labels in that code are
new, what is in front of it runs as it does alone, except that the handler may catch what escapes. More
constants change nothing for code that makes sense.
-/

namespace ClassWeave

variable {M : Machine}

/-- What escapes goes to a position if a handler for the class catches it. -/
def Outcome.rescued (catchType : Option String) (target : Nat) (locals : Locals M) : Outcome M → Outcome M
  | .escaped exception world =>
    if M.catches catchType exception world then .running ⟨target, locals, [exception], world⟩
    else .escaped exception world
  | outcome => outcome

namespace Outcome

variable {catchType : Option String} {target : Nat} {locals : Locals M} {exception : M.Slot} {world : World M}

theorem rescued_of_catches (h : M.catches catchType exception world = true) :
    (escaped exception world).rescued catchType target locals =
      .running ⟨target, locals, [exception], world⟩ := if_pos h

theorem rescued_of_not_catches (h : M.catches catchType exception world = false) :
    (escaped exception world).rescued catchType target locals = .escaped exception world :=
  if_neg (by rw [h]; exact Bool.false_ne_true)

end Outcome

namespace Insn

variable {p q : ConstantPool}

theorem refines_action (h : p ≤ q) (insn : Insn) : Refines (insn.action p) (insn.action q) := by
  have hget (index : PoolIndex) : Refines (p.get index) (q.get index) := fun _ => ConstantPool.get_of_le h
  cases insn with
  | loadConstant index =>
    refine .bind (.mapError _ (hget index)) fun constant => ?_
    cases constant with
    | string text => exact .bind (.mapError _ fun _ => ConstantPool.utf8_of_le h) fun _ => .refl _
    | _ => exact .refl _
  | loadWideConstant index => exact .bind (.mapError _ (hget index)) fun _ => .refl _
  | field access index => exact .bind (.mapError _ fun _ => ConstantPool.fieldRef_of_le h) fun _ => .refl _
  | invoke kind index => exact .bind (.mapError _ fun _ => ConstantPool.methodRef_of_le h) fun _ => .refl _
  | checkCast index | newRefArray index =>
    exact .bind (.mapError _ fun _ => ConstantPool.className_of_le h) fun _ => .refl _
  | _ => exact .refl _

variable {insn : Insn} {locals : Locals M} {stack : List M.Slot} {world : World M}

theorem act_of_le (h : p ≤ q) (hne : insn.act p locals stack world ≠ .stuck) :
    insn.act q locals stack world = insn.act p locals stack world := by
  unfold act at hne ⊢
  cases ha : insn.action p with
  | error problem =>
    rw [ha] at hne
    exact absurd rfl hne
  | ok action =>
    cases he : insn.stackEffect p with
    | error problem =>
      rw [ha, he] at hne
      exact absurd rfl hne
    | ok effect => rw [insn.refines_action h _ ha, insn.refines_stackEffect h _ he]

/-- What an instruction does needs no constants, or an action, or is to load a constant. -/
theorem run_cases (insn : Insn) (locals : Locals M) (stack : List M.Slot) (world : World M) :
    (∃ move, ∀ pool, insn.run pool locals stack world = move) ∨
      (∀ pool, insn.run pool locals stack world = insn.act pool locals stack world) ∨
        ∃ index, insn = .loadConstant index := by
  cases insn with
  | loadConstant index => exact .inr (.inr ⟨index, rfl⟩)
  | nop | constNull | constInt _ | pushByte _ | pushShort _ | load _ _ | store _ _ | stack _
  | increment _ _ => exact .inl ⟨_, fun _ => rfl⟩
  | bitwise op ofLong =>
    cases ofLong with
    | false => exact .inl ⟨_, fun _ => rfl⟩
    | true => exact .inr (.inl fun _ => rfl)
  | _ => exact .inr (.inl fun _ => rfl)

/-- An instruction that makes sense does the same with more constants. -/
theorem run_of_le (h : p ≤ q) (hne : insn.run p locals stack world ≠ .stuck) :
    insn.run q locals stack world = insn.run p locals stack world := by
  rcases insn.run_cases locals stack world with ⟨move, hmove⟩ | hact | ⟨index, rfl⟩
  · rw [hmove, hmove]
  · rw [hact] at hne
    rw [hact, hact]
    exact act_of_le h hne
  · rw [run] at hne ⊢
    cases hp : p.get index with
    | error problem =>
      -- Without the constant there is no action.
      have hnone : (loadConstant index).action p = .error (.pool problem) := by
        unfold action
        dsimp only
        rw [hp]
        rfl
      rw [hp, act, hnone] at hne
      exact absurd rfl hne
    | ok constant =>
      rw [hp] at hne
      rw [run, hp, ConstantPool.get_of_le h hp]
      cases constant with
      | integer value => rfl
      | _ => exact act_of_le h hne

end Insn

namespace Program

variable {program : Program}

/-- Further constants for the code. -/
theorem step_of_le {nodes : List Node} {handlers : List Handler} {p q : ConstantPool} (h : p ≤ q) {s : State M}
    (hne : (Program.mk nodes handlers p).step s ≠ .stuck) :
    (Program.mk nodes handlers q).step s = (Program.mk nodes handlers p).step s := by
  have hmove : (Program.mk nodes handlers q).move s = (Program.mk nodes handlers p).move s := by
    have hmove : (Program.mk nodes handlers p).move s ≠ .stuck := fun hstuck => hne (by rw [step, hstuck])
    unfold move at hmove ⊢
    dsimp only at hmove ⊢
    cases hn : nodes[s.position]? with
    | none => rfl
    | some node =>
      rw [hn] at hmove
      cases node with
      | label label => rfl
      | insn insn => exact Insn.run_of_le h hmove
      | branch branch => rfl
  unfold step
  rw [hmove]
  rfl

/-- Control stays among the nodes. -/
def StaysInside (program : Program) (s : State M) : Prop :=
  ∀ steps t, program.after steps s = .running t → t.position < program.nodes.length

/-- The program with further nodes behind, and a handler after its own. -/
def followedBy (program : Program) (nodes : List Node) (handler : Handler) : Program :=
  ⟨program.nodes ++ nodes, program.handlers ++ [handler], program.pool⟩

variable {nodes : List Node} {handler : Handler}

theorem position?_followedBy {label : Label} (h : .label label ∉ nodes) :
    (program.followedBy nodes handler).position? label = program.position? label := by
  unfold position? followedBy
  have hnone : nodes.findIdx? (fun node => decide (node = .label label)) = none := by
    apply List.findIdx?_eq_none_iff.2
    intro node hm
    exact decide_eq_false fun he => h (he ▸ hm)
  rw [List.findIdx?_append, hnone, Option.map_none, Option.or_none]

section Lockstep

variable (fresh : ∀ label, program.Names label → .label label ∉ nodes)
include fresh

theorem covers_followedBy {old : Handler} (hm : old ∈ program.handlers) (position : Nat) :
    (program.followedBy nodes handler).covers old position = program.covers old position := by
  have hstart : .label old.start ∉ nodes := fresh _ (.inr ⟨old, hm, .inl rfl⟩)
  have hstop : .label old.stop ∉ nodes := fresh _ (.inr ⟨old, hm, .inr (.inl rfl)⟩)
  unfold covers
  rw [position?_followedBy hstart, position?_followedBy hstop]

/-- The handler is asked after those of the program. -/
theorem handlerFor?_followedBy (position : Nat) (exception : M.Slot) (world : World M) :
    (program.followedBy nodes handler).handlerFor? position exception world =
      (program.handlerFor? position exception world).or
        (if (program.followedBy nodes handler).covers handler position &&
          M.catches handler.catchType exception world then some handler else none) := by
  have hsame : program.handlers.find? (fun old =>
      (program.followedBy nodes handler).covers old position && M.catches old.catchType exception world) =
        program.handlerFor? position exception world := by
    unfold handlerFor?
    rw [← List.head?_filter, ← List.head?_filter]
    apply congrArg List.head?
    apply List.filter_congr
    intro old hm
    rw [covers_followedBy fresh hm]
  unfold handlerFor? at hsame ⊢
  rw [show (program.followedBy nodes handler).handlers = program.handlers ++ [handler] from rfl,
    List.find?_append, hsame, List.find?_singleton]

/-- Nothing behind the program is covered by its own handlers. -/
theorem not_covers_followedBy {old : Handler} (hm : old ∈ program.handlers) {position : Nat}
    (hle : program.nodes.length ≤ position) :
    (program.followedBy nodes handler).covers old position = false := by
  rw [covers_followedBy fresh hm]
  unfold covers
  split
  · next start stop _ hstop =>
    have hlt := (List.findIdx?_eq_some_iff_findIdx_eq.1 hstop).1
    have hnot : ¬position < stop := by omega
    rw [decide_eq_false hnot, Bool.and_false]
  · rfl

variable {target : Nat} (placed : (program.followedBy nodes handler).position? handler.handler = some target)
include placed

/-- Where the handler covers all that can throw, a step is as before unless something escapes. -/
theorem step_followedBy {s : State M} (inside : s.position < program.nodes.length)
    (covered : (∃ label, program.nodes[s.position]? = some (.label label)) ∨
      (program.followedBy nodes handler).covers handler s.position = true) :
    (program.followedBy nodes handler).step s =
      (program.step s).rescued handler.catchType target s.locals := by
  have hmove : (program.followedBy nodes handler).move s = program.move s := by
    unfold move followedBy
    dsimp only
    rw [List.getElem?_append_left inside]
  unfold step
  rw [hmove]
  cases hm : program.move s with
  | next locals stack world => rfl
  | jump label stack =>
    dsimp only
    have hfresh : .label label ∉ nodes := fresh label (.inl (names_of_jump hm))
    rw [position?_followedBy hfresh]
    cases program.position? label <;> rfl
  | returned values => rfl
  | thrown exception world =>
    dsimp only
    rw [handlerFor?_followedBy fresh]
    cases hfound : program.handlerFor? s.position exception world with
    | some old =>
      have hmem := List.mem_of_find?_eq_some hfound
      have hfresh : .label old.handler ∉ nodes := fresh _ (.inr ⟨old, hmem, .inr (.inr rfl)⟩)
      rw [Option.some_or]
      dsimp only
      rw [position?_followedBy hfresh]
      cases program.position? old.handler <;> rfl
    | none =>
      have hcovers : (program.followedBy nodes handler).covers handler s.position = true := by
        rcases covered with ⟨label, hlabel⟩ | hcovers
        · unfold move at hm
          rw [hlabel] at hm
          cases hm
        · exact hcovers
      rw [Option.none_or, hcovers, Bool.true_and]
      by_cases hcatches : M.catches handler.catchType exception world = true
      · rw [if_pos hcatches]
        dsimp only
        rw [placed]
        exact (Outcome.rescued_of_catches hcatches).symm
      · rw [if_neg hcatches]
        exact (Outcome.rescued_of_not_catches (Bool.not_eq_true _ ▸ hcatches)).symm
  | stuck => rfl

end Lockstep

section Rescued

variable {around : Program} {count target : Nat} {catchType : Option String} {s : State M}
  (steps : ∀ t : State M, t.position < program.nodes.length → program.step t ≠ .stuck →
  around.step (t.behind count) = ((program.step t).behind count).rescued catchType target t.locals)
include steps

/-- Code around which a handler is put goes as far as nothing that is caught escapes from it. -/
theorem after_of_uncaught (inside : program.StaysInside s) {n : Nat} (hne : program.after n s ≠ .stuck)
    (uncaught : ∀ exception world, program.after n s = .escaped exception world →
      M.catches catchType exception world = false) :
    around.after n (s.behind count) = (program.after n s).behind count := by
  induction n generalizing s with
  | zero => rfl
  | succ n ih =>
    have hlt : s.position < program.nodes.length := inside 0 s rfl
    rw [after] at hne uncaught ⊢
    rw [after]
    cases hstep : program.step s with
    | stuck =>
      rw [hstep] at hne
      exact absurd rfl hne
    | running next =>
      rw [steps s hlt (by simp [hstep]), hstep]
      rw [hstep] at hne uncaught
      have inside' : program.StaysInside next := fun m t hm =>
        inside (m + 1) t ((after_succ hstep m).trans hm)
      exact ih inside' hne uncaught
    | returned values world =>
      rw [steps s hlt (by simp [hstep]), hstep]
      rfl
    | escaped exception world =>
      rw [hstep] at uncaught
      have hfalse := uncaught exception world rfl
      have hsame : around.step (s.behind count) = .escaped exception world := by
        rw [steps s hlt (by simp [hstep]), hstep]
        exact Outcome.rescued_of_not_catches hfalse
      rw [hsame]
      rfl

/-- What escapes and is caught gets to the handler. -/
theorem reaches_of_caught (inside : program.StaysInside s) {n : Nat} {exception : M.Slot} {world : World M}
    (h : program.after n s = .escaped exception world) (caught : M.catches catchType exception world = true) :
    ∃ locals, around.Reaches (s.behind count) ⟨target, locals, [exception], world⟩ := by
  induction n generalizing s with
  | zero => cases h
  | succ n ih =>
    have hlt : s.position < program.nodes.length := inside 0 s rfl
    rw [after] at h
    cases hstep : program.step s with
    | stuck =>
      rw [hstep] at h
      cases h
    | returned values world' =>
      rw [hstep] at h
      cases h
    | running next =>
      rw [hstep] at h
      have inside' : program.StaysInside next := fun m t hm =>
        inside (m + 1) t ((after_succ hstep m).trans hm)
      obtain ⟨locals, hreaches⟩ := ih inside' h
      refine ⟨locals, .trans (.step ?_) hreaches⟩
      rw [steps s hlt (by simp [hstep]), hstep]
      rfl
    | escaped exception' world' =>
      rw [hstep] at h
      cases h
      refine ⟨s.locals, .step ?_⟩
      rw [steps s hlt (by simp [hstep]), hstep]
      exact Outcome.rescued_of_catches caught

end Rescued

/-- The program with labels in front, and behind it further nodes and a handler for what its own do not
catch. -/
def enclosed (program : Program) (lead tail : List Node) (handler : Handler) : Program :=
  (program.inFront lead []).followedBy tail handler

/-- The labels in front and behind are new, and the handler, which is at the nodes behind, covers all that
can throw. -/
structure Encloses (program : Program) (lead tail : List Node) (handler : Handler) : Prop where
  quiet : ∀ node ∈ lead, ∃ label, node = .label label
  freshLead : ∀ label, program.Names label → .label label ∉ lead
  freshTail : ∀ label, program.Names label → .label label ∉ tail
  stop : handler.stop = handler.handler
  first : tail.head? = some (.label handler.handler)
  new : .label handler.handler ∉ lead ++ program.nodes
  starts : ∃ position, (lead ++ program.nodes).findIdx? (· = .label handler.start) = some position ∧
    ∀ p, lead.length + p < position → ∃ label, program.nodes[p]? = some (.label label)

namespace Encloses

variable {lead tail : List Node}

theorem position?_enclosed {label : Label} (hlead : .label label ∉ lead) (htail : .label label ∉ tail) :
    (program.enclosed lead tail handler).position? label =
      (program.position? label).map (lead.length + ·) := by
  rw [enclosed, position?_followedBy htail, position?_inFront hlead]

variable (h : program.Encloses lead tail handler)
include h

theorem names_of_inFront {label : Label} (hn : (program.inFront lead []).Names label) : program.Names label := by
  rcases hn with ⟨branch, hm, ht⟩ | hhandler
  · left
    refine ⟨branch, (List.mem_append.1 hm).resolve_left fun hm => ?_, ht⟩
    obtain ⟨label, he⟩ := h.quiet _ hm
    cases he
  · exact .inr hhandler

theorem fresh_inFront {label : Label} (hn : (program.inFront lead []).Names label) : .label label ∉ tail :=
  h.freshTail label (h.names_of_inFront hn)

theorem position?_handler :
    (program.enclosed lead tail handler).position? handler.handler =
      some (lead.length + program.nodes.length) := by
  obtain ⟨rest, hrest⟩ := List.head?_eq_some_iff.1 h.first
  have hnone : (lead ++ program.nodes).findIdx? (fun node => decide (node = .label handler.handler)) = none := by
    apply List.findIdx?_eq_none_iff.2
    intro node hm
    exact decide_eq_false fun he => h.new (he ▸ hm)
  unfold position? enclosed followedBy inFront
  dsimp only
  rw [hrest, List.findIdx?_append, hnone, Option.none_or, List.findIdx?_cons, decide_eq_true rfl, if_pos rfl,
    Option.map_some, List.length_append, Nat.zero_add]

/-- What is not a label is covered. -/
theorem covers_of_lt {p : Nat} (hlt : p < program.nodes.length) :
    (∃ label, program.nodes[p]? = some (.label label)) ∨
      (program.enclosed lead tail handler).covers handler (lead.length + p) = true := by
  obtain ⟨position, hposition, hlabels⟩ := h.starts
  have hstart : (program.enclosed lead tail handler).position? handler.start = some position := by
    unfold position? enclosed followedBy inFront
    dsimp only
    rw [List.findIdx?_append, hposition]
    rfl
  by_cases hle : position ≤ lead.length + p
  · right
    unfold covers
    rw [hstart, h.stop, h.position?_handler]
    have hinside : lead.length + p < lead.length + program.nodes.length := by omega
    exact Bool.and_eq_true_iff.2 ⟨decide_eq_true hle, decide_eq_true hinside⟩
  · left
    exact hlabels p (by omega)

/-- A step goes as it does in the program alone, unless something escapes. -/
theorem step_enclosed {s : State M} (hlt : s.position < program.nodes.length) :
    (program.enclosed lead tail handler).step (s.behind lead.length) =
      ((program.step s).behind lead.length).rescued handler.catchType (lead.length + program.nodes.length)
        s.locals := by
  have apart : ∀ other ∈ ([] : List Handler), ∀ position,
      (program.inFront lead []).covers other (lead.length + position) = false := List.forall_mem_nil _
  have inside : (s.behind lead.length).position < (program.inFront lead []).nodes.length := by
    change lead.length + s.position < (lead ++ program.nodes).length
    rw [List.length_append]
    omega
  have covered : (∃ label, (program.inFront lead []).nodes[(s.behind lead.length).position]? =
      some (.label label)) ∨
        (program.enclosed lead tail handler).covers handler (s.behind lead.length).position = true := by
    have hget : (lead ++ program.nodes)[lead.length + s.position]? = program.nodes[s.position]? := by
      rw [List.getElem?_append_right (Nat.le_add_right _ _), Nat.add_sub_cancel_left]
    change (∃ label, (lead ++ program.nodes)[lead.length + s.position]? = _) ∨ _
    rw [hget]
    exact h.covers_of_lt hlt
  have hstep := step_followedBy (fun label hn => h.fresh_inFront hn) h.position?_handler inside covered
  rw [step_behind h.freshLead apart] at hstep
  exact hstep

theorem reaches_lead (locals : Locals M) (stack : List M.Slot) (world : World M) :
    (program.enclosed lead tail handler).Reaches ⟨0, locals, stack, world⟩
      ⟨lead.length, locals, stack, world⟩ := by
  have all : ∀ n ≤ lead.length, (program.enclosed lead tail handler).Reaches ⟨0, locals, stack, world⟩
      ⟨n, locals, stack, world⟩ := by
    intro n hn
    induction n with
    | zero => exact .refl _
    | succ n ih =>
      obtain ⟨label, hlabel⟩ := h.quiet _ (List.getElem_mem hn)
      refine (ih (by omega)).trans (.next ?_)
      have hnode : (program.enclosed lead tail handler).nodes[n]? = some (.label label) := by
        change ((lead ++ program.nodes) ++ tail)[n]? = _
        rw [List.append_assoc, List.getElem?_append_left hn, List.getElem?_eq_getElem hn, hlabel]
      rw [move, hnode]
  exact all lead.length le_rfl

/-- What is thrown behind the program is not caught. -/
theorem not_covers_enclosed {other : Handler} (hm : other ∈ (program.enclosed lead tail handler).handlers)
    {position : Nat} (hle : lead.length + program.nodes.length ≤ position) :
    (program.enclosed lead tail handler).covers other position = false := by
  rcases List.mem_append.1 hm with hm | hm
  · have hlength : (program.inFront lead []).nodes.length ≤ position := by
      change (lead ++ program.nodes).length ≤ position
      rwa [List.length_append]
    exact not_covers_followedBy (fun label hn => h.fresh_inFront hn) hm hlength
  · rw [List.mem_singleton.1 hm]
    unfold covers
    rw [h.stop, h.position?_handler]
    split
    · next start stop _ hstop =>
      cases hstop
      rw [decide_eq_false (Nat.not_lt_of_le hle), Bool.and_false]
    · rfl

end Encloses

end Program

end ClassWeave
