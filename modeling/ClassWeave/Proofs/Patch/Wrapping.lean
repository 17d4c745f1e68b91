import ClassWeave.Proofs.Code.Labelling
import ClassWeave.Proofs.Machine.Following
import ClassWeave.Proofs.Patch.Rescuing

/-!
A body with a handler around it. It executes the nodes of the old body as that does, and what escapes from
there goes to the handler if the guard catches it. The handler does what it is for, and nothing that is
thrown there is caught.
-/

namespace ClassWeave

variable {M : Machine}

namespace Program

/-- The program ends as an evaluation does: it returns the values, or what is thrown escapes. -/
def EndsAs (program : Program) (s : State M) : EStateM.Result (Fault M) (World M) (List M.Slot) → Prop
  | .ok values world => ∃ steps, program.after steps s = .returned values world
  | .error (.thrown exception) world => ∃ steps, program.after steps s = .escaped exception world
  | .error .stuck _ => False

variable {program : Program} {s : State M}

/-- A program without handlers ends as the evaluation does that its code yields up to a return. -/
theorem endsAs_of_yields {result : EStateM.Result (Fault M) (World M) (List M.Slot)} {locals : Locals M}
    {first last : Nat} {goal : List M.Slot → Nat → List M.Slot → Prop}
    (h : program.Yields locals first last s result goal) (bare : program.handlers = [])
    (returns : ∀ values position stack world, goal values position stack →
      program.move ⟨position, locals, stack, world⟩ = .returned values) :
    program.EndsAs s result := by
  cases result with
  | ok values world =>
    obtain ⟨position, stack, ⟨n, hn⟩, hgoal⟩ := h
    refine ⟨n + 1, (after_add hn 1).trans (after_one.trans ?_)⟩
    rw [step, returns values position stack world hgoal]
  | error fault world =>
    cases fault with
    | stuck => exact h
    | thrown exception =>
      obtain ⟨position, stack, before, -, -, ⟨n, hn⟩, hmove⟩ := h
      refine ⟨n + 1, (after_add hn 1).trans (after_one.trans ?_)⟩
      rw [step, hmove]
      dsimp only
      rw [handlerFor?, bare]
      rfl

theorem EndsAs.behind {nodes : List Node} {handlers : List Handler}
    {result : EStateM.Result (Fault M) (World M) (List M.Slot)} (h : program.EndsAs s result)
    (fresh : ∀ label, program.Names label → .label label ∉ nodes)
    (apart : ∀ handler ∈ handlers, ∀ position,
      (program.inFront nodes handlers).covers handler (nodes.length + position) = false) :
    (program.inFront nodes handlers).EndsAs (s.behind nodes.length) result := by
  cases result with
  | ok values world =>
    obtain ⟨n, hn⟩ := h
    exact ⟨n, (after_behind fresh apart n s).trans (congrArg (Outcome.behind _) hn)⟩
  | error fault world =>
    cases fault with
    | stuck => exact h
    | thrown exception =>
      obtain ⟨n, hn⟩ := h
      exact ⟨n, (after_behind fresh apart n s).trans (congrArg (Outcome.behind _) hn)⟩

end Program

namespace MethodBody

/-- The label right before the first instruction is there already, or is new and comes first. -/
theorem labelAt_firstInstruction (body : MethodBody) (some : body.instructionCount ≠ 0) :
    ∃ start lead supply, body.labelAt body.firstInstruction =
        (start, { body with nodes := lead ++ body.nodes, labels := supply }) ∧
      body.labels.allocated ≤ supply.allocated ∧
      (∀ node ∈ lead, ∃ label : Label, node = .label label ∧ body.labels.allocated ≤ label.number ∧
        label.number < supply.allocated) ∧
      ∃ position, (lead ++ body.nodes).findIdx? (· = .label start) = .some position ∧
        ∀ p, lead.length + p < position → ∃ label, body.nodes[p]? = .some (.label label) := by
  have hlt : body.firstInstruction < body.nodes.length := by
    obtain ⟨node, hm, hplain⟩ := List.countP_pos_iff.1 (Nat.pos_of_ne_zero some)
    exact List.findIdx_lt_length_of_exists ⟨node, hm, hplain⟩
  have leading : ∀ p < body.firstInstruction, ∃ label, body.nodes[p]? = .some (.label label) := by
    intro p hp
    have hin : p < body.nodes.length := hp.trans hlt
    have hnot := List.not_of_lt_findIdx hp
    rw [List.getElem?_eq_getElem hin]
    cases hnode : body.nodes[p] with
    | label label => exact ⟨label, rfl⟩
    | insn insn =>
      rw [hnode] at hnot
      cases hnot
    | branch branch =>
      rw [hnode] at hnot
      cases hnot
  unfold labelAt
  cases hfirst : body.firstInstruction with
  | zero =>
    refine ⟨⟨body.labels.allocated⟩, [.label ⟨body.labels.allocated⟩], ⟨body.labels.allocated + 1⟩, rfl,
      Nat.le_succ _, ?_, 0, ?_, nofun⟩
    · intro node hm
      exact ⟨_, List.mem_singleton.1 hm, le_rfl, Nat.lt_succ_self _⟩
    · rw [List.singleton_append, List.findIdx?_cons, decide_eq_true rfl]
      rfl
  | succ n =>
    have hn : n < body.firstInstruction := hfirst ▸ Nat.lt_succ_self n
    obtain ⟨label, hlabel⟩ := leading n hn
    have hbefore : (if n + 1 = 0 then none else body.nodes[n + 1 - 1]?) = .some (.label label) := by
      rw [if_neg (Nat.succ_ne_zero n), Nat.add_sub_cancel, hlabel]
    refine ⟨label, [], body.labels, ?_, le_rfl, List.forall_mem_nil _, ?_⟩
    · rw [hbefore]
      rfl
    · have hmem : ∃ node ∈ body.nodes, decide (node = .label label) = true :=
        ⟨_, List.mem_of_getElem? hlabel, decide_eq_true rfl⟩
      obtain ⟨position, hposition⟩ := Option.isSome_iff_exists.1
        (List.findIdx?_isSome.trans (List.any_eq_true.2 hmem))
      have hle : position ≤ n := by
        by_contra hgt
        have hfound := List.findIdx?_eq_some_iff_getElem.1 hposition
        obtain ⟨hin, -, hnone⟩ := hfound
        have hne := hnone n (Nat.lt_of_not_le hgt)
        rw [List.getElem?_eq_getElem (by omega)] at hlabel
        rw [Option.some.inj hlabel, decide_eq_true rfl] at hne
        exact hne rfl
      refine ⟨position, hposition, fun p hp => leading p ?_⟩
      rw [List.length_nil, Nat.zero_add] at hp
      omega

end MethodBody

namespace WrapGuard

/-- How a body runs that has a handler around it, with nodes in front of the old ones and behind them. -/
structure Wraps (guard : WrapGuard) (old body : MethodBody) (pool pool' : ConstantPool)
    (lead tail : List Node) : Prop where
  nodes : body.nodes = lead ++ old.nodes ++ tail
  /-- Control falls into the old nodes. -/
  enters : ∀ {M : Machine} (locals : Locals M) (stack : List M.Slot) (world : World M),
    (body.program pool').Reaches ⟨0, locals, stack, world⟩ ⟨lead.length, locals, stack, world⟩
  /-- A step of the old code goes as it did, to the same target or handler, unless something escapes. -/
  steps : ∀ {M : Machine} (s : State M), s.position < old.nodes.length →
    (old.program pool).step s ≠ .stuck → (body.program pool').step (s.behind lead.length) =
      (((old.program pool).step s).behind lead.length).rescued guard.catchType
        (lead.length + old.nodes.length) s.locals
  goes : ∀ {M : Machine} (s : State M), (old.program pool).StaysInside s → ∀ n,
    (old.program pool).after n s ≠ .stuck → (∀ exception world,
      (old.program pool).after n s = .escaped exception world →
        M.catches guard.catchType exception world = false) →
    (body.program pool').after n (s.behind lead.length) =
      ((old.program pool).after n s).behind lead.length
  catches : ∀ {M : Machine} (s : State M), (old.program pool).StaysInside s → ∀ n exception world,
    (old.program pool).after n s = .escaped exception world →
      M.catches guard.catchType exception world = true → ∃ locals,
        (body.program pool').Reaches (s.behind lead.length)
          ⟨lead.length + old.nodes.length, locals, [exception], world⟩
  rescues : ∀ {M : Machine} (locals : Locals M) (exception : M.Slot) (world : World M),
    (body.program pool').EndsAs ⟨lead.length + old.nodes.length, locals, [exception], world⟩
      (guard.rescue old.shape.returnType [exception] world)
  value : (guard.fallback.literal old.shape.returnType).IsOf old.shape.returnType
  /-- What is thrown behind the old nodes is not caught. -/
  uncaught : ∀ handler ∈ body.handlers, ∀ position, lead.length + old.nodes.length ≤ position →
    (body.program pool').covers handler position = false
  labels : ∀ label, old.Mentions label →
    body.labelPosition? label = (old.labelPosition? label).map (lead.length + ·)
  frames : ∀ label, old.Mentions label → body.frames.find? label = old.frames.find? label
  lines : body.lines = old.lines
  locals : body.locals = old.locals
  localTypes : body.localTypes = old.localTypes

namespace Handles

variable {guard : WrapGuard} {labels : LabelSupply} {shape : MethodShape} {pool pool' : ConstantPool}
  {label : Label} {tail : Fragment} (h : guard.Handles labels shape pool pool' label tail)
include h

theorem endsAs (locals : Locals M) (exception : M.Slot) (world : World M) :
    (Program.mk tail.nodes [] pool').EndsAs ⟨0, locals, [exception], world⟩
      (guard.rescue shape.returnType [exception] world) := by
  apply Program.endsAs_of_yields (h.runs locals exception world) rfl
  rintro values position stack world ⟨hposition, rfl, hlength⟩
  obtain ⟨insns, hnodes⟩ := h.nodes
  have hlast : tail.nodes[position]? = some (.branch (.returnFor shape.returnType)) := by
    have hsplit : tail.nodes = (.label label :: insns.map .insn) ++ [.branch (.returnFor shape.returnType)] := hnodes
    rw [hsplit] at hposition ⊢
    rw [List.length_append, List.length_singleton] at hposition
    rw [Nat.succ.inj hposition, List.getElem?_concat_length]
  rw [Program.move, hlast]
  cases hreturn : shape.returnType with
  | none =>
    rw [hreturn] at hlength
    rw [List.length_eq_zero_iff.1 hlength]
    rfl
  | some type =>
    rw [hreturn] at hlength
    have hwidth : (SlotKind.ofFieldType type).width = stack.length := (Host.width_kindOf type).trans hlength.symm
    change Branch.run (.return (some (SlotKind.ofFieldType type))) locals stack world = _
    rw [Branch.run, hwidth, if_pos le_rfl, List.take_length]

/-- Behind other code it does the same, if that has no handler for it. -/
theorem endsAs_behind {nodes : List Node} {handlers : List Handler}
    (apart : ∀ handler ∈ handlers, ∀ position, ((Program.mk tail.nodes [] pool').inFront nodes handlers).covers
      handler (nodes.length + position) = false)
    (locals : Locals M) (exception : M.Slot) (world : World M) :
    ((Program.mk tail.nodes [] pool').inFront nodes handlers).EndsAs ⟨nodes.length, locals, [exception], world⟩
      (guard.rescue shape.returnType [exception] world) := by
  refine (h.endsAs locals exception world).behind (fun label hn => ?_) apart
  -- A return jumps nowhere.
  obtain ⟨insns, hnodes⟩ := h.nodes
  rcases hn with ⟨branch, hm, ht⟩ | ⟨handler, hm, -⟩
  · have hreturn : branch = .returnFor shape.returnType := by
      have hm : .branch branch ∈ tail.nodes := hm
      rw [hnodes] at hm
      simpa using hm
    rw [hreturn] at ht
    cases ht
  · cases hm

end Handles

theorem wraps_of_apply {guard : WrapGuard} {code : Code} {pool₀ pool pool' : ConstantPool}
    {shape : MethodShape} {old body : MethodBody} (decoded : MethodBody.decode code pool₀ shape = .ok old)
    (h : guard.apply (some old) pool = .ok (.patched body) pool') :
    ∃ lead tail, guard.Wraps old body pool pool' lead tail := by
  obtain ⟨before, hbefore, patches⟩ := patches_of_apply h
  cases hbefore
  obtain ⟨label, tail, labels, htail, hbody⟩ := patches.put
  obtain ⟨start, lead, supply, hstart, hle, hlead, hstarts⟩ := old.labelAt_firstInstruction patches.code
  rw [hstart] at htail
  have handles := handles_of_tail patches.fits htail
  unfold around at hbody
  rw [hstart] at hbody
  obtain ⟨insns, hnodes⟩ := handles.nodes
  have hlabel : label.number = supply.allocated := congrArg Label.number handles.fresh
  -- The labels of the old body have been handed out before the new ones.
  have newLead : ∀ other, old.Mentions other → .label other ∉ lead := by
    intro other hmentions hm
    obtain ⟨found, he, hge, -⟩ := hlead _ hm
    cases he
    exact absurd (MethodBody.lt_of_decode decoded hmentions) (Nat.not_lt_of_le hge)
  have hne : ∀ other, old.Mentions other → other ≠ label := by
    intro other hmentions he
    have hlt := MethodBody.lt_of_decode decoded hmentions
    rw [he] at hlt
    omega
  have newTail : ∀ other, old.Mentions other → .label other ∉ tail.nodes := by
    intro other hmentions hm
    rw [hnodes] at hm
    exact hne other hmentions (by simpa using hm)
  have notBefore : .label label ∉ lead ++ old.nodes := by
    intro hm
    rcases List.mem_append.1 hm with hm | hm
    · obtain ⟨found, he, -, hlt⟩ := hlead _ hm
      cases he
      omega
    · exact hne label (.node hm) rfl
  let handler : Handler := ⟨start, label, label, guard.catchType⟩
  have hprogram : body.program pool' = (old.program pool').enclosed lead tail.nodes handler := by
    rw [hbody]
    rfl
  have encloses : (old.program pool').Encloses lead tail.nodes handler :=
    { quiet := fun node hm => (hlead node hm).imp fun _ => And.left
      freshLead := fun other hnames => newLead other (MethodBody.mentions_of_names hnames)
      freshTail := fun other hnames => newTail other (MethodBody.mentions_of_names hnames)
      stop := rfl
      first := by rw [hnodes]; rfl
      new := notBefore
      starts := hstarts }
  have steps : ∀ {M : Machine} (s : State M), s.position < old.nodes.length →
      (old.program pool).step s ≠ .stuck → (body.program pool').step (s.behind lead.length) =
        (((old.program pool).step s).behind lead.length).rescued guard.catchType
          (lead.length + old.nodes.length) s.locals := by
    intro M s hlt hne
    have hsame : (old.program pool').step s = (old.program pool).step s := Program.step_of_le handles.pool hne
    rw [hprogram, encloses.step_enclosed hlt, hsame]
    rfl
  -- The code behind the body runs there as it does alone.
  have uncaught : ∀ other ∈ body.handlers, ∀ position, lead.length + old.nodes.length ≤ position →
      (body.program pool').covers other position = false := by
    intro other hm position hle
    rw [show body.handlers = (body.program pool').handlers from rfl, hprogram] at hm
    rw [hprogram]
    exact encloses.not_covers_enclosed hm hle
  have hbehind : (Program.mk tail.nodes [] pool').inFront (lead ++ old.nodes) body.handlers =
      body.program pool' := by
    rw [hbody]
    exact congrArg (Program.mk _ · _) (List.append_nil _)
  have rescues : ∀ {M : Machine} (locals : Locals M) (exception : M.Slot) (world : World M),
      (body.program pool').EndsAs ⟨lead.length + old.nodes.length, locals, [exception], world⟩
        (guard.rescue old.shape.returnType [exception] world) := by
    intro M locals exception world
    have apart : ∀ other ∈ body.handlers, ∀ position, ((Program.mk tail.nodes [] pool').inFront
        (lead ++ old.nodes) body.handlers).covers other ((lead ++ old.nodes).length + position) = false := by
      intro other hm position
      rw [hbehind]
      exact uncaught other hm _ (by rw [List.length_append]; omega)
    have ends := handles.endsAs_behind apart locals exception world
    rwa [hbehind, List.length_append] at ends
  exact ⟨lead, tail.nodes,
    { nodes := by rw [hbody]
      enters := fun locals stack world => hprogram ▸ encloses.reaches_lead locals stack world
      steps := steps
      goes := fun s inside n hne uncaught => Program.after_of_uncaught steps inside hne uncaught
      catches := fun s inside n exception world h caught => Program.reaches_of_caught steps inside h caught
      rescues := rescues
      value := Fallback.isOf_literal patches.fits
      uncaught := uncaught
      labels := fun other hmentions => by
        have hposition : ((old.program pool').enclosed lead tail.nodes handler).position? other =
            (old.labelPosition? other).map (lead.length + ·) :=
          Program.Encloses.position?_enclosed (newLead other hmentions) (newTail other hmentions)
        rwa [← hprogram] at hposition
      frames := fun other hmentions => by
        rw [hbody]
        exact FrameTable.find?_setAll (handles.frames other (hne other hmentions))
      lines := by rw [hbody]
      locals := by rw [hbody]
      localTypes := by rw [hbody] }⟩

/-- Throws what a null reference gives. -/
def raisingCode : Code := ⟨1, 0, [0x01, 0xBF], [], []⟩

def intShape : MethodShape := ⟨"a/B", true, false, ⟨[], some (.base .int)⟩⟩

def sevenGuard : WrapGuard := ⟨none, none, .int 7⟩

theorem wraps_raisingCode : ∃ old body pool', MethodBody.decode raisingCode .empty intShape = .ok old ∧
    sevenGuard.apply (some old) .empty = .ok (.patched body) pool' ∧
      ∃ lead tail, sevenGuard.Wraps old body .empty pool' lead tail := by
  have decoded : ∃ old, MethodBody.decode raisingCode .empty intShape = .ok old ∧
      (match sevenGuard.apply (some old) .empty with
        | .ok (.patched _) _ => true
        | _ => false) = true := by
    refine ⟨_, rfl, ?_⟩
    decide +kernel
  obtain ⟨old, hold, happly⟩ := decoded
  split at happly
  · next body pool' h => exact ⟨old, body, pool', hold, h, wraps_of_apply hold h⟩
  · cases happly

end WrapGuard

end ClassWeave
