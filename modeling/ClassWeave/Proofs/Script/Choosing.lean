import ClassWeave.Proofs.Script.Guarding
import ClassWeave.Proofs.Script.Refining

/-!
Guards in a row. Their conditions are evaluated one after another up to the first that holds, and then its
tail runs. The code of a guard whose condition fails gets to the guard behind it, and that of any other
leaves the method or goes on to where the guards resume.
-/

namespace ClassWeave

open Compiler Builder

variable {M : Machine}

namespace Guard

/-- Only the tail of the first guard is run whose condition holds. Names that a tail declares stay declared
behind it. -/
def execAll (shape : MethodShape) (fuel : Nat) : Scope → List Guard → Store M → World M → Ending M
  | _, [], store, world => .next store world
  | scope, first :: rest, store, world =>
    Ending.ofEval (first.condition.holds shape scope store) store world fun holds world =>
      if holds then Stmt.execAll shape fuel scope first.tail store world
      else execAll shape fuel (Stmt.namesAfterAll shape scope first.tail) rest store world

end Guard

namespace Builder

variable {B C : Builder} {label : Label} {frame : EditFrame} {filled : Set Nat} {u : Unit}

theorem fine_placeWith (known : label.number < B.labels.allocated) (hb : Fine B)
    (h : placeWith label frame B = .ok u C) : Fine C := by
  obtain ⟨ahead, -, rfl⟩ := placeWith_eq_ok h
  constructor
  case regions => exact fun _ => kept_append
  case bookkept =>
    have noted : Bookkept { (B.require label).setFrame label frame with frame := some frame } :=
      (hb.bookkept.note known frame).congr rfl rfl rfl rfl rfl
    refine noted.append _ _ ?_ (by simp)
    rintro other ⟨⟩
    refine ⟨(isPlaced_congr (require_nodes B label)).trans ahead, ?_⟩
    change label.number < (B.require label).labels.allocated
    rwa [require_labels]

/-- What has jumped to a label may be where it is put with a frame. -/
theorem arrives_of_placeWith (h : placeWith label frame B = .ok u C) (hl : B.Lands label filled) :
    C.Arrives [] filled := by
  obtain ⟨-, flows, rfl⟩ := placeWith_eq_ok h
  obtain ⟨jumped, hjumped, hsub⟩ := hl
  have hflows : jumped.isAssignableTo frame = true := by
    apply flows jumped
    rw [hjumped]
    exact List.mem_append_right _ (List.mem_singleton_self _)
  refine ⟨frame, frame.widths, append_frame _ _ _, rfl, ?_⟩
  exact (EditFrame.promises_of_isAssignableTo hflows).trans hsub

theorem nodes_placeWith (h : placeWith label frame B = .ok u C) :
    C.nodes = .label label :: B.nodes ∧ .label label ∉ B.nodes := by
  obtain ⟨ahead, -, rfl⟩ := placeWith_eq_ok h
  constructor
  · rw [append_nodes]
    exact congrArg _ (require_nodes B label)
  · intro hm
    rw [(isPlaced_iff _ _).2 hm] at ahead
    cases ahead

end Builder

namespace Host

variable {host : Host} {c c₁ c₂ c' : Compiler} {resume next label : Label} {steps : Nat} {s t : State M}

/-- Compiling goes on behind a label that is put with a frame. -/
theorem precedes_placeWith {frame : EditFrame} {B : Builder} {u : Unit}
    (h : placeWith label frame c.builder = .ok u B) : Precedes c { c with builder := B } := by
  have hnodes := (nodes_placeWith h).1
  obtain ⟨-, -, rfl⟩ := placeWith_eq_ok h
  have hhandlers : (append { (c.builder.require label).setFrame label frame with frame := some frame }
      (.label label) (some label)).handlers = c.builder.handlers := by
    rw [append_handlers]
    exact require_handlers _ _
  have hpool : (append { (c.builder.require label).setFrame label frame with frame := some frame }
      (.label label) (some label)).pool = c.builder.pool := by
    rw [append_pool]
    exact require_pool _ _
  have hshape : (append { (c.builder.require label).setFrame label frame with frame := some frame }
      (.label label) (some label)).shape = c.builder.shape := by
    rw [append_shape]
    exact require_shape _ _
  exact
    { nodes := hnodes ▸ List.suffix_cons _ _
      handlers := hhandlers ▸ List.suffix_refl _
      pool := hpool ▸ ConstantPool.le_refl _
      shape := hshape
      scope := List.suffix_refl _
      packed := fun packed => packed.congr rfl rfl hshape
      nextLocal := le_rfl
      fresh := fun number v hn hv => by
        rw [List.getElem?_eq_none (by rw [length_slots]; exact hn)] at hv
        cases hv
      inner := fun handler hm => .inl (hhandlers ▸ hm) }

/-- No handler covers code of the compiler but those that are registered there. -/
def Sole (host : Host) (c : Compiler) : Prop :=
  ∀ handler ∈ host.program.handlers, handler ∈ c.builder.handlers ∨
    ∀ position < c.position, host.program.covers handler position = false

theorem Sole.of_precedes (h : host.Sole c') (contains : host.Contains c') (hg : Precedes c c') :
    host.Sole c := by
  intro handler hm
  have hle : c.position ≤ c'.position := hg.nodes.length_le
  rcases h handler hm with hm | hnone
  · rcases hg.inner handler hm with hm | hnew
    · exact .inl hm
    · right
      intro position hlt
      by_contra hc
      have hge := (contains.of_precedes hg).le_of_covers hnew (Bool.not_eq_false _ ▸ hc)
      omega
  · exact .inr fun position hlt => hnone position (by omega)

/-- What is thrown where no handler that covers it catches it escapes. -/
theorem escapes_of_sole (sole : host.Sole c) {exception : M.Slot} {world : World M} (hlt : s.position < c.position)
    (hmove : host.program.move s = .thrown exception world)
    (uncaught : ∀ handler ∈ c.builder.handlers, host.program.covers handler s.position = true →
      M.catches handler.catchType exception world = false) :
    host.program.step s = .escaped exception world := by
  have hnone : host.program.handlerFor? s.position exception world = none := by
    apply List.find?_eq_none.2
    intro handler hm hcatches
    obtain ⟨hc, hcaught⟩ := Bool.and_eq_true_iff.1 hcatches
    rcases sole handler hm with hm | hout
    · rw [uncaught handler hm hc] at hcaught
      cases hcaught
    · rw [hout s.position hlt] at hc
      cases hc
  rw [Program.step, hmove]
  dsimp only
  rw [hnone]

/-- From a state on, the code of guards ends as they do: at a label, or out of the method, or not within a
number of steps. -/
def Passes (host : Host) (resume : Label) (steps : Nat) (s : State M) : Ending M → Prop
  | .next store world => ∃ locals position, host.program.position? resume = some position ∧
      host.program.Reaches s ⟨position, locals, [], world⟩ ∧ host.Matches store locals
  | .left values world => ∃ n, host.program.after n s = .returned values world
  | .thrown exception _ world => ∃ n, host.program.after n s = .escaped exception world
  | .running world => ∃ n t, steps ≤ n ∧ host.program.after n s = .running t ∧ t.world = world
  | .stuck => False

namespace Passes

theorem after {ending : Ending M} (hs : host.program.Reaches s t) (h : host.Passes resume steps t ending) :
    host.Passes resume steps s ending := by
  obtain ⟨m, hm⟩ := hs
  cases ending with
  | next store world =>
    obtain ⟨locals, position, hposition, hreaches, hmatches⟩ := h
    exact ⟨locals, position, hposition, .trans ⟨m, hm⟩ hreaches, hmatches⟩
  | left values world =>
    obtain ⟨n, hn⟩ := h
    exact ⟨m + n, (Program.after_add hm n).trans hn⟩
  | thrown exception store world =>
    obtain ⟨n, hn⟩ := h
    exact ⟨m + n, (Program.after_add hm n).trans hn⟩
  | running world =>
    obtain ⟨n, u, hle, hn, hworld⟩ := h
    exact ⟨m + n, u, by omega, (Program.after_add hm n).trans hn, hworld⟩
  | stuck => exact h

/-- Statements whose code goes on to the label pass. -/
theorem of_ends {ending : Ending M} (h : host.Ends c c' steps s ending) (sole : host.Sole c')
    (hnext : ∀ (store : Store M) (locals : Locals M) (world : World M), host.Matches store locals →
      c'.builder.Arrives [] locals.filled →
        host.Passes resume steps ⟨c'.position, locals, [], world⟩ (.next store world)) :
    host.Passes resume steps s ending := by
  cases ending with
  | next store world =>
    obtain ⟨locals, hreaches, hmatches, arrives⟩ := h
    exact (hnext store locals world hmatches arrives).after hreaches
  | left values world => exact h
  | thrown exception store world =>
    obtain ⟨t, ⟨n, hn⟩, raises⟩ := h
    have hescapes := escapes_of_sole sole raises.lt raises.move raises.uncaught
    exact ⟨n + 1, (Program.after_add hn 1).trans (Program.after_one.trans hescapes)⟩
  | running world => exact h
  | stuck => exact h

end Passes

section Guard

variable (M)

/-- The code of a guard, in front of the code for when its condition does not hold. -/
structure Chooses (host : Host) (c c' : Compiler) (guard : Guard) (next resume : Label) : Prop where
  goes : Goes c c'
  fine : Fine c'.builder
  names : c'.names = Stmt.namesAfterAll c.builder.shape c.names guard.tail
  runs : host.Contains c' → host.Sole c' → ∀ fuel (store : Store M) locals, host.Matches store locals →
    c.builder.Arrives [] locals.filled → ∀ world (otherwise : World M → Ending M),
      (∀ position world, host.Gets c' (some next) locals.filled position →
        host.Passes resume fuel ⟨position, locals, [], world⟩ (otherwise world)) →
      host.Passes resume fuel ⟨c.position, locals, [], world⟩
        (Ending.ofEval (guard.condition.holds c.builder.shape c.names store) store world fun holds world =>
          if holds then Stmt.execAll c.builder.shape fuel c.names guard.tail store world
          else otherwise world)

theorem chooses_guard (host : Host) {guard : Guard} {c₃ : Compiler} {u₁ u₂ u₃ : Unit} (fine : Fine c.builder)
    (packed : c.Packed) (hnext : next.number < c.builder.labels.allocated)
    (hresume : resume.number < c.builder.labels.allocated)
    (hcond : jumpUnless guard.condition next c = .ok u₁ c₁) (hblock : block guard.tail c₁ = .ok u₂ c₂)
    (hgoto : gotoIfReachable resume c₂ = .ok u₃ c₃) : Chooses M host c c₃ guard next resume := by
  have tests := tests_cond M host guard.condition fine hnext hcond
  have fine₁ := tests.stays.run.fine fine
  have follows := follows_block M host guard.tail fine₁ (tests.stays.packed packed) hblock
  have fine₂ := follows.goes.run.fine fine₁
  have hallocated := (tests.stays.run.trans follows.goes.run).allocated_le
  have jumps := stays_gotoIfReachable (hresume.trans_le hallocated) hgoto
  have behind : Goes c₁ c₃ := follows.goes.trans jumps.goes
  constructor
  case goes => exact tests.stays.goes.trans behind
  case fine => exact jumps.run.fine fine₂
  case names => rw [jumps.names, follows.names, tests.stays.names, tests.stays.run.shape_eq]
  case runs =>
    intro contains sole fuel store locals hmatches arrives world otherwise hotherwise
    have contains₂ := contains.of_goes jumps.goes
    have contains₁ := contains.of_goes behind
    have hrun := tests.runs contains₁ store locals hmatches arrives [] world
    unfold Ending.ofEval
    cases heval : guard.condition.holds c.builder.shape c.names store world with
    | error fault world' =>
      rw [heval] at hrun
      cases fault with
      | stuck => exact hrun
      | thrown exception =>
        obtain ⟨position, stack, before, hge, hlt, ⟨n, hn⟩, hmove⟩ := hrun
        have hle : c₁.position ≤ c₃.position := position_le behind.run
        have hescapes := escapes_of_sole (s := ⟨position, locals, stack, before⟩) sole
          (show position < c₃.position by omega) hmove fun handler hm hc => by
            rw [contains.uncaught fine tests.stays behind hm hge hlt] at hc
            cases hc
        exact ⟨n + 1, (Program.after_add hn 1).trans (Program.after_one.trans hescapes)⟩
    | ok holds world' =>
      rw [heval] at hrun
      obtain ⟨position, stack, hreaches, rfl, hgoal⟩ := hrun
      apply Passes.after hreaches
      cases holds with
      | false =>
        have hgets : host.Gets c₁ (some next) locals.filled position := hgoal
        exact hotherwise position world' (hgets.later (behind.run.later fine₁))
      | true =>
        obtain ⟨label?, hlabel, hgets⟩ := hgoal
        cases label? with
        | some l => exact absurd (hlabel l rfl) List.not_mem_nil
        | none =>
          obtain ⟨rfl, arrives₁⟩ := hgets
          have ends := follows.runs contains₂ fuel store locals hmatches arrives₁ world'
          rw [tests.stays.run.shape_eq, tests.stays.names] at ends
          apply Passes.of_ends ends (sole.of_precedes contains jumps.goes.toPrecedes)
          intro store' locals' world'' hmatches' arrives'
          obtain ⟨position, hreaches', hposition, -⟩ := reaches_goto contains hgoto arrives'
          exact ⟨locals', position, hposition, hreaches', hmatches'⟩

/-- The code of guards in a row. -/
structure ChoosesAll (host : Host) (c c' : Compiler) (guards : List ClassWeave.Guard) (resume : Label) :
    Prop where
  precedes : Precedes c c'
  runs : host.Contains c' → host.Sole c' → ∀ fuel (store : Store M) locals, host.Matches store locals →
    c.builder.Arrives [] locals.filled → ∀ world,
      host.Passes resume fuel ⟨c.position, locals, [], world⟩
        (Guard.execAll c.builder.shape fuel c.names guards store world)

/-- Where the condition of a guard does not hold, control gets to the guard behind it. -/
theorem choosesAll_chain (host : Host) {entry : EditFrame} :
    ∀ (guards : List ClassWeave.Guard) {c c' : Compiler} {u : Unit},
      guards ≠ [] → Fine c.builder → c.Packed → resume.number < c.builder.labels.allocated →
        PrologueGuard.chain entry resume guards c = .ok u c' → ChoosesAll M host c c' guards resume
  | [], c, c', u, hne, _, _, _, _ => absurd rfl hne
  | [guard], c, c', u, _, fine, packed, hresume, h => by
    obtain ⟨_, c₁, hcond, h⟩ := bind_eq_ok.1 h
    obtain ⟨_, c₂, hblock, hgoto⟩ := bind_eq_ok.1 h
    have chooses := chooses_guard M host fine packed hresume hresume hcond hblock hgoto
    constructor
    case precedes => exact chooses.goes.toPrecedes
    case runs =>
      intro contains sole fuel store locals hmatches arrives world
      apply chooses.runs contains sole fuel store locals hmatches arrives world
      rintro position world' ⟨hposition, -⟩
      exact ⟨locals, position, hposition, .refl _, hmatches⟩
  | guard :: second :: rest, c, c', u, _, fine, packed, hresume, h => by
    obtain ⟨next, c₁, hfresh, h⟩ := bind_eq_ok.1 h
    obtain ⟨_, c₂, hcond, h⟩ := bind_eq_ok.1 h
    obtain ⟨_, c₃, hblock, h⟩ := bind_eq_ok.1 h
    obtain ⟨_, c₄, hgoto, h⟩ := bind_eq_ok.1 h
    obtain ⟨stays, hnext, hframe, hposition⟩ := stays_fresh hfresh
    have fine₁ := stays.run.fine fine
    have hresume₁ := hresume.trans_le stays.run.allocated_le
    have chooses := chooses_guard M host fine₁ (stays.packed packed) hnext hresume₁ hcond hblock hgoto
    have front : Goes c c₄ := stays.goes.trans chooses.goes
    -- The guard behind is compiled only if its label is jumped to.
    rw [isJumpedTo_bind_eq_ok] at h
    split at h
    · obtain ⟨_, B, hB, h⟩ := lift_bind_eq_ok.1 h
      have hallocated := chooses.goes.run.allocated_le
      have behind := precedes_placeWith hB
      have fine₅ := fine_placeWith (hnext.trans_le hallocated) chooses.fine hB
      have hlabels : c₄.builder.labels.allocated ≤ B.labels.allocated := by
        obtain ⟨-, -, rfl⟩ := placeWith_eq_ok hB
        rw [append_labels]
        exact (congrArg LabelSupply.allocated (require_labels c₄.builder next)).ge
      have others := choosesAll_chain host (second :: rest) (List.cons_ne_nil _ _) fine₅
        (behind.packed (front.packed packed)) (hresume₁.trans_le (hallocated.trans hlabels)) h
      have all := behind.trans others.precedes
      constructor
      case precedes => exact front.toPrecedes.trans all
      case runs =>
        intro contains sole fuel store locals hmatches arrives world
        have contains₅ := contains.of_precedes others.precedes
        have contains₄ := contains₅.of_precedes behind
        have sole₄ := sole.of_precedes contains all
        have arrives₁ := arrives.of_eq hframe
        have hrun := chooses.runs contains₄ sole₄ fuel store locals hmatches arrives₁ world
        rw [stays.run.shape_eq, stays.names, hposition] at hrun
        apply hrun
        rintro position world' ⟨hplaced, lands⟩
        obtain ⟨hnodes, hnew⟩ := nodes_placeWith hB
        rw [contains₅.position?_label hnodes hnew] at hplaced
        cases hplaced
        apply Passes.after (contains₅.reaches_label hnodes)
        have hothers := others.runs contains sole fuel store locals hmatches (arrives_of_placeWith hB lands) world'
        have hshape : B.shape = c.builder.shape := behind.shape.trans front.run.shape_eq
        have hnames : ({ c₄ with builder := B } : Compiler).names =
            Stmt.namesAfterAll c.builder.shape c.names guard.tail := by
          rw [← stays.names, ← stays.run.shape_eq]
          exact chooses.names
        rw [hnames] at hothers
        change host.Passes resume fuel _ (Guard.execAll B.shape fuel _ _ store world') at hothers
        rwa [hshape] at hothers
    · next hnot =>
      obtain ⟨-, rfl⟩ := pure_eq_ok.1 h
      constructor
      case precedes => exact front.toPrecedes
      case runs =>
        intro contains sole fuel store locals hmatches arrives world
        have arrives₁ := arrives.of_eq hframe
        have hrun := chooses.runs contains sole fuel store locals hmatches arrives₁ world
        rw [stays.run.shape_eq, stays.names, hposition] at hrun
        apply hrun
        rintro position world' ⟨-, lands⟩
        exact absurd lands.isJumpedTo hnot

end Guard

end Host

end ClassWeave
