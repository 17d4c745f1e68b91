import ClassWeave.Proofs.Patch.Replaying
import Mathlib.Order.Bounds.Basic

/-!
The envelope that a replay observes is the least one. It exists exactly if the paths of the body agree on the
heights of the stack and keep to what an envelope can declare, and then its bounds are reached.
-/

namespace ClassWeave

namespace MethodBody

variable {body : MethodBody} {pool : ConstantPool}

/-- The stack has a height right before or behind a reachable node. It is empty at the start. -/
inductive Stands (body : MethodBody) (pool : ConstantPool) : (position height : Nat) → Prop where
  | start : Stands body pool 0 0
  | before {position height : Nat} {node : Node} (arrives : body.Arrives pool position height)
      (found : body.nodes[position]? = some node) : Stands body pool position height
  | after {position height : Nat} {before : Int} {node : Node} {effect : StackEffect}
      (arrives : body.Arrives pool position before) (found : body.nodes[position]? = some node)
      (resolved : node.effect pool = .ok effect) (balance : before - effect.pops + effect.pushes = height) :
      Stands body pool position height

/-- Local slots that the parameters take, or that a reachable access needs. -/
inductive Needs (body : MethodBody) (pool : ConstantPool) : (slots : Nat) → Prop where
  | parameters : Needs body pool body.shape.parameterSlots.toNat
  | access {position : Nat} {height : Int} {insn : Insn} {slot : UInt16} {width : Nat}
      (arrives : body.Arrives pool position height) (found : body.nodes[position]? = some (.insn insn))
      (access : insn.localAccess? = some (slot, width)) : Needs body pool (slot.toNat + width)

/-- Some envelope can be declared that covers the code which control reaches. -/
structure Observable (body : MethodBody) (pool : ConstantPool) : Prop where
  entered : ∀ handler ∈ body.handlers, .label handler.handler ∈ body.nodes
  within : ∀ position height node, body.Arrives pool position height →
    body.nodes[position]? = some node → ∃ effect, body.StaysWithin pool node height 65535 effect
  agree : ∀ position first second node, body.Arrives pool position first →
    body.Arrives pool position second → body.nodes[position]? = some node → first = second
  locals : ∀ slots, body.Needs pool slots → slots ≤ 65535

theorem Arrives.next {position next height : Nat} {node : Node} {effect : StackEffect}
    (arrives : body.Arrives pool position height) (found : body.nodes[position]? = some node)
    (resolved : node.effect pool = .ok effect) (enough : effect.pops ≤ height)
    (edge : body.Edge node position next) :
    body.Arrives pool next (height - effect.pops + effect.pushes : Nat) := by
  have h := Arrives.step arrives found resolved edge
  rwa [show (height : Int) - effect.pops + effect.pushes = (height - effect.pops + effect.pushes : Nat) by omega]
    at h

theorem Needs.slots {position : Nat} {height : Int} {node : Node} (arrives : body.Arrives pool position height)
    (found : body.nodes[position]? = some node) : node.slots = 0 ∨ body.Needs pool node.slots := by
  cases node with
  | label | branch => exact .inl rfl
  | insn insn =>
    cases haccess : insn.localAccess? with
    | none => exact .inl (Insn.slots_of_none haccess)
    | some access =>
      have hneeds : body.Needs pool (access.1.toNat + access.2) := .access arrives found haccess
      rw [← Insn.slots_of_access haccess] at hneeds
      exact .inr hneeds

end MethodBody

namespace Walk

variable {body : MethodBody} {pool : ConstantPool} {walk : Walk} {position height : Nat}

/-- Every height that the walk knows is the height of a path. -/
structure Sound (body : MethodBody) (pool : ConstantPool) (walk : Walk) : Prop where
  size : walk.heights.size = body.nodes.length
  arrives : ∀ position height : Nat, walk.heights[position]? = some (some height) →
    body.Arrives pool position height

theorem sound_start : Sound body pool (start body.nodes.length) where
  size := Array.size_replicate
  arrives position height h := by
    obtain ⟨visited, hnone⟩ := ((tracks_start body.nodes.length).known position).2 ⟨height, h⟩

/-- Paths that agree are never refused. -/
theorem Sound.reach (sound : walk.Sound body pool) (observable : body.Observable pool)
    (arrives : body.Arrives pool position height) :
    ∃ walk', walk.reach position height = .ok walk' ∧ walk'.Sound body pool := by
  unfold Walk.reach
  split
  · exact ⟨walk, rfl, sound⟩
  · next hfree =>
    refine ⟨_, rfl, Array.size_setIfInBounds.trans sound.size, fun p n hp => ?_⟩
    by_cases hsame : position = p
    · subst hsame
      obtain ⟨hlt, -⟩ := Array.getElem?_eq_some_iff.1 hfree
      rw [Array.getElem?_setIfInBounds_self_of_lt hlt] at hp
      cases hp
      exact arrives
    · rw [Array.getElem?_setIfInBounds_ne hsame] at hp
      exact sound.arrives p n hp
  · next first hfirst =>
    obtain ⟨hlt, -⟩ := Array.getElem?_eq_some_iff.1 hfirst
    have hagree := observable.agree position first height _ (sound.arrives position first hfirst) arrives
      (List.getElem?_eq_getElem (sound.size ▸ hlt))
    rw [if_pos (Int.ofNat_inj.1 hagree)]
    exact ⟨walk, rfl, sound⟩

theorem Sound.targets {α : Type} (label : α → Label) {targets : List α} (sound : walk.Sound body pool)
    (observable : body.Observable pool) (placed : ∀ target ∈ targets, .label (label target) ∈ body.nodes)
    (arrives : ∀ target ∈ targets, ∀ found : Nat, body.nodes[found]? = some (.label (label target)) →
      body.Arrives pool found height) :
    ∃ walk', targets.foldlM (fun walk target => do
      walk.reach (← Replay.position (labelPositions body.nodes) (label target)) height) walk = .ok walk' ∧
        walk'.Sound body pool := by
  induction targets generalizing walk with
  | nil => exact ⟨walk, rfl, sound⟩
  | cons target rest ih =>
    obtain ⟨hplaced, placed⟩ := List.forall_mem_cons.1 placed
    obtain ⟨harrives, arrives⟩ := List.forall_mem_cons.1 arrives
    obtain ⟨hfound, hsome⟩ := get?_labelPositions body.nodes (label target)
    obtain ⟨found, hget⟩ := Option.isSome_iff_exists.1 (hsome hplaced)
    obtain ⟨middle, hreach, hmiddle⟩ := sound.reach observable (harrives found (hfound found hget))
    obtain ⟨walk', hrest, hwalk'⟩ := ih hmiddle placed arrives
    refine ⟨walk', except_bind_eq_ok.2 ⟨middle, ?_, hrest⟩, hwalk'⟩
    exact except_bind_eq_ok.2 ⟨found, Replay.position_eq_ok.2 hget, hreach⟩

end Walk

namespace Replay

variable {body : MethodBody} {pool : ConstantPool} {replay : Replay}

theorem visit_eq_ok (observable : body.Observable pool) {walk : Walk} (sound : walk.Sound body pool) {node : Node}
    {position height : Nat} (arrives : body.Arrives pool position height)
    (hnode : body.nodes[position]? = some node) :
    ∃ after needed walk', visit pool (labelPositions body.nodes) walk node position height =
      .ok (after, needed, walk') ∧ walk'.Sound body pool := by
  obtain ⟨effect, stay⟩ := observable.within position height node arrives hnode
  have henough : effect.pops ≤ height := Int.ofNat_le.1 stay.enough
  have hnext (hfalls : node.fallsThrough = true) := arrives.next hnode stay.resolved henough (.next hfalls)
  have hpop : popSlots height effect.pops position = .ok (height - effect.pops) := if_pos henough
  cases node with
  | label label =>
    obtain ⟨walk', hreach, hsound⟩ := sound.reach observable (hnext rfl)
    cases stay.resolved
    exact ⟨height, 0, walk', except_bind_eq_ok.2 ⟨walk', hreach, rfl⟩, hsound⟩
  | insn insn =>
    obtain ⟨walk', hreach, hsound⟩ := sound.reach observable (hnext rfl)
    have shown : ∃ needed, visit pool (labelPositions body.nodes) walk (.insn insn) position height =
        .ok (height - effect.pops + effect.pushes, needed, walk') := by
      cases haccess : insn.localAccess? with
      | none =>
        refine ⟨0, except_bind_eq_ok.2 ⟨effect, lift_eq_ok.2 stay.resolved, except_bind_eq_ok.2 ⟨_, hpop, ?_⟩⟩⟩
        dsimp only
        rw [haccess]
        exact except_bind_eq_ok.2 ⟨0, rfl, except_bind_eq_ok.2 ⟨walk', hreach, rfl⟩⟩
      | some access =>
        have hslots : access.1.toNat + access.2 ≤ 65535 := observable.locals _ (.access arrives hnode haccess)
        refine ⟨UInt16.ofNat (access.1.toNat + access.2),
          except_bind_eq_ok.2 ⟨effect, lift_eq_ok.2 stay.resolved, except_bind_eq_ok.2 ⟨_, hpop, ?_⟩⟩⟩
        dsimp only
        rw [haccess]
        exact except_bind_eq_ok.2 ⟨_, if_pos hslots, except_bind_eq_ok.2 ⟨walk', hreach, rfl⟩⟩
    obtain ⟨needed, hvisit⟩ := shown
    exact ⟨_, needed, walk', hvisit, hsound⟩
  | branch branch =>
    cases stay.resolved
    obtain ⟨middle, htargets, hmiddle⟩ := sound.targets id observable stay.targets
      fun label hm found hfound => arrives.next hnode rfl henough (.jump hm hfound)
    by_cases hfalls : branch.fallsThrough = true
    · obtain ⟨walk', hreach, hsound⟩ := hmiddle.reach observable (hnext hfalls)
      refine ⟨height - branch.pops, 0, walk',
        except_bind_eq_ok.2 ⟨_, hpop, except_bind_eq_ok.2 ⟨middle, htargets, ?_⟩⟩, hsound⟩
      rw [if_pos hfalls]
      exact except_bind_eq_ok.2 ⟨walk', hreach, rfl⟩
    · refine ⟨height - branch.pops, 0, middle,
        except_bind_eq_ok.2 ⟨_, hpop, except_bind_eq_ok.2 ⟨middle, htargets, ?_⟩⟩, hmiddle⟩
      rw [if_neg hfalls]
      rfl

/-- What a replay has found is what some path shows. -/
structure Attains (body : MethodBody) (pool : ConstantPool) (replay : Replay) : Prop where
  sound : replay.walk.Sound body pool
  peak : body.Stands pool replay.peakAt replay.maxStack
  flat : replay.maxStack = 0 → replay.peakAt = 0
  locals : body.Needs pool replay.maxLocals.toNat
  parameters : body.shape.parameterSlots.toNat ≤ replay.maxLocals.toNat

theorem Attains.noted {walk : Walk} {node : Node} {position height : Nat} {needed : UInt16} {effect : StackEffect}
    (attains : Attains body pool replay) (sound : walk.Sound body pool)
    (arrives : body.Arrives pool position height) (hnode : body.nodes[position]? = some node)
    (resolved : node.effect pool = .ok effect) (enough : effect.pops ≤ height) (hneeded : needed.toNat = node.slots) :
    Attains body pool (noted replay walk position (max height (height - effect.pops + effect.pushes)) needed) := by
  obtain ⟨hwalk, new⟩ := noted_noted replay walk position (max height (height - effect.pops + effect.pushes)) needed
  have hstays := new.stays
  have hlocals := new.locals
  refine ⟨by rw [hwalk]; exact sound, ?_, fun hflat => ?_, ?_, ?_⟩
  · rcases new.attained with ⟨hmax, hat⟩ | ⟨hmax, hat⟩
    · rw [hmax, hat]
      exact attains.peak
    · rw [hmax, hat]
      rcases Nat.le_total height (height - effect.pops + effect.pushes) with hle | hle
      · rw [Nat.max_eq_right hle]
        exact .after arrives hnode resolved (by omega)
      · rw [Nat.max_eq_left hle]
        exact .before arrives hnode
  · have hzero := attains.flat (by omega)
    have hearlier := new.earlier (by omega)
    omega
  · rw [hlocals]
    rcases Nat.le_total needed.toNat replay.maxLocals.toNat with hle | hle
    · rw [Nat.max_eq_left hle]
      exact attains.locals
    · rw [Nat.max_eq_right hle, hneeded]
      rcases MethodBody.Needs.slots arrives hnode with hnone | hneeds
      · have hlocals := attains.locals
        rwa [show replay.maxLocals.toNat = node.slots by omega] at hlocals
      · exact hneeds
  · have hparameters := attains.parameters
    omega

/-- The replay of a body whose paths agree is never refused. -/
theorem run_eq_ok (observable : body.Observable pool) {fuel : Nat} {visited : List Nat}
    (kept : Keeps body pool replay visited) (attains : Attains body pool replay) :
    ∃ out, run pool (labelPositions body.nodes) body.nodes.toArray fuel replay = .ok out ∧
      Attains body pool out := by
  induction fuel generalizing replay visited with
  | zero => exact ⟨replay, rfl, attains⟩
  | succ fuel ih =>
    obtain ⟨⟨heights, waiting⟩, maxStack, peakAt, maxLocals⟩ := replay
    cases waiting with
    | nil => exact ⟨_, rfl, attains⟩
    | cons position waiting =>
      obtain ⟨node, height, hnode, hheight⟩ := kept.waits List.mem_cons_self
      have arrives := attains.sound.arrives position height hheight
      have sound : Walk.Sound body pool ⟨heights, waiting⟩ := ⟨attains.sound.size, attains.sound.arrives⟩
      obtain ⟨after, needed, walk, hvisit, sound⟩ := visit_eq_ok observable sound arrives hnode
      obtain ⟨-, hneeded, effect, shown⟩ := visited_of_visit hvisit
      obtain rfl := shown.balance
      have attains' := attains.noted sound arrives hnode shown.resolved shown.enough hneeded
      obtain ⟨out, hrun, hout⟩ := ih (kept.visit hnode hheight hvisit).1 attains'
      exact ⟨out, by rw [run_cons hnode hheight, hvisit]; exact hrun, hout⟩

/-- Where nothing waits, more fuel changes nothing. -/
theorem run_add {positions : NatMap Nat} {nodes : Array Node} {fuel : Nat}
    (h : ∀ out, run pool positions nodes fuel replay = .ok out → out.walk.waiting = []) (more : Nat) :
    run pool positions nodes (fuel + more) replay = run pool positions nodes fuel replay := by
  induction fuel generalizing replay with
  | zero =>
    have hwaiting := h replay rfl
    obtain ⟨⟨heights, waiting⟩, maxStack, peakAt, maxLocals⟩ := replay
    cases hwaiting
    cases more <;> rfl
  | succ fuel ih =>
    obtain ⟨⟨heights, waiting⟩, maxStack, peakAt, maxLocals⟩ := replay
    rw [Nat.succ_add]
    cases waiting with
    | nil => rfl
    | cons position waiting =>
      rw [run] at h
      rw [run, run]
      dsimp only at h ⊢
      cases hnode : nodes[position]? with
      | none =>
        rw [hnode] at h
        exact ih h
      | some node =>
        rw [hnode] at h
        dsimp only at h ⊢
        cases hvisit : visit pool positions ⟨heights, waiting⟩ node position ((heights[position]?.join).getD 0) with
        | error problem => rfl
        | ok shown =>
          rw [hvisit] at h
          dsimp only at h ⊢
          split at h
          · next hpeak =>
            rw [if_pos hpeak, if_pos hpeak]
            exact ih h
          · next hpeak =>
            rw [if_neg hpeak, if_neg hpeak]
            exact ih h

end Replay

namespace MethodBody

open Replay

variable {body : MethodBody} {pool : ConstantPool}

theorem entered_eq_ok (observable : body.Observable pool) :
    ∃ walk, body.entered = .ok walk ∧ walk.Sound body pool := by
  have start : (Walk.start body.nodes.length).Sound body pool := Walk.sound_start
  obtain ⟨first, hfirst, sound⟩ := start.reach observable .start
  obtain ⟨walk, hwalk, hsound⟩ := sound.targets Handler.handler observable observable.entered
    fun handler hm found hfound => .handler hm hfound
  exact ⟨walk, except_bind_eq_ok.2 ⟨first, hfirst, hwalk⟩, hsound⟩

/-- The replay of an observable body ends, and what it has found is what some path shows. -/
theorem attains_of_observable (observable : body.Observable pool) :
    ∃ walk replay, body.entered = .ok walk ∧
      run pool (labelPositions body.nodes) body.nodes.toArray body.nodes.length
        ⟨walk, 0, 0, body.shape.parameterSlots⟩ = .ok replay ∧ Attains body pool replay := by
  obtain ⟨walk, hwalk, sound⟩ := entered_eq_ok observable
  obtain ⟨kept, -, -⟩ := keeps_of_entered pool hwalk
  have attains : Attains body pool ⟨walk, 0, 0, body.shape.parameterSlots⟩ :=
    ⟨sound, .start, fun _ => rfl, .parameters, Nat.le_refl _⟩
  obtain ⟨replay, hrun, attains⟩ := @run_eq_ok _ _ _ observable body.nodes.length _ kept attains
  exact ⟨walk, replay, hwalk, hrun, attains⟩

theorem Stands.le (observable : body.Observable pool) {position height : Nat}
    (h : body.Stands pool position height) : height ≤ 65535 := by
  cases h with
  | start => exact Nat.zero_le _
  | before arrives found =>
    obtain ⟨effect, stay⟩ := observable.within _ _ _ arrives found
    exact Int.ofNat_le.1 stay.before
  | after arrives found resolved balance =>
    obtain ⟨effect, stay⟩ := observable.within _ _ _ arrives found
    cases Except.ok.inj (resolved.symm.trans stay.resolved)
    have hafter := stay.after
    omega

theorem observable_of_observe (unique : (body.nodes.filterMap Node.label?).Nodup) {observation : Observation}
    (h : body.observe pool = .ok observation) : body.Observable pool := by
  obtain ⟨walk, replay, hentered, hrun, hle, rfl⟩ := observe_eq_ok.1 h
  obtain ⟨-, -, hone⟩ := keeps_of_entered pool hentered
  refine ⟨fun handler hm => ?_, fun position height node arrives found => ?_,
    fun position first second node ha hb found => ?_, fun slots needs => ?_⟩
  · obtain ⟨found, hplaced, -⟩ := hone handler hm
    exact List.mem_of_getElem? hplaced
  · obtain ⟨n, effect, rfl, knows⟩ := knows_of_run unique hentered hrun arrives found
    exact ⟨effect, knows.staysWithin hle⟩
  · obtain ⟨n, _, rfl, hn⟩ := knows_of_run unique hentered hrun ha found
    obtain ⟨m, _, rfl, hm⟩ := knows_of_run unique hentered hrun hb found
    rw [Option.some.inj (Option.some.inj (hn.known.symm.trans hm.known))]
  · cases needs with
    | parameters => exact Nat.le_of_lt_succ body.shape.parameterSlots.toNat_lt
    | access arrives found haccess =>
      obtain ⟨n, effect, -, knows⟩ := knows_of_run unique hentered hrun arrives found
      have hslots : Insn.slots _ ≤ _ := knows.slots
      rw [Insn.slots_of_access haccess] at hslots
      exact Nat.le_trans hslots (Nat.le_of_lt_succ replay.maxLocals.toNat_lt)

/-- The peak is the greatest height, its position is the first where the stack has it, and the locals are the most
that are needed. -/
theorem bounds_of_run (unique : (body.nodes.filterMap Node.label?).Nodup) {walk : Walk} {replay : Replay}
    (hentered : body.entered = .ok walk)
    (hrun : run pool (labelPositions body.nodes) body.nodes.toArray body.nodes.length
      ⟨walk, 0, 0, body.shape.parameterSlots⟩ = .ok replay) (attains : Attains body pool replay) :
    IsGreatest {height | ∃ position, body.Stands pool position height} replay.maxStack ∧
      IsLeast {position | body.Stands pool position replay.maxStack} replay.peakAt ∧
      IsGreatest {slots | body.Needs pool slots} replay.maxLocals.toNat := by
  have peak : ∀ position height, body.Stands pool position height →
      height ≤ replay.maxStack ∧ (height = replay.maxStack → replay.peakAt ≤ position) := by
    intro position height stands
    cases stands with
    | start => exact ⟨Nat.zero_le _, fun hflat => (attains.flat hflat.symm).le⟩
    | before arrives found =>
      obtain ⟨n, effect, heq, knows⟩ := knows_of_run unique hentered hrun arrives found
      have hbefore := knows.before
      have hafter := knows.after
      exact ⟨by omega, fun hpeak => knows.first (by omega)⟩
    | after arrives found resolved balance =>
      obtain ⟨n, effect, rfl, knows⟩ := knows_of_run unique hentered hrun arrives found
      cases Except.ok.inj (resolved.symm.trans knows.resolved)
      have hbefore := knows.before
      have hafter := knows.after
      have henough := knows.enough
      exact ⟨by omega, fun hpeak => knows.first (by omega)⟩
  refine ⟨⟨⟨_, attains.peak⟩, ?_⟩, ⟨attains.peak, fun position stands => (peak position _ stands).2 rfl⟩,
    attains.locals, fun slots needs => ?_⟩
  · rintro height ⟨position, stands⟩
    exact (peak position height stands).1
  · cases needs with
    | parameters => exact attains.parameters
    | access arrives found haccess =>
      obtain ⟨n, effect, -, knows⟩ := knows_of_run unique hentered hrun arrives found
      have hslots : Insn.slots _ ≤ _ := knows.slots
      rwa [Insn.slots_of_access haccess] at hslots

/-- What a replay of the body has shown when it ends. -/
def Replays (body : MethodBody) (pool : ConstantPool) (replay : Replay) : Prop :=
  ∃ walk, body.entered = .ok walk ∧ Replay.run pool (labelPositions body.nodes) body.nodes.toArray body.nodes.length
    ⟨walk, 0, 0, body.shape.parameterSlots⟩ = .ok replay

/-- A replay gets to wherever some path gets. -/
theorem Replays.known {replay : Replay} (h : body.Replays pool replay)
    (unique : (body.nodes.filterMap Node.label?).Nodup) {position : Nat} {n : Int} {node : Node}
    (arrives : body.Arrives pool position n) (found : body.nodes[position]? = some node) :
    ∃ height, replay.walk.heights[position]? = some (some height) := by
  obtain ⟨walk, hentered, hrun⟩ := h
  obtain ⟨height, _, -, knows⟩ := knows_of_run unique hentered hrun arrives found
  exact ⟨height, knows.known⟩

/-- What a replay shows is the greatest height of the stack, and the most locals that are needed. -/
theorem bounds_of_observe (unique : (body.nodes.filterMap Node.label?).Nodup) {observation : Observation}
    (h : body.observe pool = .ok observation) : ∃ replay, body.Replays pool replay ∧
      IsGreatest {height | ∃ position, body.Stands pool position height} observation.envelope.maxStack.toNat ∧
      IsGreatest {slots | body.Needs pool slots} observation.envelope.maxLocals.toNat := by
  obtain ⟨walk, replay, hentered, hrun, hle, rfl⟩ := observe_eq_ok.1 h
  obtain ⟨_, _, hentered', hrun', attains⟩ := attains_of_observable (observable_of_observe unique h)
  cases Except.ok.inj (hentered.symm.trans hentered')
  cases Except.ok.inj (hrun.symm.trans hrun')
  obtain ⟨stack, -, locals⟩ := bounds_of_run unique hentered hrun attains
  rw [toNat_maxStack hle]
  exact ⟨replay, ⟨walk, hentered, hrun⟩, stack, locals⟩

/-- With as much fuel as there are nodes, or more, the replay comes to its end. -/
theorem run_ends {walk : Walk} (hentered : body.entered = .ok walk) {fuel : Nat}
    (hfuel : body.nodes.length ≤ fuel) :
    run pool (labelPositions body.nodes) body.nodes.toArray fuel ⟨walk, 0, 0, body.shape.parameterSlots⟩ =
        run pool (labelPositions body.nodes) body.nodes.toArray body.nodes.length
          ⟨walk, 0, 0, body.shape.parameterSlots⟩ ∧
      ∀ replay, run pool (labelPositions body.nodes) body.nodes.toArray fuel
        ⟨walk, 0, 0, body.shape.parameterSlots⟩ = .ok replay → replay.walk.waiting = [] := by
  obtain ⟨kept, -, -⟩ := keeps_of_entered pool hentered
  have ends : ∀ fuel, body.nodes.length ≤ fuel → ∀ replay, run pool (labelPositions body.nodes) body.nodes.toArray
      fuel ⟨walk, 0, 0, body.shape.parameterSlots⟩ = .ok replay → replay.walk.waiting = [] := by
    intro fuel hfuel replay hrun
    obtain ⟨all, -, hwaiting, -⟩ := keeps_of_run kept (by simpa using hfuel) hrun
    exact hwaiting
  obtain ⟨more, rfl⟩ := Nat.exists_eq_add_of_le hfuel
  exact ⟨run_add (ends _ (Nat.le_refl _)) more, ends _ hfuel⟩

/-- The replay ends for every body. If labels are placed once, it gives an envelope exactly if some envelope can
cover the reachable code, and then the least one, with the first position where the stack is highest. -/
theorem observes_least (body : MethodBody) (pool : ConstantPool) :
    (∀ walk, body.entered = .ok walk → ∀ fuel, body.nodes.length ≤ fuel →
      run pool (labelPositions body.nodes) body.nodes.toArray fuel ⟨walk, 0, 0, body.shape.parameterSlots⟩ =
          run pool (labelPositions body.nodes) body.nodes.toArray body.nodes.length
            ⟨walk, 0, 0, body.shape.parameterSlots⟩ ∧
        ∀ replay, run pool (labelPositions body.nodes) body.nodes.toArray fuel
          ⟨walk, 0, 0, body.shape.parameterSlots⟩ = .ok replay → replay.walk.waiting = []) ∧
    ((body.nodes.filterMap Node.label?).Nodup →
      ((∃ observation, body.observe pool = .ok observation) ↔ body.Observable pool) ∧
      ∀ observation, body.observe pool = .ok observation →
        IsGreatest {height | ∃ position, body.Stands pool position height} observation.envelope.maxStack.toNat ∧
          IsLeast {position | body.Stands pool position observation.envelope.maxStack.toNat} observation.peakAt ∧
          IsGreatest {slots | body.Needs pool slots} observation.envelope.maxLocals.toNat) := by
  refine ⟨fun walk hentered fuel hfuel => run_ends hentered hfuel, fun unique => ⟨⟨?_, fun observable => ?_⟩, ?_⟩⟩
  · rintro ⟨observation, h⟩
    exact observable_of_observe unique h
  · obtain ⟨walk, replay, hentered, hrun, attains⟩ := attains_of_observable observable
    exact ⟨_, observe_eq_ok.2 ⟨walk, replay, hentered, hrun, attains.peak.le observable, rfl⟩⟩
  · intro observation h
    obtain ⟨walk, replay, hentered, hrun, attains⟩ := attains_of_observable (observable_of_observe unique h)
    obtain ⟨walk', replay', hentered', hrun', hle, rfl⟩ := observe_eq_ok.1 h
    cases Except.ok.inj (hentered.symm.trans hentered')
    cases Except.ok.inj (hrun.symm.trans hrun')
    rw [toNat_maxStack hle]
    exact bounds_of_run unique hentered hrun attains

/-- A loop that pushes a long and drops it again, and a handler behind it that throws what it caught. -/
def pushingLoop : MethodBody where
  shape := ⟨"A", true, false, ⟨[.base .long], none⟩⟩
  envelope := ⟨2, 4⟩
  nodes := [.label ⟨0⟩, .insn (.load .long 0), .insn (.store .long 2), .branch (.goto ⟨0⟩), .label ⟨1⟩, .branch .raise]
  handlers := [⟨⟨0⟩, ⟨1⟩, ⟨1⟩, none⟩]
  frames := []
  lines := []
  locals := []
  localTypes := []
  labels := ⟨2⟩

theorem observes_least_pushingLoop :
    (pushingLoop.nodes.filterMap Node.label?).Nodup ∧
      pushingLoop.observe .empty = .ok ⟨⟨2, 4⟩, 1⟩ ∧ pushingLoop.Observable .empty ∧
      IsGreatest {height | ∃ position, pushingLoop.Stands .empty position height} 2 ∧
      IsLeast {position | pushingLoop.Stands .empty position 2} 1 ∧
      IsGreatest {slots | pushingLoop.Needs .empty slots} 4 := by
  have unique : (pushingLoop.nodes.filterMap Node.label?).Nodup := by decide
  have hobserve : pushingLoop.observe .empty = .ok ⟨⟨2, 4⟩, 1⟩ := by decide +kernel
  obtain ⟨exact, least⟩ := (observes_least pushingLoop .empty).2 unique
  exact ⟨unique, hobserve, exact.1 ⟨_, hobserve⟩, least _ hobserve⟩

end MethodBody

end ClassWeave
