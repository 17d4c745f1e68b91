import ClassWeave.Proofs.Patch.Heights
import Mathlib.Data.List.Perm.Subperm

/-!
What a replay has shown when it ends. Every position waits at most once, so a replay visits all that it
reached, and what it reached is closed under the edges of the code: the heights it found are those of
all paths.
-/

namespace ClassWeave

namespace Walk

variable {walk walk' : Walk} {position height : Nat} {visited : List Nat}

/-- The positions with a height are those that were visited or still wait, each once. -/
structure Tracks (walk : Walk) (visited : List Nat) : Prop where
  nodup : (visited ++ walk.waiting).Nodup
  known : ∀ position : Nat, position ∈ visited ++ walk.waiting ↔
    ∃ height, walk.heights[position]? = some (some height)

/-- A walk that went on. What was known stays known, and new positions wait. -/
structure GoesOn (walk walk' : Walk) : Prop where
  size : walk'.heights.size = walk.heights.size
  heights : ∀ position height : Nat, walk.heights[position]? = some (some height) →
    walk'.heights[position]? = some (some height)
  tracks : ∀ visited, walk.Tracks visited → walk'.Tracks visited

namespace GoesOn

theorem refl (walk : Walk) : GoesOn walk walk := ⟨rfl, fun _ _ => id, fun _ => id⟩

theorem trans {walk'' : Walk} (h : GoesOn walk walk') (h' : GoesOn walk' walk'') :
    GoesOn walk walk'' :=
  ⟨h'.size.trans h.size, fun p n hp => h'.heights p n (h.heights p n hp),
    fun v hv => h'.tracks v (h.tracks v hv)⟩

end GoesOn

/-- Arriving at a position of the code gives it the height. -/
theorem goesOn_of_reach (h : walk.reach position height = .ok walk') :
    walk.GoesOn walk' ∧
      (position < walk.heights.size → walk'.heights[position]? = some (some height)) := by
  unfold reach at h
  split at h
  · next hnone =>
    cases h
    exact ⟨.refl _, fun hlt => absurd (Array.getElem?_eq_none_iff.1 hnone) (by omega)⟩
  · next hfree =>
    cases h
    obtain ⟨hlt, -⟩ := Array.getElem?_eq_some_iff.1 hfree
    have hset (p : Nat) : (walk.heights.setIfInBounds position (some height))[p]? =
        if p = position then some (some height) else walk.heights[p]? := by
      rw [Array.getElem?_setIfInBounds]
      by_cases he : position = p
      · rw [if_pos he, if_pos he.symm, if_pos (he ▸ hlt)]
      · rw [if_neg he, if_neg (Ne.symm he)]
    refine ⟨⟨Array.size_setIfInBounds, fun p n hp => ?_, fun visited tracks => ?_⟩, fun _ => ?_⟩
    · dsimp only
      rw [hset, if_neg fun he => by rw [he, hfree] at hp; cases hp]
      exact hp
    · have hnew : position ∉ visited ++ walk.waiting := fun hm => by
        obtain ⟨n, hn⟩ := (tracks.known position).1 hm
        rw [hfree] at hn
        cases hn
      have hperm : (visited ++ position :: walk.waiting).Perm (position :: (visited ++ walk.waiting)) :=
        List.perm_middle
      refine ⟨hperm.nodup_iff.2 (List.nodup_cons.2 ⟨hnew, tracks.nodup⟩), fun p => ?_⟩
      dsimp only
      rw [hperm.mem_iff, List.mem_cons, tracks.known p, hset]
      by_cases he : p = position
      · simp [he]
      · simp [he]
    · dsimp only
      rw [hset, if_pos rfl]
  · next first hfirst =>
    split at h
    · next hsame =>
      cases h
      exact ⟨.refl _, fun _ => hsame ▸ hfirst⟩
    · cases h

theorem tracks_start (count : Nat) : (start count).Tracks [] where
  nodup := .nil
  known position := by
    refine ⟨nofun, fun ⟨height, h⟩ => ?_⟩
    unfold start at h
    rw [Array.getElem?_replicate] at h
    split at h <;> cases h

end Walk

namespace Replay

open Walk

variable {body : MethodBody} {pool : ConstantPool}

theorem position_eq_ok {positions : NatMap Nat} {label : Label} {found : Nat} :
    position positions label = .ok found ↔ positions.get? label.number = some found := by
  unfold position
  cases positions.get? label.number with
  | some p => exact ⟨fun h => congrArg some (Except.ok.inj h), fun h => congrArg _ (Option.some.inj h)⟩
  | none => exact ⟨nofun, nofun⟩

/-- All positions that labels lead to are reached. -/
theorem goesOn_of_targets {α : Type} {label : α → Label} {nodes : List Node} {height : Nat}
    {targets : List α} {walk walk' : Walk}
    (h : targets.foldlM (fun walk target => do
      walk.reach (← position (labelPositions nodes) (label target)) height) walk = .ok walk') :
    walk.GoesOn walk' ∧ ∀ target ∈ targets, ∃ found : Nat,
      nodes[found]? = some (.label (label target)) ∧
        (found < walk.heights.size → walk'.heights[found]? = some (some height)) := by
  induction targets generalizing walk with
  | nil =>
    cases h
    exact ⟨.refl _, nofun⟩
  | cons first rest ih =>
    obtain ⟨middle, hfirst, h⟩ := except_bind_eq_ok.1 h
    obtain ⟨found, hfound, hreach⟩ := except_bind_eq_ok.1 hfirst
    obtain ⟨on, reached⟩ := goesOn_of_reach hreach
    obtain ⟨on', others⟩ := ih h
    refine ⟨on.trans on', List.forall_mem_cons.2 ⟨⟨found, ?_, fun hlt => ?_⟩, fun target hm => ?_⟩⟩
    · exact (get?_labelPositions nodes _).1 found (position_eq_ok.1 hfound)
    · exact on'.heights found height (reached hlt)
    · obtain ⟨other, hplaced, hother⟩ := others target hm
      exact ⟨other, hplaced, fun hlt => hother (on.size ▸ hlt)⟩

theorem popSlots_eq_ok {height pops position rest : Nat}
    (h : popSlots height pops position = .ok rest) : pops ≤ height ∧ rest = height - pops := by
  unfold popSlots at h
  split at h
  · next hle =>
    cases h
    exact ⟨hle, rfl⟩
  · cases h

theorem lift_eq_ok {α : Type} {value : Except ClassError α} {a : α} :
    (liftM value : Except PatchError α) = .ok a ↔ value = .ok a := by
  cases value with
  | ok b => exact ⟨fun h => congrArg Except.ok (Except.ok.inj h), fun h => h ▸ rfl⟩
  | error problem => exact ⟨nofun, nofun⟩

theorem localsNeeded_eq_ok {slot needed : UInt16} {width position : Nat} :
    localsNeeded slot width position = .ok needed ↔ needed.toNat = slot.toNat + width := by
  have hfits := needed.toNat_lt
  unfold localsNeeded
  split
  · next hle =>
    have hofNat : (UInt16.ofNat (slot.toNat + width)).toNat = slot.toNat + width :=
      UInt16.toNat_ofNat_of_lt' (Nat.lt_succ_of_le hle)
    exact ⟨fun h => by cases h; exact hofNat, fun h => congrArg _ (UInt16.toNat_inj.1 (hofNat.trans h.symm))⟩
  · next hlt => exact ⟨nofun, fun h => absurd h (by omega)⟩

/-- What a visit to a node has shown. -/
structure Visited (body : MethodBody) (pool : ConstantPool) (node : Node) (position height after : Nat)
    (walk : Walk) (effect : StackEffect) : Prop where
  resolved : node.effect pool = .ok effect
  enough : effect.pops ≤ height
  balance : after = height - effect.pops + effect.pushes
  targets : ∀ label ∈ node.jumpTargets, ∃ target : Nat, body.nodes[target]? = some (.label label) ∧
    (target < walk.heights.size → walk.heights[target]? = some (some after))
  next : node.fallsThrough = true → position + 1 < walk.heights.size →
    walk.heights[position + 1]? = some (some after)

namespace Visited

variable {node : Node} {position height after : Nat} {walk walk' : Walk} {effect : StackEffect}

theorem mono (h : Visited body pool node position height after walk effect)
    (size : walk'.heights.size = walk.heights.size)
    (heights : ∀ position height : Nat, walk.heights[position]? = some (some height) →
      walk'.heights[position]? = some (some height)) :
    Visited body pool node position height after walk' effect where
  resolved := h.resolved
  enough := h.enough
  balance := h.balance
  targets label hm := by
    obtain ⟨target, hplaced, hheight⟩ := h.targets label hm
    exact ⟨target, hplaced, fun hlt => heights _ _ (hheight (size ▸ hlt))⟩
  next hfalls hlt := heights _ _ (h.next hfalls (size ▸ hlt))

theorem mem_targets (h : Visited body pool node position height after walk effect) :
    ∀ label ∈ node.jumpTargets, .label label ∈ body.nodes := fun label hm => by
  obtain ⟨target, hplaced, -⟩ := h.targets label hm
  exact List.mem_of_getElem? hplaced

/-- If labels are placed once, all that follows the node has been reached. -/
theorem edges (h : Visited body pool node position height after walk effect)
    (unique : (body.nodes.filterMap Node.label?).Nodup) (next : Nat) (edge : body.Edge node position next)
    (hlt : next < walk.heights.size) : walk.heights[next]? = some (some after) := by
  cases edge with
  | next hfalls => exact h.next hfalls hlt
  | jump hm placed =>
    obtain ⟨target, hplaced, hheight⟩ := h.targets _ hm
    obtain rfl := position_unique unique placed hplaced
    exact hheight hlt

end Visited

/-- A visit reaches all that follows the node. -/
theorem visited_of_visit {walk walk' : Walk} {node : Node} {position height after : Nat} {needed : UInt16}
    (h : visit pool (labelPositions body.nodes) walk node position height = .ok (after, needed, walk')) :
    walk.GoesOn walk' ∧ needed.toNat = node.slots ∧
      ∃ effect, Visited body pool node position height after walk' effect := by
  cases node with
  | label label =>
    obtain ⟨next, hreach, h⟩ := except_bind_eq_ok.1 h
    cases h
    obtain ⟨on, reached⟩ := goesOn_of_reach hreach
    exact ⟨on, rfl, ⟨0, 0⟩, rfl, Nat.zero_le _, rfl, nofun, fun _ hlt => reached (on.size ▸ hlt)⟩
  | insn insn =>
    obtain ⟨effect, heffect, h⟩ := except_bind_eq_ok.1 h
    obtain ⟨rest, hpop, h⟩ := except_bind_eq_ok.1 h
    obtain ⟨hle, rfl⟩ := popSlots_eq_ok hpop
    have hnext : walk.reach (position + 1) (height - effect.pops + effect.pushes) = .ok walk' ∧
        after = height - effect.pops + effect.pushes ∧ needed.toNat = insn.slots := by
      dsimp only at h
      split at h
      · next haccess =>
        obtain ⟨_, hneeded, h⟩ := except_bind_eq_ok.1 h
        obtain ⟨next, hreach, h⟩ := except_bind_eq_ok.1 h
        cases h
        rw [Insn.slots_of_access haccess]
        exact ⟨hreach, rfl, localsNeeded_eq_ok.1 hneeded⟩
      · next haccess =>
        obtain ⟨_, hneeded, h⟩ := except_bind_eq_ok.1 h
        obtain ⟨next, hreach, h⟩ := except_bind_eq_ok.1 h
        cases hneeded
        cases h
        rw [Insn.slots_of_none haccess]
        exact ⟨hreach, rfl, rfl⟩
    obtain ⟨hreach, rfl, hneeded⟩ := hnext
    obtain ⟨on, reached⟩ := goesOn_of_reach hreach
    exact ⟨on, hneeded, effect, lift_eq_ok.1 heffect, hle, rfl, nofun, fun _ hlt => reached (on.size ▸ hlt)⟩
  | branch branch =>
    obtain ⟨rest, hpop, h⟩ := except_bind_eq_ok.1 h
    obtain ⟨middle, htargets, h⟩ := except_bind_eq_ok.1 h
    obtain ⟨hle, rfl⟩ := popSlots_eq_ok hpop
    obtain ⟨on, placed⟩ := goesOn_of_targets htargets
    have onward : after = height - branch.pops ∧ needed = 0 ∧ middle.GoesOn walk' ∧
        (branch.fallsThrough = true → position + 1 < middle.heights.size →
          walk'.heights[position + 1]? = some (some (height - branch.pops))) := by
      dsimp only at h
      split at h
      · obtain ⟨last, hreach, h⟩ := except_bind_eq_ok.1 h
        cases h
        obtain ⟨on', reached⟩ := goesOn_of_reach hreach
        exact ⟨rfl, rfl, on', fun _ => reached⟩
      · next hends =>
        cases h
        exact ⟨rfl, rfl, .refl _, fun hfalls => absurd hfalls hends⟩
    obtain ⟨rfl, rfl, on', reached⟩ := onward
    refine ⟨on.trans on', rfl, ⟨branch.pops, 0⟩, rfl, hle, rfl, fun label hm => ?_, fun hfalls hlt =>
      reached hfalls (on'.size ▸ hlt)⟩
    obtain ⟨found, hplaced, hheight⟩ := placed label hm
    exact ⟨found, hplaced, fun hlt => on'.heights _ _ (hheight (on.size ▸ on'.size ▸ hlt))⟩

/-- A replay that has visited one more node. -/
def noted (replay : Replay) (walk : Walk) (position peak : Nat) (needed : UInt16) : Replay :=
  let maxLocals := if replay.maxLocals ≤ needed then needed else replay.maxLocals
  if replay.maxStack < peak ∨ (peak = replay.maxStack ∧ position < replay.peakAt) then
    ⟨walk, peak, position, maxLocals⟩
  else ⟨walk, replay.maxStack, replay.peakAt, maxLocals⟩

/-- The peak and the first position that has it, and the most locals, among those so far and the new ones. -/
structure Noted (replay out : Replay) (position peak slots : Nat) : Prop where
  stays : replay.maxStack ≤ out.maxStack
  high : peak ≤ out.maxStack
  earlier : replay.maxStack = out.maxStack → out.peakAt ≤ replay.peakAt
  first : peak = out.maxStack → out.peakAt ≤ position
  attained : (out.maxStack = replay.maxStack ∧ out.peakAt = replay.peakAt) ∨
    (out.maxStack = peak ∧ out.peakAt = position)
  locals : out.maxLocals.toNat = max replay.maxLocals.toNat slots

theorem noted_noted (replay : Replay) (walk : Walk) (position peak : Nat) (needed : UInt16) :
    (noted replay walk position peak needed).walk = walk ∧
      Noted replay (noted replay walk position peak needed) position peak needed.toNat := by
  have hlocals : (if replay.maxLocals ≤ needed then needed else replay.maxLocals).toNat =
      max replay.maxLocals.toNat needed.toNat := by
    split
    · next hle =>
      have := UInt16.le_iff_toNat_le.1 hle
      omega
    · next hlt =>
      have := UInt16.le_iff_toNat_le.not.1 hlt
      omega
  unfold noted
  dsimp only
  split
  · next hpeak =>
    exact ⟨rfl, by dsimp only; omega, Nat.le_refl _, fun h => by dsimp only at h ⊢; omega, fun _ => Nat.le_refl _,
      .inr ⟨rfl, rfl⟩, hlocals⟩
  · next hpeak =>
    exact ⟨rfl, Nat.le_refl _, by dsimp only; omega, fun _ => Nat.le_refl _, fun h => by dsimp only at h ⊢; omega,
      .inl ⟨rfl, rfl⟩, hlocals⟩

theorem run_cons {positions : NatMap Nat} {nodes : List Node} {heights : Array (Option Nat)} {waiting : List Nat}
    {position height : Nat} {node : Node} (hnode : nodes[position]? = some node)
    (hheight : heights[position]? = some (some height)) (fuel maxStack peakAt : Nat) (maxLocals : UInt16) :
    run pool positions nodes.toArray (fuel + 1) ⟨⟨heights, position :: waiting⟩, maxStack, peakAt, maxLocals⟩ =
      (do let (after, needed, walk) ← visit pool positions ⟨heights, waiting⟩ node position height
          run pool positions nodes.toArray fuel
            (noted ⟨⟨heights, position :: waiting⟩, maxStack, peakAt, maxLocals⟩ walk position (max height after)
              needed)) := by
  rw [run, List.getElem?_toArray, hnode, hheight]
  dsimp only [Option.join_some, Option.getD_some]
  cases visit pool positions ⟨heights, waiting⟩ node position height with
  | error problem => rfl
  | ok shown =>
    change ite _ _ _ = run _ _ _ _ (ite _ _ _)
    split <;> rfl

/-- The nodes visited so far keep to the peak, which none before its position has, and to the locals. All that
follows them has been reached. -/
structure Keeps (body : MethodBody) (pool : ConstantPool) (replay : Replay) (visited : List Nat) :
    Prop where
  size : replay.walk.heights.size = body.nodes.length
  tracks : replay.walk.Tracks visited
  nodes : ∀ position ∈ visited, ∃ node height after effect, body.nodes[position]? = some node ∧
    replay.walk.heights[position]? = some (some height) ∧
      Visited body pool node position height after replay.walk effect ∧
        max height after ≤ replay.maxStack ∧
          (max height after = replay.maxStack → replay.peakAt ≤ position) ∧
            node.slots ≤ replay.maxLocals.toNat

namespace Keeps

variable {replay : Replay} {visited : List Nat}

/-- Positions that are visited or wait are not more than there are nodes. -/
theorem length_le (h : Keeps body pool replay visited) :
    visited.length + replay.walk.waiting.length ≤ body.nodes.length := by
  have hinside : visited ++ replay.walk.waiting ⊆ List.range body.nodes.length := fun position hm => by
    obtain ⟨height, hheight⟩ := (h.tracks.known position).1 hm
    obtain ⟨hlt, -⟩ := Array.getElem?_eq_some_iff.1 hheight
    exact List.mem_range.2 (h.size ▸ hlt)
  have hle := (List.subperm_of_subset h.tracks.nodup hinside).length_le
  rwa [List.length_append, List.length_range] at hle

/-- What waits is a node that has a height. -/
theorem waits (h : Keeps body pool replay visited) {position : Nat} (hm : position ∈ replay.walk.waiting) :
    ∃ node height, body.nodes[position]? = some node ∧
      replay.walk.heights[position]? = some (some height) := by
  obtain ⟨height, hheight⟩ := (h.tracks.known position).1 (List.mem_append_right _ hm)
  obtain ⟨hlt, -⟩ := Array.getElem?_eq_some_iff.1 hheight
  exact ⟨_, height, List.getElem?_eq_getElem (h.size ▸ hlt), hheight⟩

/-- A visit to the first position that waits. -/
theorem visit {heights : Array (Option Nat)} {position height after maxStack peakAt : Nat} {waiting : List Nat}
    {maxLocals needed : UInt16} {node : Node} {walk : Walk}
    (h : Keeps body pool ⟨⟨heights, position :: waiting⟩, maxStack, peakAt, maxLocals⟩ visited)
    (hnode : body.nodes[position]? = some node) (hheight : heights[position]? = some (some height))
    (hvisit : Replay.visit pool (labelPositions body.nodes) ⟨heights, waiting⟩ node position height =
      .ok (after, needed, walk)) :
    Keeps body pool (noted ⟨⟨heights, position :: waiting⟩, maxStack, peakAt, maxLocals⟩ walk position
      (max height after) needed) (position :: visited) ∧ Walk.GoesOn ⟨heights, waiting⟩ walk := by
  obtain ⟨on, hneeded, effect, shown⟩ := visited_of_visit hvisit
  obtain ⟨hwalk, new⟩ := noted_noted ⟨⟨heights, position :: waiting⟩, maxStack, peakAt, maxLocals⟩ walk position
    (max height after) needed
  have hperm : (visited ++ position :: waiting).Perm (position :: visited ++ waiting) :=
    List.perm_middle
  have tracks : Walk.Tracks ⟨heights, waiting⟩ (position :: visited) :=
    ⟨hperm.nodup_iff.1 h.tracks.nodup, fun p => hperm.mem_iff.symm.trans (h.tracks.known p)⟩
  refine ⟨⟨by rw [hwalk, on.size]; exact h.size, by rw [hwalk]; exact on.tracks _ tracks,
    List.forall_mem_cons.2 ⟨?_, fun p hp => ?_⟩⟩, on⟩
  · refine ⟨node, height, after, effect, hnode, ?_, ?_, new.high, new.first, ?_⟩
    · rw [hwalk]
      exact on.heights _ _ hheight
    · rw [hwalk]
      exact shown
    · rw [new.locals, ← hneeded]
      exact Nat.le_max_right _ _
  · obtain ⟨other, n, a, e, hother, hn, hshown, hmax, hfirst, hslots⟩ := h.nodes p hp
    refine ⟨other, n, a, e, hother, ?_, ?_, Nat.le_trans hmax new.stays, fun hpeak => ?_, ?_⟩
    · rw [hwalk]
      exact on.heights _ _ hn
    · rw [hwalk]
      exact hshown.mono on.size on.heights
    · have hstays := new.stays
      exact Nat.le_trans (new.earlier (by omega)) (hfirst (by omega))
    · rw [new.locals]
      exact Nat.le_trans hslots (Nat.le_max_left _ _)

end Keeps

/-- At the end nothing waits. -/
theorem keeps_of_run {fuel : Nat} {replay out : Replay} {visited : List Nat}
    (h : Keeps body pool replay visited) (hfuel : body.nodes.length ≤ visited.length + fuel)
    (hrun : run pool (labelPositions body.nodes) body.nodes.toArray fuel replay = .ok out) :
    ∃ all, Keeps body pool out all ∧ out.walk.waiting = [] ∧
      ∀ position height : Nat, replay.walk.heights[position]? = some (some height) →
        out.walk.heights[position]? = some (some height) := by
  induction fuel generalizing replay visited with
  | zero =>
    cases hrun
    have hle := h.length_le
    exact ⟨visited, h, List.length_eq_zero_iff.1 (by omega), fun _ _ => id⟩
  | succ fuel ih =>
    obtain ⟨⟨heights, waiting⟩, maxStack, peakAt, maxLocals⟩ := replay
    cases waiting with
    | nil =>
      cases hrun
      exact ⟨visited, h, rfl, fun _ _ => id⟩
    | cons position waiting =>
      obtain ⟨node, height, hnode, hheight⟩ := h.waits List.mem_cons_self
      rw [run_cons hnode hheight] at hrun
      obtain ⟨⟨after, needed, walk⟩, hvisit, hrun⟩ := except_bind_eq_ok.1 hrun
      obtain ⟨kept, on⟩ := h.visit hnode hheight hvisit
      obtain ⟨all, hall, hwaiting, hstays⟩ := ih kept (by rw [List.length_cons]; omega) hrun
      refine ⟨all, hall, hwaiting, fun p n hp => hstays p n ?_⟩
      rw [(noted_noted _ _ _ _ _).1]
      exact on.heights p n hp

end Replay

namespace MethodBody

open Replay

variable {body : MethodBody} {pool : ConstantPool}

/-- The walk with the start and the handlers reached. -/
def entered (body : MethodBody) : Except PatchError Walk := do
  let walk ← (Walk.start body.nodes.length).reach 0 0
  body.handlers.foldlM (fun walk handler => do
    walk.reach (← Replay.position (labelPositions body.nodes) handler.handler) 1) walk

theorem observe_eq_ok {observation : Observation} :
    body.observe pool = .ok observation ↔ ∃ walk replay, body.entered = .ok walk ∧
      run pool (labelPositions body.nodes) body.nodes.toArray body.nodes.length
        ⟨walk, 0, 0, body.shape.parameterSlots⟩ = .ok replay ∧ replay.maxStack ≤ 65535 ∧
        ⟨⟨UInt16.ofNat replay.maxStack, replay.maxLocals⟩, replay.peakAt⟩ = observation := by
  unfold observe entered
  simp only [except_bind_eq_ok]
  constructor
  · rintro ⟨first, hfirst, walk, hwalk, replay, hrun, h⟩
    split at h
    · next hle => exact ⟨walk, replay, ⟨first, hfirst, hwalk⟩, hrun, hle, Except.ok.inj h⟩
    · cases h
  · rintro ⟨walk, replay, ⟨first, hfirst, hwalk⟩, hrun, hle, rfl⟩
    exact ⟨first, hfirst, walk, hwalk, replay, hrun, if_pos hle⟩

/-- At the start nothing is visited, and the entries of the body have their heights. -/
theorem keeps_of_entered (pool : ConstantPool) {walk : Walk} (h : body.entered = .ok walk) :
    Keeps body pool ⟨walk, 0, 0, body.shape.parameterSlots⟩ [] ∧
      (0 < body.nodes.length → walk.heights[0]? = some (some 0)) ∧
      ∀ handler ∈ body.handlers, ∃ found : Nat, body.nodes[found]? = some (.label handler.handler) ∧
        walk.heights[found]? = some (some 1) := by
  obtain ⟨first, hstart, hhandlers⟩ := except_bind_eq_ok.1 h
  obtain ⟨on, hzero⟩ := Walk.goesOn_of_reach hstart
  obtain ⟨on', hone⟩ := goesOn_of_targets hhandlers
  have hcount : (Walk.start body.nodes.length).heights.size = body.nodes.length :=
    Array.size_replicate
  refine ⟨⟨(on.trans on').size.trans hcount, (on.trans on').tracks [] (Walk.tracks_start _), nofun⟩,
    fun hlt => on'.heights _ _ (hzero (hcount.symm ▸ hlt)), fun handler hm => ?_⟩
  obtain ⟨found, hplaced, hheight⟩ := hone handler hm
  obtain ⟨hlt, -⟩ := List.getElem?_eq_some_iff.1 hplaced
  exact ⟨found, hplaced, hheight (by rw [on.size, hcount]; exact hlt)⟩

/-- What a replay knows about a node that it has visited at a height. -/
structure Knows (body : MethodBody) (pool : ConstantPool) (replay : Replay) (position height : Nat) (node : Node)
    (effect : StackEffect) : Prop where
  known : replay.walk.heights[position]? = some (some height)
  resolved : node.effect pool = .ok effect
  enough : effect.pops ≤ height
  targets : ∀ label ∈ node.jumpTargets, .label label ∈ body.nodes
  before : height ≤ replay.maxStack
  after : height - effect.pops + effect.pushes ≤ replay.maxStack
  first : max height (height - effect.pops + effect.pushes) = replay.maxStack → replay.peakAt ≤ position
  slots : node.slots ≤ replay.maxLocals.toNat

/-- The heights found are closed under the edges, so every path runs along them. -/
theorem knows_of_run (unique : (body.nodes.filterMap Node.label?).Nodup) {walk : Walk} {replay : Replay}
    (hentered : body.entered = .ok walk)
    (hrun : run pool (labelPositions body.nodes) body.nodes.toArray body.nodes.length
      ⟨walk, 0, 0, body.shape.parameterSlots⟩ = .ok replay) {position : Nat} {height : Int} {node : Node}
    (arrives : body.Arrives pool position height) (hnode : body.nodes[position]? = some node) :
    ∃ (n : Nat) (effect : StackEffect), height = n ∧ body.Knows pool replay position n node effect := by
  obtain ⟨kept, hzero, hone⟩ := keeps_of_entered pool hentered
  obtain ⟨all, hall, hwaiting, stays⟩ := keeps_of_run kept (by simp) hrun
  have shown : ∀ position (height : Nat) node, replay.walk.heights[position]? = some (some height) →
      body.nodes[position]? = some node → ∃ effect, body.Knows pool replay position height node effect ∧
        Visited body pool node position height (height - effect.pops + effect.pushes) replay.walk effect := by
    intro position height node hheight hnode
    have hm := (hall.tracks.known position).2 ⟨height, hheight⟩
    rw [hwaiting, List.append_nil] at hm
    obtain ⟨other, n, after, effect, hother, hn, hvisited, hmax, hfirst, hslots⟩ := hall.nodes position hm
    obtain rfl := Option.some.inj (hnode.symm.trans hother)
    obtain rfl := Option.some.inj (Option.some.inj (hheight.symm.trans hn))
    obtain rfl := hvisited.balance
    exact ⟨effect, ⟨hheight, hvisited.resolved, hvisited.enough, hvisited.mem_targets, by omega, by omega, hfirst,
      hslots⟩, hvisited⟩
  have arrived : position < body.nodes.length →
      ∃ n : Nat, height = n ∧ replay.walk.heights[position]? = some (some n) := by
    clear hnode
    induction arrives with
    | start => exact fun hlt => ⟨0, rfl, stays _ _ (hzero hlt)⟩
    | @handler handler position hm placed =>
      intro hlt
      obtain ⟨found, hplaced, hheight⟩ := hone handler hm
      obtain rfl := position_unique unique placed hplaced
      exact ⟨1, rfl, stays _ _ hheight⟩
    | @step position next height node effect _ found resolved edge ih =>
      intro hlt
      obtain ⟨hinside, -⟩ := List.getElem?_eq_some_iff.1 found
      obtain ⟨n, rfl, hheight⟩ := ih hinside
      obtain ⟨effect', knows, hvisited⟩ := shown position n node hheight found
      obtain rfl := Except.ok.inj (resolved.symm.trans knows.resolved)
      have henough := knows.enough
      exact ⟨n - effect.pops + effect.pushes, by omega, hvisited.edges unique next edge (hall.size ▸ hlt)⟩
  obtain ⟨hlt, -⟩ := List.getElem?_eq_some_iff.1 hnode
  obtain ⟨n, rfl, hheight⟩ := arrived hlt
  obtain ⟨effect, knows, -⟩ := shown position n node hheight hnode
  exact ⟨n, effect, rfl, knows⟩

theorem toNat_maxStack {replay : Replay} (h : replay.maxStack ≤ 65535) :
    (UInt16.ofNat replay.maxStack).toNat = replay.maxStack :=
  UInt16.toNat_ofNat_of_lt' (Nat.lt_succ_of_le h)

theorem Knows.staysWithin {replay : Replay} {position height bound : Nat} {node : Node} {effect : StackEffect}
    (knows : body.Knows pool replay position height node effect) (hbound : replay.maxStack ≤ bound) :
    body.StaysWithin pool node height bound effect := by
  have hbefore := knows.before
  have hafter := knows.after
  have henough := knows.enough
  exact ⟨knows.resolved, by omega, by omega, by omega, knows.targets⟩

/-- A body is covered by what was observed of it, as far as the stack goes. -/
theorem within_of_observe (unique : (body.nodes.filterMap Node.label?).Nodup)
    {observation : Observation} (h : body.observe pool = .ok observation) :
    (∀ handler ∈ body.handlers, .label handler.handler ∈ body.nodes) ∧
      ∃ heights : Nat → Nat, ∀ position height node, body.Arrives pool position height →
        body.nodes[position]? = some node → height = heights position ∧
          ∃ effect, body.StaysWithin pool node height observation.envelope.maxStack.toNat effect := by
  obtain ⟨walk, replay, hentered, hrun, hle, rfl⟩ := observe_eq_ok.1 h
  obtain ⟨-, -, hone⟩ := keeps_of_entered pool hentered
  refine ⟨fun handler hm => ?_, fun position => (replay.walk.heights[position]?.join).getD 0,
    fun position height node arrives hnode => ?_⟩
  · obtain ⟨found, hplaced, -⟩ := hone handler hm
    exact List.mem_of_getElem? hplaced
  · obtain ⟨n, effect, rfl, knows⟩ := knows_of_run unique hentered hrun arrives hnode
    rw [toNat_maxStack hle]
    exact ⟨by dsimp only; rw [knows.known]; rfl, effect, knows.staysWithin (Nat.le_refl _)⟩

/-- All accesses lie within a bound that was checked. -/
theorem access_le_of_checkLocals {maxLocals : UInt16} {nodes : List Node} {position : Nat}
    (h : checkLocals maxLocals position nodes = .ok ()) {insn : Insn} {slot : UInt16} {width : Nat}
    (hm : .insn insn ∈ nodes) (haccess : insn.localAccess? = some (slot, width)) :
    slot.toNat + width ≤ maxLocals.toNat := by
  induction nodes generalizing position with
  | nil => cases hm
  | cons node rest ih =>
    rcases List.mem_cons.1 hm with rfl | behind
    · unfold checkLocals at h
      dsimp only at h
      rw [haccess] at h
      dsimp only at h
      split at h
      · cases h
      · next needed hneeded =>
        split at h
        · cases h
        · next hle =>
          rw [← localsNeeded_eq_ok.1 hneeded]
          exact UInt16.not_lt.1 hle
    · unfold checkLocals at h
      split at h
      · split at h
        · exact ih h behind
        · split at h
          · cases h
          · split at h
            · cases h
            · exact ih h behind
      · exact ih h behind

/-- A body that passes the check is covered by the envelope it declares. -/
theorem coveredBy_of_checkEnvelope (unique : (body.nodes.filterMap Node.label?).Nodup)
    {observed : Envelope} (h : body.checkEnvelope pool = .ok observed) :
    body.CoveredBy pool body.envelope := by
  unfold checkEnvelope at h
  dsimp only at h
  split at h
  · cases h
  obtain ⟨observation, hobserve, h⟩ := except_bind_eq_ok.1 h
  split at h
  · cases h
  next hstack =>
  obtain ⟨_, hlocals, -⟩ := except_bind_eq_ok.1 h
  obtain ⟨entered, heights, within⟩ := within_of_observe unique hobserve
  have hle : observation.envelope.maxStack.toNat ≤ body.envelope.maxStack.toNat :=
    UInt16.not_lt.1 hstack
  refine ⟨entered, fun position height node arrives hnode => ?_, fun position first second node ha hb
    hnode => ?_, fun insn slot width hm haccess => access_le_of_checkLocals hlocals hm haccess⟩
  · obtain ⟨-, effect, stay⟩ := within position height node arrives hnode
    have hbefore := stay.before
    have hafter := stay.after
    exact ⟨effect, stay.resolved, stay.enough, by omega, by omega, stay.targets⟩
  · rw [(within position first node ha hnode).1, (within position second node hb hnode).1]

end MethodBody

end ClassWeave
