import ClassWeave.Proofs.Patch.Admitting
import ClassWeave.Proofs.Script.Attaining

/-!
The bounds of a replacement are those that a replay of its code shows. Its builder leaves no dead code and raises no
bound above what some path needs, so the replay gets to every instruction, and the larger of both bounds is the same
bound.
-/

namespace ClassWeave

namespace MethodBody

variable {body : MethodBody} {pool : ConstantPool} {nodes : List Node} {node : Node} {position : Nat}

theorem getElem?_of_suffix (h : node :: nodes <:+ body.nodes.reverse) : body.nodes[nodes.length]? = some node := by
  obtain ⟨later, hsplit⟩ := h
  have hnodes : body.nodes = nodes.reverse ++ node :: later.reverse := by
    rw [← List.reverse_reverse body.nodes, ← hsplit]
    simp
  rw [hnodes, List.getElem?_append_right (by simp)]
  simp

namespace Observable

variable (observable : body.Observable pool)
include observable

theorem onward {n : Int} {next : Nat} (arrives : body.Arrives pool position n)
    (found : body.nodes[position]? = some node) (edge : body.Edge node position next) :
    ∃ m, body.Arrives pool next m := by
  obtain ⟨effect, stay⟩ := observable.within position n node arrives found
  exact ⟨_, .step arrives found stay.resolved edge⟩

/-- Where control gets along the nodes of a body, some path gets. A label that nothing falls into is jumped to from
further in front, so the paths are found from the front. -/
theorem arrives_of_leads {handlers : List Handler} (known : handlers ⊆ body.handlers)
    (suffix : nodes <:+ body.nodes.reverse) (leads : Node.Leads handlers nodes true) :
    ∃ n, body.Arrives pool nodes.length n := by
  induction hcount : nodes.length using Nat.strong_induction_on generalizing nodes with
  | _ count ih =>
    subst hcount
    have before {rest : List Node} {node : Node} (hlt : rest.length < nodes.length)
        (hsuffix : node :: rest <:+ body.nodes.reverse) (leads : Node.Leads handlers rest true) {next : Nat}
        (edge : body.Edge node rest.length next) : ∃ n, body.Arrives pool next n := by
      obtain ⟨n, arrives⟩ := ih rest.length hlt ((List.suffix_cons _ _).trans hsuffix) leads rfl
      exact observable.onward arrives (getElem?_of_suffix hsuffix) edge
    generalize hlive : true = live at leads
    cases leads with
    | start => exact ⟨0, .start⟩
    | fall leads => exact before (Nat.lt_succ_self _) suffix leads (.next rfl)
    | @jump rest label leads comes =>
      have found := getElem?_of_suffix suffix
      have there : ∃ n, body.Arrives pool rest.length n := by
        rcases comes with ⟨handler, hm, rfl⟩ | ⟨branch, hm, ht⟩
        · exact ⟨1, .handler (known hm) found⟩
        · obtain ⟨between, earlier, rfl⟩ := List.append_of_mem hm
          obtain ⟨_, leads⟩ := leads.earlier
          have hsuffix : .branch branch :: earlier <:+ .label label :: (between ++ .branch branch :: earlier) :=
            (List.suffix_append _ _).trans (List.suffix_cons _ _)
          refine before ?_ (hsuffix.trans suffix) (leads.front rfl) (.jump ht found)
          have := hsuffix.length_le
          rwa [List.length_cons] at this
      obtain ⟨n, arrives⟩ := there
      exact observable.onward arrives found (.next rfl)
    | idle => cases hlive
    | insn leads => exact before (Nat.lt_succ_self _) suffix leads (.next rfl)
    | branch leads => exact before (Nat.lt_succ_self _) suffix leads (.next hlive.symm)

end Observable

end MethodBody

namespace Replacement

open Builder MethodBody

variable {replacement : Replacement} {old body : MethodBody} {pool pool' : ConstantPool} {builder : Builder}
  {position : Nat} {node : Node}

/-- Code of a replacement whose builder accounts for it and attains its bounds. -/
structure Tracks (replacement : Replacement) (old : MethodBody) (pool : ConstantPool) (body : MethodBody)
    (builder : Builder) : Prop extends replacement.Compiled old pool body builder where
  method : old.shape.isConstructor = false
  few : old.shape.descriptor.parameterSlots (!old.shape.isStatic) ≤ 65535
  accounts : builder.Accounts old.shape.entryFrame
  attains : builder.Attains old.shape.entryFrame
  live : builder.Live

theorem Compiled.tracks {compiler : Compiler} (compiled : replacement.Compiled old pool body compiler.builder)
    (method : old.shape.isConstructor = false) (few : old.shape.descriptor.parameterSlots (!old.shape.isStatic) ≤ 65535)
    (hrun : Compiler.block replacement.body (.start (.start pool ⟨0⟩ old.shape old.shape.entryFrame) 0) =
      .ok () compiler) :
    replacement.Tracks old pool body compiler.builder := by
  have started := accounts_entryFrame pool ⟨0⟩ method few
  have live : (Builder.start pool ⟨0⟩ old.shape old.shape.entryFrame).Live := .start _ _ _ _
  have scripted := Compiler.composes_scripted.block replacement.body _ _ _
    (Compiler.Scripted.start pool ⟨0⟩ old.shape.entryFrame few) hrun
  exact ⟨compiled, method, few, started.run compiled.run scripted.builder.nodes,
    (Attains.start _ _ _ _).run compiled.run started live (.start pool ⟨0⟩ old.shape) scripted.builder.nodes,
    live.run compiled.run⟩

namespace Tracks

variable (h : replacement.Tracks old pool body builder)
include h

theorem reverse : body.nodes.reverse = builder.nodes := by
  rw [h.nodes, List.reverse_reverse]

theorem handlers_subset : builder.handlers ⊆ body.handlers := fun _ hm => h.toCompiled.handlers ▸ List.mem_reverse.2 hm

/-- The stack climbs along the code, and control does not get to its end. -/
theorem stretch : Stretch builder.pool builder.level 0 builder.maxStack body.nodes none where
  climbs := by
    have climbs := h.accounts.climbs
    rw [h.ended] at climbs
    rw [h.reverse]
    exact climbs
  closed node hm target ht := by
    cases node with
    | label | insn => cases ht
    | branch branch => exact h.wellPlaced.targets branch hm target ht

theorem spliced : (MethodBody.empty old.shape).Spliced body builder.pool body.nodes [] builder.level (fun _ => none)
    builder.maxStack none where
  nodes := (List.append_nil _).symm
  shape := h.shape
  unique := h.wellPlaced.nodup
  closed := nofun
  before := h.stretch
  behind hnone := absurd rfl hnone
  enters := nofun
  runs hnone := absurd rfl hnone
  handlers handler hm := by
    refine .inr (.inl ⟨(h.wellPlaced.handlers handler hm).2.2, h.accounts.caught handler ?_⟩)
    rwa [h.handlers, List.mem_reverse] at hm

variable (observable : body.Observable builder.pool)
include observable

/-- Some path gets to each instruction. -/
theorem arrives (found : body.nodes[position]? = some node) (plain : node.isLabel = false) :
    ∃ n, body.Arrives builder.pool position n := by
  have hsuffix : node :: (body.nodes.take position).reverse <:+ body.nodes.reverse := by
    rw [← Stretch.reverse_take_succ found]
    exact List.reverse_suffix.2 (List.take_prefix _ _)
  have leads := h.live.leads
  rw [← h.reverse] at leads
  obtain ⟨later, hsplit⟩ := hsuffix
  rw [← hsplit] at leads
  obtain ⟨_, leads⟩ := leads.earlier
  have hbehind : (body.nodes.take position).reverse <:+ body.nodes.reverse := ⟨later ++ [node], by simpa using hsplit⟩
  have arrives := observable.arrives_of_leads h.handlers_subset hbehind (leads.front plain)
  obtain ⟨hlt, -⟩ := List.getElem?_eq_some_iff.1 found
  rwa [List.length_reverse, List.length_take_of_le (Nat.le_of_lt hlt)] at arrives

theorem le_maxStack {height : Nat} (stands : body.Stands builder.pool position height) :
    height ≤ builder.maxStack.toNat := by
  refine h.spliced.le_peak (fun height ⟨_, stands, _⟩ => stands.le observable) ⟨position, stands, ?_⟩
  exact Nat.lt_or_ge position body.nodes.length

/-- Somewhere the stack is as high as the bound. -/
theorem stands_maxStack : ∃ position, body.Stands builder.pool position builder.maxStack.toNat := by
  obtain ⟨nodes, height, ⟨later, hsplit⟩, leads, climbs, hmax⟩ := h.attains.stack
  -- The point is in front of some node, as control does not get to the end.
  obtain rfl | ⟨later, node, rfl⟩ := later.eq_nil_or_concat'
  · have hend := h.accounts.climbs
    rw [h.ended, ← hsplit] at hend
    cases climbs.unique hend
  have hsuffix : node :: nodes <:+ body.nodes.reverse := ⟨later, by rw [h.reverse, ← hsplit]; simp⟩
  have found := getElem?_of_suffix hsuffix
  obtain ⟨hlt, -⟩ := List.getElem?_eq_some_iff.1 found
  have hbehind : nodes <:+ body.nodes.reverse := (List.suffix_cons _ _).trans hsuffix
  obtain ⟨n, arrives⟩ := observable.arrives_of_leads h.handlers_subset hbehind leads
  obtain ⟨m, rfl, rises⟩ := (h.spliced.meets arrives).rises_front hlt
  have htake : (body.nodes.take nodes.length).reverse = nodes := by
    have := List.prefix_iff_eq_take.1 (List.reverse_prefix.2 hbehind)
    rw [List.reverse_reverse, List.length_reverse] at this
    rw [← this, List.reverse_reverse]
  obtain rfl := rises.unique (h.stretch.reach hlt (htake ▸ climbs))
  have stands : body.Stands builder.pool nodes.length m := .before arrives found
  rw [hmax, ConstantPool.toNat_ofNat_of_lt (stands.le observable)]
  exact ⟨_, stands⟩

/-- The bounds of the builder are those that a replay of the code shows. -/
theorem envelope_eq {observation : Observation} (hobserve : body.observe builder.pool = .ok observation) :
    observation.envelope = builder.finish.envelope := by
  obtain ⟨-, -, ⟨⟨place, stands⟩, highest⟩, ⟨needs, most⟩⟩ := bounds_of_observe h.wellPlaced.nodup hobserve
  have hbase := MethodShape.length_entryFrame h.method
  have hparameters : body.shape.parameterSlots.toNat = old.shape.entryFrame.locals.length := by
    rw [h.shape, hbase]
    exact ConstantPool.toNat_ofNat_of_lt h.few
  have hstack : observation.envelope.maxStack.toNat = builder.maxStack.toNat :=
    Nat.le_antisymm (h.le_maxStack observable stands) (highest (h.stands_maxStack observable))
  have below : ∀ slots, body.Needs builder.pool slots → slots ≤ builder.maxLocals.toNat := by
    intro slots needs
    cases needs with
    | parameters => exact hparameters ▸ h.accounts.entered.1
    | access _ found haccess =>
      rw [← Insn.slots_of_access haccess]
      exact h.accounts.accesses _ (h.mem_nodes.1 (List.mem_of_getElem? found))
  have hlocals : observation.envelope.maxLocals.toNat = builder.maxLocals.toNat := by
    refine Nat.le_antisymm (below _ needs) (Nat.le_trans h.attains.locals (Node.reach_le ?_ fun insn hm => ?_))
    · exact hparameters ▸ most .parameters
    · obtain ⟨position, found⟩ := List.getElem?_of_mem (h.mem_nodes.2 hm)
      obtain ⟨n, arrives⟩ := h.arrives observable found rfl
      rcases Needs.slots arrives found with hnone | hneeds
      · exact hnone.trans_le (Nat.zero_le _)
      · exact most hneeds
  exact congrArg₂ Envelope.mk (UInt16.toNat_inj.1 hstack) (UInt16.toNat_inj.1 hlocals)

end Tracks

/-- The bounds that the builder of a replacement has tracked are those that the replay of its code shows, so the body
gets them. The replay gets to every instruction, and the body passes the check. -/
theorem tracks_of_apply (few : old.shape.descriptor.parameterSlots (!old.shape.isStatic) ≤ 65535)
    (h : replacement.apply (some old) pool = .ok (.patched body) pool') :
    ∃ compiler observation replay,
      (Compiler.block replacement.body).build ⟨0⟩ old.shape old.shape.entryFrame pool = .ok ((), compiler) pool' ∧
      body.nodes = compiler.builder.finish.nodes ∧ body.handlers = compiler.builder.finish.handlers ∧
      body.observe pool' = .ok observation ∧ observation.envelope = compiler.builder.finish.envelope ∧
      body.envelope = observation.envelope ∧ body.Replays pool' replay ∧
      (∀ (position : Nat) node, body.nodes[position]? = some node → node.isLabel = false →
        ∃ height, replay.walk.heights[position]? = some (some height)) ∧
      body.checkEnvelope pool' = .ok observation.envelope := by
  obtain ⟨before, compiler, observation, hold, method, hbuild, compiled, hobserve, henvelope⟩ := observed_of_apply h
  cases hold
  obtain ⟨hrun, rfl⟩ := build_eq_ok hbuild
  have tracks := compiled.tracks method few hrun
  have unique := compiled.wellPlaced.nodup
  have observable := observable_of_observe unique hobserve
  have hsame := tracks.envelope_eq observable hobserve
  obtain ⟨replay, replays, -, -, most⟩ := bounds_of_observe unique hobserve
  rw [← hsame, Envelope.dominate_self] at henvelope
  refine ⟨compiler, observation, replay, hbuild, compiled.nodes, compiled.handlers, hobserve, hsame, henvelope, replays,
    fun position node found plain => ?_, MethodBody.checkEnvelope_eq_ok.2 ⟨?_, ⟨observation, hobserve, rfl⟩, ?_, ?_⟩⟩
  · obtain ⟨n, arrives⟩ := tracks.arrives observable found plain
    exact replays.known unique arrives found
  · rw [henvelope, UInt16.le_iff_toNat_le]
    exact most .parameters
  · rw [henvelope]
    exact UInt16.le_refl _
  · rw [henvelope, hsame]
    exact fun insn hm => tracks.accounts.accesses insn (compiled.mem_nodes.1 hm)

/-- Bounds of the body that clears its argument. -/
def clearingEnvelope? : Option Envelope :=
  match clearing.apply (some (.empty clearingShape)) .empty with
  | .ok (.patched body) _ => some body.envelope
  | _ => none

theorem tracks_clearing : ∃ body pool compiler observation replay,
    clearing.apply (some (.empty clearingShape)) .empty = .ok (.patched body) pool ∧
      clearingShape.descriptor.parameterSlots (!clearingShape.isStatic) ≤ 65535 ∧ body.envelope = ⟨1, 2⟩ ∧
      (Compiler.block clearing.body).build ⟨0⟩ clearingShape clearingShape.entryFrame .empty = .ok ((), compiler) pool ∧
      compiler.builder.finish.envelope = ⟨1, 2⟩ ∧ body.observe pool = .ok observation ∧ body.Replays pool replay ∧
      (∀ (position : Nat) node, body.nodes[position]? = some node → node.isLabel = false →
        ∃ height, replay.walk.heights[position]? = some (some height)) ∧ body.checkEnvelope pool = .ok ⟨1, 2⟩ := by
  have few : clearingShape.descriptor.parameterSlots (!clearingShape.isStatic) ≤ 65535 := by decide
  have patched : clearingEnvelope? = some ⟨1, 2⟩ := by decide +kernel
  unfold clearingEnvelope? at patched
  split at patched
  · next body pool h =>
    have henvelope : body.envelope = ⟨1, 2⟩ := Option.some.inj patched
    obtain ⟨compiler, observation, replay, hbuild, -, -, hobserve, htracked, hsame, replays, known, checked⟩ :=
      @tracks_of_apply clearing (.empty clearingShape) body .empty pool few h
    have hobserved : observation.envelope = ⟨1, 2⟩ := hsame.symm.trans henvelope
    exact ⟨body, pool, compiler, observation, replay, h, few, henvelope, hbuild, htracked.symm.trans hobserved,
      hobserve, replays, known, hobserved ▸ checked⟩
  · cases patched

end Replacement

end ClassWeave
