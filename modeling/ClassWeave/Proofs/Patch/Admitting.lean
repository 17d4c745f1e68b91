import ClassWeave.Proofs.Code.Advancing
import ClassWeave.Proofs.Code.Marking
import ClassWeave.Proofs.Patch.Enveloping
import ClassWeave.Proofs.Patch.Fronting
import ClassWeave.Proofs.Patch.Recognising
import ClassWeave.Proofs.Patch.Splicing
import ClassWeave.Proofs.Patch.Wrapping
import ClassWeave.Proofs.Script.Resting

/-!
Guards never trip the check of envelopes. Where a body passes the check, it passes with a guard patched in as well,
and its stack is as high as that of the old code or of the code that is put in.
-/

namespace ClassWeave

open MethodBody

theorem Envelope.toNat_dominate (a b : Envelope) :
    (a.dominate b).maxStack.toNat = max a.maxStack.toNat b.maxStack.toNat ∧
      (a.dominate b).maxLocals.toNat = max a.maxLocals.toNat b.maxLocals.toNat := by
  have larger (m n : UInt16) : (if m ≤ n then n else m).toNat = max m.toNat n.toNat := by
    split
    · next h =>
      have := UInt16.le_iff_toNat_le.1 h
      omega
    · next h =>
      have := UInt16.le_iff_toNat_le.not.1 h
      omega
  exact ⟨larger _ _, larger _ _⟩

theorem Envelope.dominate_self (envelope : Envelope) : envelope.dominate envelope = envelope := by
  unfold dominate
  rw [if_pos (UInt16.le_refl _), if_pos (UInt16.le_refl _)]

namespace MethodBody

variable {body old : MethodBody} {pool p q : ConstantPool} {position height : Nat}

theorem checkLocals_eq_ok {maxLocals : UInt16} {nodes : List Node} :
    checkLocals maxLocals position nodes = .ok () ↔ ∀ insn, .insn insn ∈ nodes → insn.slots ≤ maxLocals.toNat := by
  induction nodes generalizing position with
  | nil => exact ⟨fun _ insn hm => absurd hm List.not_mem_nil, fun _ => rfl⟩
  | cons node rest ih =>
    have behind (quiet : ∀ insn, node = .insn insn → insn.slots = 0) :
        (∀ insn, .insn insn ∈ node :: rest → insn.slots ≤ maxLocals.toNat) ↔
          ∀ insn, .insn insn ∈ rest → insn.slots ≤ maxLocals.toNat := by
      refine ⟨fun h insn hm => h insn (List.mem_cons_of_mem _ hm), fun h insn hm => ?_⟩
      rcases List.mem_cons.1 hm with he | hm
      · rw [quiet insn he.symm]
        exact Nat.zero_le _
      · exact h insn hm
    cases node with
    | label | branch => exact ih.trans (behind fun _ he => (by cases he)).symm
    | insn insn =>
      unfold checkLocals
      dsimp only
      cases haccess : insn.localAccess? with
      | none => exact ih.trans (behind fun _ he => (by cases he; exact Insn.slots_of_none haccess)).symm
      | some access =>
        have hslots := Insn.slots_of_access haccess
        dsimp only
        have hmax := maxLocals.toNat_lt
        cases hneeded : localsNeeded access.1 access.2 position with
        | error problem =>
          refine ⟨fun h => (by cases h), fun h => ?_⟩
          have hle := h insn List.mem_cons_self
          have hfits : (UInt16.ofNat insn.slots).toNat = access.1.toNat + access.2 := by
            rw [ConstantPool.toNat_ofNat_of_lt (by omega), hslots]
          cases hneeded.symm.trans (Replay.localsNeeded_eq_ok.2 hfits)
        | ok needed =>
          have hsame := Replay.localsNeeded_eq_ok.1 hneeded
          dsimp only
          split
          · next hlt =>
            refine ⟨fun h => (by cases h), fun h => ?_⟩
            have hle := h insn List.mem_cons_self
            have := UInt16.lt_iff_toNat_lt.1 hlt
            omega
          · next hle =>
            have hle := UInt16.le_iff_toNat_le.1 (UInt16.not_lt.1 hle)
            refine ih.trans ⟨fun h other hm => ?_, fun h other hm => h other (List.mem_cons_of_mem _ hm)⟩
            rcases List.mem_cons.1 hm with he | hm
            · cases he
              omega
            · exact h other hm

theorem checkEnvelope_eq_ok {observed : Envelope} :
    body.checkEnvelope pool = .ok observed ↔ body.shape.parameterSlots ≤ body.envelope.maxLocals ∧
      (∃ observation, body.observe pool = .ok observation ∧ observation.envelope = observed) ∧
      observed.maxStack ≤ body.envelope.maxStack ∧
      ∀ insn, .insn insn ∈ body.nodes → insn.slots ≤ body.envelope.maxLocals.toNat := by
  unfold checkEnvelope
  dsimp only
  constructor
  · intro h
    split at h
    · cases h
    next hparameters =>
    obtain ⟨observation, hobserve, h⟩ := except_bind_eq_ok.1 h
    split at h
    · cases h
    next hstack =>
    obtain ⟨_, hlocals, h⟩ := except_bind_eq_ok.1 h
    cases h
    exact ⟨UInt16.not_lt.1 hparameters, ⟨observation, hobserve, rfl⟩, UInt16.not_lt.1 hstack,
      checkLocals_eq_ok.1 hlocals⟩
  · rintro ⟨hparameters, ⟨observation, hobserve, rfl⟩, hstack, hlocals⟩
    rw [if_neg (UInt16.not_lt.2 hparameters)]
    refine except_bind_eq_ok.2 ⟨observation, hobserve, ?_⟩
    rw [if_neg (UInt16.not_lt.2 hstack)]
    exact except_bind_eq_ok.2 ⟨(), checkLocals_eq_ok.2 hlocals, rfl⟩

/-- No height is above the one that was observed. -/
theorem Stands.le_observed (unique : (body.nodes.filterMap Node.label?).Nodup) {observation : Observation}
    (h : body.observe pool = .ok observation) (stands : body.Stands pool position height) :
    height ≤ observation.envelope.maxStack.toNat := by
  obtain ⟨_, -, highest, -⟩ := bounds_of_observe unique h
  exact highest.2 ⟨position, stands⟩

section Pools

variable (hle : p ≤ q) (observable : body.Observable p)
include hle observable

theorem Observable.back {n : Int} (arrives : body.Arrives q position n) : body.Arrives p position n :=
  arrives.of_refines hle fun place m node ha hn => by
    obtain ⟨effect, stay⟩ := observable.within place m node ha hn
    exact ⟨effect, stay.resolved⟩

/-- More constants change nothing about a body whose paths agree. -/
theorem Observable.of_le : body.Observable q where
  entered := observable.entered
  within place n node ha hn := by
    obtain ⟨effect, stay⟩ := observable.within place n node (observable.back hle ha) hn
    exact ⟨effect, node.refines_effect hle _ stay.resolved, stay.enough, stay.before, stay.after, stay.targets⟩
  agree place first second node ha hb :=
    observable.agree place first second node (observable.back hle ha) (observable.back hle hb)
  locals slots needs := observable.locals slots <| by
    cases needs with
    | parameters => exact .parameters
    | access arrives found haccess => exact .access (observable.back hle arrives) found haccess

theorem Observable.stands (stands : body.Stands q position height) : body.Stands p position height := by
  cases stands with
  | start => exact .start
  | before arrives found => exact .before (observable.back hle arrives) found
  | after arrives found resolved balance =>
    have arrives := observable.back hle arrives
    obtain ⟨effect, stay⟩ := observable.within _ _ _ arrives found
    cases Except.ok.inj (resolved.symm.trans (Node.refines_effect hle _ _ stay.resolved))
    exact .after arrives found stay.resolved balance

end Pools

/-- How a body keeps to the check, made of an old one that was observed and of code in front of so many nodes or behind
them, for which a builder has tracked bounds. -/
structure Admits (old body : MethodBody) (pool : ConstantPool) (first : Nat) (observed tracked : Envelope) : Prop where
  stack : body.envelope.maxStack.toNat = max old.envelope.maxStack.toNat tracked.maxStack.toNat
  locals : body.envelope.maxLocals.toNat = max old.envelope.maxLocals.toNat tracked.maxLocals.toNat
  tracks : (∀ height, body.StandsOutside pool first old.nodes.length height → height ≤ 65535) →
    ∀ height, body.StandsOutside pool first old.nodes.length height → height ≤ tracked.maxStack.toNat
  passes : (∀ height, body.StandsOutside pool first old.nodes.length height → height ≤ 65535) →
    ∃ observed', body.checkEnvelope pool = .ok observed' ∧
      ∀ peak, (∀ height, body.StandsOutside pool first old.nodes.length height → height ≤ peak) →
        observed'.maxStack.toNat ≤ max observed.maxStack.toNat peak

namespace Spliced

variable {front back : List Node} {level level' : Label → Option Nat} {peak : UInt16} {exit : Option Nat}

/-- A body that declares the larger bounds of the old one and of the new code passes the check if the old one does. -/
theorem admits {observed tracked : Envelope} (h : old.Spliced body q front back level level' tracked.maxStack exit)
    (dominates : body.envelope = old.envelope.dominate tracked) (hle : p ≤ q)
    (unique : (old.nodes.filterMap Node.label?).Nodup) (checked : old.checkEnvelope p = .ok observed)
    (accesses : ∀ insn, .insn insn ∈ front ++ back → insn.slots ≤ tracked.maxLocals.toNat) :
    old.Admits body q front.length observed tracked := by
  obtain ⟨hparameters, ⟨observation, hobserve, rfl⟩, hstack, hlocals⟩ := checkEnvelope_eq_ok.1 checked
  rw [UInt16.le_iff_toNat_le] at hparameters hstack
  have observable := observable_of_observe unique hobserve
  obtain ⟨stack, locals⟩ := old.envelope.toNat_dominate tracked
  rw [← dominates] at stack locals
  have slots : ∀ insn, .insn insn ∈ body.nodes → insn.slots ≤ body.envelope.maxLocals.toNat := by
    intro insn hm
    rw [h.nodes, List.mem_append, List.mem_append] at hm
    rw [locals]
    rcases hm with hm | hm | hm
    · exact Nat.le_trans (accesses insn (List.mem_append_left _ hm)) (Nat.le_max_right _ _)
    · exact Nat.le_trans (hlocals insn hm) (Nat.le_max_left _ _)
    · exact Nat.le_trans (accesses insn (List.mem_append_right _ hm)) (Nat.le_max_right _ _)
  refine ⟨stack, locals, fun fits height outside => h.le_peak fits outside, fun fits => ?_⟩
  have observable' := h.observable fits (observable.of_le hle) fun insn hm =>
    Nat.le_trans (slots insn hm) (Nat.le_of_lt_succ body.envelope.maxLocals.toNat_lt)
  obtain ⟨walk, replay, hentered, hrun, attains⟩ := attains_of_observable observable'
  have hfits := attains.peak.le observable'
  have bounded : ∀ peak, (∀ height, body.StandsOutside q front.length old.nodes.length height → height ≤ peak) →
      replay.maxStack ≤ max observation.envelope.maxStack.toNat peak := by
    intro peak hpeak
    rcases h.stands attains.peak with ⟨i, stands⟩ | outside
    · exact Nat.le_trans ((observable.stands hle stands).le_observed unique hobserve) (Nat.le_max_left _ _)
    · exact Nat.le_trans (hpeak _ outside) (Nat.le_max_right _ _)
  have covered : UInt16.ofNat replay.maxStack ≤ body.envelope.maxStack := by
    have hpeak := bounded tracked.maxStack.toNat fun height outside => h.le_peak fits outside
    rw [UInt16.le_iff_toNat_le, toNat_maxStack hfits, stack]
    omega
  have parameters : body.shape.parameterSlots ≤ body.envelope.maxLocals := by
    rw [UInt16.le_iff_toNat_le, h.shape, locals]
    omega
  refine ⟨_, checkEnvelope_eq_ok.2 ⟨parameters, ⟨_, observe_eq_ok.2 ⟨walk, replay, hentered, hrun, hfits, rfl⟩, rfl⟩,
    covered, slots⟩, fun peak hpeak => ?_⟩
  rw [toNat_maxStack hfits]
  exact bounded peak hpeak

end Spliced

/-- Behind the last instruction, where control does not fall and no branch leads, it gets only as a handler does. -/
theorem arrives_behind_last {before labels : List Node} {last : Node} {n : Int}
    (hnodes : body.nodes = before ++ last :: labels) (quiet : ∀ node ∈ labels, node.isLabel = true)
    (halts : last.fallsThrough = false) (inside : body.JumpsInside) (arrives : body.Arrives pool position n)
    (hend : before.length < position) : n = 1 := by
  have hlabels : ∀ {i : Nat} {node : Node}, body.nodes[i]? = some node → before.length < i → node ∈ labels := by
    intro i node found hlt
    obtain ⟨j, rfl⟩ := Nat.exists_eq_add_of_lt hlt
    rw [hnodes, Nat.add_assoc, List.getElem?_append_right (Nat.le_add_right _ _), Nat.add_sub_cancel_left,
      List.getElem?_cons_succ] at found
    exact List.mem_of_getElem? found
  induction arrives with
  | start => cases hend
  | handler => rfl
  | @step position next n node effect arrives found resolved edge ih =>
    cases edge with
    | next falls =>
      rcases Nat.lt_or_eq_of_le (Nat.le_of_lt_succ hend) with hlt | rfl
      · have hquiet := quiet node (hlabels found hlt)
        cases node with
        | label label =>
          cases resolved
          rw [ih hlt]
          rfl
        | insn | branch => cases hquiet
      · rw [hnodes, List.getElem?_append_right (Nat.le_refl _), Nat.sub_self] at found
        cases found
        cases halts.symm.trans falls
    | @jump label _ ht placed =>
      have htrailing : label ∈ Builder.trailing body.nodes.reverse := by
        have hm := List.mem_reverse.2 (hlabels placed hend)
        unfold Builder.trailing
        rw [hnodes, List.reverse_append, List.reverse_cons, List.append_assoc,
          List.takeWhile_append_of_pos fun node hn => quiet node (List.mem_reverse.1 hn)]
        exact List.mem_filterMap.2 ⟨_, List.mem_append_left _ hm, rfl⟩
      cases node with
      | label | insn => cases ht
      | branch branch => exact absurd htrailing (inside branch (List.mem_of_getElem? found) label ht)

theorem arrives_end (ends : body.fallsOffEnd = false) (inside : body.JumpsInside) {n : Int}
    (arrives : body.Arrives pool body.nodes.length n) : n = 1 := by
  unfold fallsOffEnd at ends
  split at ends
  · cases ends
  · next node hfound =>
    obtain ⟨hplain, behind, before, hnodes, hquiet⟩ := List.find?_eq_some_iff_append.1 hfound
    have hsplit : body.nodes = before.reverse ++ node :: behind.reverse := by
      rw [← List.reverse_reverse body.nodes, hnodes, List.reverse_append, List.reverse_cons, List.append_assoc]
      rfl
    refine arrives_behind_last hsplit (fun other hm => ?_) ends inside arrives ?_
    · simpa using hquiet other (List.mem_reverse.1 hm)
    · rw [hsplit, List.length_append, List.length_cons]
      omega

theorem length_labelAt_le (body : MethodBody) (position : Nat) :
    (body.labelAt position).2.nodes.length ≤ body.nodes.length + 1 := by
  unfold labelAt
  dsimp only
  split
  · exact Nat.le_succ _
  · rw [List.length_append, List.length_cons, List.length_take, List.length_drop]
    omega

end MethodBody

/-- Parts of code that place no label of one another place no label twice together. -/
theorem Node.nodup_labels {front middle back : List Node} (hfront : (front.filterMap Node.label?).Nodup)
    (hmiddle : (middle.filterMap Node.label?).Nodup) (hback : (back.filterMap Node.label?).Nodup)
    (before : ∀ label : Label, .label label ∈ front → .label label ∉ middle ∧ .label label ∉ back)
    (behind : ∀ label : Label, .label label ∈ middle → .label label ∉ back) :
    ((front ++ (middle ++ back)).filterMap Node.label?).Nodup := by
  rw [List.filterMap_append, List.filterMap_append]
  refine hfront.append (hmiddle.append hback fun label hm hb => ?_) fun label hf hrest => ?_
  · exact behind label (Builder.mem_labels_iff.1 hm) (Builder.mem_labels_iff.1 hb)
  · obtain ⟨hm, hb⟩ := before label (Builder.mem_labels_iff.1 hf)
    rcases List.mem_append.1 hrest with h | h
    · exact hm (Builder.mem_labels_iff.1 h)
    · exact hb (Builder.mem_labels_iff.1 h)

/-- Nodes that are labels do nothing to the stack. -/
theorem Stretch.of_labels {nodes : List Node} (pool : ConstantPool) (peak : UInt16)
    (labels : ∀ node ∈ nodes, ∃ label, node = .label label) :
    Stretch pool (fun _ => some 0) 0 peak nodes (some 0) where
  climbs := by
    have along : ∀ others : List Node, (∀ node ∈ others, ∃ label, node = .label label) →
        Climbs pool (fun _ => some 0) 0 peak others (some 0) := by
      intro others
      induction others with
      | nil => exact fun _ => .start (UInt16.zero_le)
      | cons node rest ih =>
        intro all
        obtain ⟨⟨label, rfl⟩, others⟩ := List.forall_mem_cons.1 all
        exact .arrive (ih others) rfl (fun arriving ha => (Option.some.inj ha).symm) UInt16.zero_le
    exact along _ fun node hm => labels node (List.mem_reverse.1 hm)
  closed node hm target ht := by
    obtain ⟨label, rfl⟩ := labels node hm
    cases ht

namespace WrapGuard

variable {guard : WrapGuard} {old : MethodBody} {code : Code} {pool₀ pool pool' : ConstantPool} {shape : MethodShape}
  {label : Label} {tail : Fragment} {labels labels' : LabelSupply}

/-- The code of a handler. It starts at its label with what it catches, and leaves the method. -/
structure Catches (pool : ConstantPool) (level : Label → Option Nat) (label : Label) (tail : Fragment) : Prop where
  stretch : Stretch pool level 1 tail.maxStack tail.nodes none
  caught : level label = some 1
  labels : tail.nodes.filterMap Node.label? = [label]
  accesses : ∀ insn, .insn insn ∈ tail.nodes → insn.slots ≤ tail.maxLocals.toNat

theorem catches_of_tail (few : shape.descriptor.parameterSlots (!shape.isStatic) ≤ 65535)
    (fits : guard.fallback.fits shape.returnType = true)
    (h : guard.tail labels shape pool = .ok (label, tail, labels') pool') :
    label.number = labels.allocated ∧ ∃ level, Catches pool' level label tail := by
  have handles := handles_of_tail fits h
  obtain ⟨builder, accounts, hended, rfl, rfl⟩ := accounts_tail few h
  obtain ⟨insns, hnodes⟩ := handles.nodes
  have stretch : Stretch builder.pool builder.level 1 builder.maxStack builder.finish.nodes none := by
    refine ⟨?_, fun node hm target ht => ?_⟩
    · have hentry : (⟨[], [Builder.caughtType guard.catchType]⟩ : EditFrame).stackSlots = 1 := by
        cases guard.catchType <;> rfl
      have climbs := accounts.climbs
      rw [hended, hentry] at climbs
      change Climbs _ _ _ _ builder.nodes.reverse.reverse _
      rwa [List.reverse_reverse]
    -- A return jumps nowhere.
    · rw [hnodes] at hm
      obtain rfl | hm := List.mem_cons.1 hm
      · cases ht
      · rcases List.mem_append.1 hm with hm | hm
        · obtain ⟨insn, -, rfl⟩ := List.mem_map.1 hm
          cases ht
        · cases List.mem_singleton.1 hm
          cases hreturn : shape.returnType <;> rw [hreturn] at ht <;> cases ht
  refine ⟨congrArg Label.number handles.fresh, builder.level, stretch, ?_, ?_, fun insn hm => ?_⟩
  · have rises := stretch.rises_start (hnodes ▸ List.cons_ne_nil _ _)
    cases rises with
    | label found levelled =>
      rw [hnodes] at found
      cases found
      exact levelled
    | behind found plain =>
      rw [hnodes] at found
      cases found
      cases plain
  · have quiet : (insns.map Node.insn).filterMap Node.label? = [] :=
      List.filterMap_eq_nil_iff.2 fun node hm => by
        obtain ⟨insn, -, rfl⟩ := List.mem_map.1 hm
        rfl
    rw [hnodes, List.filterMap_cons, List.filterMap_append, quiet]
    rfl
  · exact accounts.accesses insn (List.mem_reverse.1 hm)

/-- A handler is put behind the old code, and a label may come in front of it. -/
theorem spliced_around (decoded : MethodBody.decode code pool₀ shape = .ok old) (ends : old.fallsOffEnd = false)
    (few : old.shape.descriptor.parameterSlots (!old.shape.isStatic) ≤ 65535) (present : old.instructionCount ≠ 0)
    (fits : guard.fallback.fits old.shape.returnType = true)
    (htail : guard.tail (old.labelAt old.firstInstruction).2.labels old.shape pool = .ok (label, tail, labels) pool') :
    ∃ front level, (old.labelAt old.firstInstruction).2.nodes = front ++ old.nodes ∧
      old.Spliced (guard.around old label tail labels) pool' front tail.nodes (fun _ => some 0) level tail.maxStack
        (some 0) ∧
      ∀ insn, .insn insn ∈ front ++ tail.nodes → insn.slots ≤ tail.maxLocals.toNat := by
  obtain ⟨start, front, supply, hstart, hle, hfront, -⟩ := old.labelAt_firstInstruction present
  have hlength := old.length_labelAt_le old.firstInstruction
  obtain ⟨-, -, hjumps⟩ := MethodBody.keeps_of_decode decoded
  have wellPlaced := MethodBody.wellPlaced_of_decode decoded
  rw [hstart] at htail hlength
  obtain ⟨hlabel, level, catches⟩ := catches_of_tail few fits htail
  have old_lt : ∀ {other : Label}, .label other ∈ old.nodes → other.number < old.labels.allocated := fun hm =>
    MethodBody.lt_of_decode decoded (.node hm)
  have tail_iff : ∀ {other : Label}, .label other ∈ tail.nodes ↔ other = label := fun {other} => by
    rw [← Builder.mem_labels_iff, catches.labels, List.mem_singleton]
  have unique : ((front ++ (old.nodes ++ tail.nodes)).filterMap Node.label?).Nodup := by
    refine Node.nodup_labels ?_ wellPlaced.nodup (catches.labels ▸ List.nodup_singleton _)
      (fun other hm => ?_) fun other hold hnew => ?_
    · rw [List.length_append] at hlength
      have hshort : (front.filterMap Node.label?).length ≤ 1 :=
        (List.length_filterMap_le _ _).trans (by omega)
      exact List.nodup_iff_getElem?_ne_getElem?.2 fun i j hij hj => by omega
    · obtain ⟨_, he, hge, hlt⟩ := hfront _ hm
      cases he
      refine ⟨fun hold => absurd (old_lt hold) (Nat.not_lt_of_le hge), fun hnew => ?_⟩
      rw [tail_iff.1 hnew, hlabel] at hlt
      exact Nat.lt_irrefl _ hlt
    · have hlt := old_lt hold
      rw [tail_iff.1 hnew, hlabel] at hlt
      exact Nat.not_lt_of_le hle hlt
  refine ⟨front, level, by rw [hstart], ?_, fun insn hm => ?_⟩
  · unfold around
    rw [hstart]
    exact
      { nodes := List.append_assoc _ _ _
        shape := rfl
        unique := by
          change ((front ++ old.nodes ++ tail.nodes).filterMap _).Nodup
          rwa [List.append_assoc]
        closed := fun node hm target ht => by
          cases node with
          | label | insn => cases ht
          | branch branch => exact wellPlaced.targets branch hm target ht
        before := .of_labels _ _ fun node hm => (hfront node hm).imp fun _ => And.left
        behind := fun _ => catches.stretch
        enters := fun height h => (Option.some.inj h).symm
        runs := fun _ height arrives => MethodBody.arrives_end ends hjumps arrives
        handlers := fun handler hm => by
          rcases List.mem_append.1 hm with hm | hm
          · exact .inl ⟨hm, (wellPlaced.handlers handler hm).2.2⟩
          · cases List.mem_singleton.1 hm
            exact .inr (.inr ⟨tail_iff.2 rfl, catches.caught⟩) }
  · rcases List.mem_append.1 hm with hm | hm
    · obtain ⟨_, he, -⟩ := hfront _ hm
      cases he
    · exact catches.accesses insn hm

end WrapGuard

/-- A label that is put with a frame lowers no bound. -/
theorem Builder.tracks_placeWith {B C : Builder} {label : Label} {frame : EditFrame} {u : Unit}
    (h : placeWith label frame B = .ok u C) :
    C.pool = B.pool ∧ C.handlers = B.handlers ∧ B.maxStack ≤ C.maxStack ∧ B.maxLocals.toNat ≤ C.maxLocals.toNat := by
  obtain ⟨-, -, rfl⟩ := placeWith_eq_ok h
  have hstack := (maxStack_append { (B.require label).setFrame label frame with frame := some frame } (.label label)
    (some label)).1
  have hlocals := (maxLocals_append { (B.require label).setFrame label frame with frame := some frame } (.label label)
    (some label)).1
  refine ⟨?_, ?_, Eq.trans_le (require_maxStack B label).symm hstack,
    Eq.trans_le (congrArg UInt16.toNat (require_maxLocals B label).symm) hlocals⟩
  · rw [append_pool]
    exact require_pool B label
  · rw [append_handlers]
    exact require_handlers B label

/-- A method that is no constructor starts with its parameters, which the bounds of its builder account for. -/
theorem Builder.accounts_entryFrame (pool : ConstantPool) (labels : LabelSupply) {shape : MethodShape}
    (method : shape.isConstructor = false) (few : shape.descriptor.parameterSlots (!shape.isStatic) ≤ 65535) :
    (Builder.start pool labels shape shape.entryFrame).Accounts shape.entryFrame := by
  have hlength := MethodShape.length_entryFrame method
  have within := MethodShape.promises_entryFrame method
  rw [← hlength] at within
  exact .start pool labels shape (hlength ▸ few) within List.not_mem_nil

namespace PrologueGuard

open Compiler Builder

variable {guard : PrologueGuard} {old : MethodBody} {pool : ConstantPool} {resume : Label}
  {opened chained : Compiler} {builder : Builder}

namespace Built

variable (h : guard.Built old pool resume opened chained builder)
include h

/-- The guards go on with an empty stack. -/
theorem widths_resume {frame : EditFrame} (hf : chained.builder.labelFrames.find? resume = some frame) :
    frame.widths = [] := by
  obtain ⟨B, hB, hopened⟩ := lift_eq_ok.1 h.opens
  obtain ⟨rfl, rfl⟩ := Builder.fresh_eq_ok.1 hB
  let agreed : Agreement := Function.update (fun _ => none) old.labels.fresh.1 (some [])
  have rests : opened.Rests [] agreed :=
    hopened ▸ (Rests.start pool old.labels old.shape old.shape.entryFrame).fresh []
  have agrees : agreed old.labels.fresh.1 = some [] := Function.update_self _ _ _
  have chained := ensures_chain rfl agreed guard.guards agrees _ _ _ rests h.chains
  exact chained.lined _ [] frame agrees hf

variable (method : old.shape.isConstructor = false)
  (few : old.shape.descriptor.parameterSlots (!old.shape.isStatic) ≤ 65535)
include method few

/-- What the builder tracks accounts for the guards. -/
theorem accounts : chained.builder.Accounts old.shape.entryFrame := by
  have started := accounts_entryFrame pool old.labels method few
  have usable : old.shape.entryFrame.Usable := List.not_mem_nil
  have scripted := composes_scripted.lift composes_scripted.fresh _ _ _
    (Compiler.Scripted.start pool old.labels old.shape.entryFrame few) h.opens
  obtain ⟨known, hfresh⟩ := fresh_eq_ok [] h.opens
  exact accounts_chain usable known scripted (started.run hfresh.run scripted.builder.nodes) h.chains

/-- The stack climbs along the guards, to their label. -/
theorem stretch (present : guard.guards ≠ []) : ∃ exit,
    Stretch builder.pool chained.builder.level 0 builder.maxStack builder.finish.nodes exit ∧
      ∀ height, exit = some height → height = 0 := by
  obtain ⟨hnodes, -⟩ := nodes_placeWith h.ends
  obtain ⟨hpool, -, hstack, -⟩ := tracks_placeWith h.ends
  have climbs := (h.accounts method few).climbs.mono (ConstantPool.le_refl _) hstack (fun _ _ => id) fun _ _ => id
  rw [frame_chain present h.chains, ← hpool] at climbs
  have closed := h.labelled.2
  have hfinish : builder.finish.nodes.reverse = .label resume :: chained.builder.nodes := by
    rw [← hnodes]
    exact List.reverse_reverse _
  cases hlevel : chained.builder.level resume with
  | none => exact ⟨none, ⟨hfinish ▸ .idle climbs hlevel, closed⟩, nofun⟩
  | some height =>
    obtain ⟨frame, hf, rfl⟩ := Option.map_eq_some_iff.1 hlevel
    have hzero : frame.stackSlots = 0 := by
      rw [EditFrame.stackSlots_eq, h.widths_resume hf]
      rfl
    rw [hzero] at hlevel
    exact ⟨some 0, ⟨hfinish ▸ .arrive climbs hlevel nofun UInt16.zero_le, closed⟩, fun height he =>
      (Option.some.inj he).symm⟩

/-- The handlers of the guards start with what they catch. -/
theorem caught : ∀ handler ∈ builder.finish.handlers, .label handler.handler ∈ builder.finish.nodes ∧
    chained.builder.level handler.handler = some 1 := by
  intro handler hm
  have hm : handler ∈ builder.handlers := List.mem_reverse.1 hm
  obtain ⟨-, tidy, closed⟩ := h.closed
  obtain ⟨-, hhandlers, -⟩ := tracks_placeWith h.ends
  refine ⟨List.mem_reverse.2 ((isPlaced_iff _ _).1 ?_), (h.accounts method few).caught handler (hhandlers ▸ hm)⟩
  have framed := tidy.bookkept.needed _ (tidy.bookkept.handlers handler hm).2.2
  by_contra hp
  exact closed handler.handler ⟨framed, by simpa using hp⟩

theorem accesses : ∀ insn, .insn insn ∈ builder.finish.nodes → insn.slots ≤ builder.maxLocals.toNat := by
  intro insn hm
  obtain ⟨hnodes, -⟩ := nodes_placeWith h.ends
  obtain ⟨-, -, -, hlocals⟩ := tracks_placeWith h.ends
  have hm : .insn insn ∈ builder.nodes := List.mem_reverse.1 hm
  rw [hnodes] at hm
  have hm := (List.mem_cons.1 hm).resolve_left nofun
  exact Nat.le_trans ((h.accounts method few).accesses insn hm) hlocals

end Built

/-- The guards are put in front of the old code, and go on to it with an empty stack. -/
theorem spliced_inFront {code : Code} {pool₀ pool' : ConstantPool} {shape : MethodShape} {front : Fragment}
    {labels : LabelSupply} (decoded : MethodBody.decode code pool₀ shape = .ok old)
    (method : old.shape.isConstructor = false)
    (few : old.shape.descriptor.parameterSlots (!old.shape.isStatic) ≤ 65535) (present : guard.guards ≠ [])
    (hcode : guard.code old pool = .ok (front, labels) pool') :
    ∃ level exit,
      old.Spliced (inFront old front labels) pool' front.nodes [] level (fun _ => none) front.maxStack exit ∧
      ∀ insn, .insn insn ∈ front.nodes ++ [] → insn.slots ≤ front.maxLocals.toNat := by
  obtain ⟨resume, opened, chained, builder, built, rfl, rfl⟩ := built_of_code hcode
  obtain ⟨exit, stretch, enters⟩ := built.stretch method few present
  have wellPlaced := MethodBody.wellPlaced_of_decode decoded
  have above := built.above
  refine ⟨chained.builder.level, exit, ?_, fun insn hm => ?_⟩
  · exact
      { nodes := by
          rw [List.append_nil]
          rfl
        shape := rfl
        unique := by
          change ((builder.finish.nodes ++ old.nodes).filterMap _).Nodup
          rw [← List.append_nil old.nodes]
          refine Node.nodup_labels built.labelled.1 wellPlaced.nodup .nil
            (fun label hm => ⟨fun hold => ?_, List.not_mem_nil⟩)
            fun _ _ => List.not_mem_nil
          have hlt := MethodBody.lt_of_decode decoded (.node hold)
          have hge := above.nodes _ (List.mem_reverse.1 hm) label (List.mem_singleton_self _)
          omega
        closed := fun node hm target ht => by
          cases node with
          | label | insn => cases ht
          | branch branch => exact wellPlaced.targets branch hm target ht
        before := stretch
        behind := fun hnone => absurd rfl hnone
        enters := enters
        runs := fun hnone => absurd rfl hnone
        handlers := fun handler hm => by
          rcases List.mem_append.1 hm with hm | hm
          · exact .inr (.inl (built.caught method few handler hm))
          · exact .inl ⟨hm, (wellPlaced.handlers handler hm).2.2⟩ }
  · rw [List.append_nil] at hm
    exact built.accesses method few insn hm

end PrologueGuard

namespace PatchStrategy

/-- What a guard puts in front of the nodes of a body and behind them, and the bounds that the builder of its code
has tracked. -/
inductive Inserts (old : MethodBody) (pool : ConstantPool) : PatchStrategy → (front back : List Node) →
    (tracked : Envelope) → ConstantPool → Prop where
  | wrap {guard : WrapGuard} {label : Label} {tail : Fragment} {labels : LabelSupply} {front : List Node}
      {pool' : ConstantPool} (compiled : guard.tail (old.labelAt old.firstInstruction).2.labels old.shape pool =
        .ok (label, tail, labels) pool')
      (led : (old.labelAt old.firstInstruction).2.nodes = front ++ old.nodes) :
      Inserts old pool (.wrap guard) front tail.nodes tail.envelope pool'
  | prologue {guard : PrologueGuard} {code : Fragment} {labels : LabelSupply} {pool' : ConstantPool}
      (compiled : guard.code old pool = .ok (code, labels) pool') :
      Inserts old pool (.prologue guard) code.nodes [] code.envelope pool'

/-- A body that passes the check does so with a guard patched in, as long as the code of the guard keeps its stack
within what a bound can tell. -/
theorem admits_of_apply {strategy : PatchStrategy} (guards : strategy.isGuard = true) {code : Code}
    {pool₀ pool pool' : ConstantPool} {shape : MethodShape} {old body : MethodBody} {observed : Envelope}
    (decoded : MethodBody.decode code pool₀ shape = .ok old)
    (few : shape.descriptor.parameterSlots (!shape.isStatic) ≤ 255)
    (ends : old.instructionCount ≠ 0 → old.fallsOffEnd = false) (checked : old.checkEnvelope pool = .ok observed)
    (applied : strategy.apply (some old) pool = .ok (.patched body) pool') :
    ∃ front back tracked, strategy.Inserts old pool front back tracked pool' ∧
      body.nodes = front ++ (old.nodes ++ back) ∧ old.Admits body pool' front.length observed tracked := by
  obtain ⟨_, -, hle, -⟩ := follows_of_apply applied
  have unique := MethodBody.nodup_of_decode decoded
  have fewer : old.shape.descriptor.parameterSlots (!old.shape.isStatic) ≤ 65535 := by
    rw [(MethodBody.keeps_of_decode decoded).1]
    omega
  cases strategy with
  | wrap guard =>
    have happly : guard.apply (some old) pool = .ok (.patched body) pool' := applied
    obtain ⟨_, ⟨⟩, patches⟩ := WrapGuard.patches_of_apply happly
    obtain ⟨label, tail, labels, htail, rfl⟩ := patches.put
    obtain ⟨front, level, hled, spliced, accesses⟩ :=
      WrapGuard.spliced_around decoded (ends patches.code) fewer patches.code patches.fits htail
    exact ⟨front, tail.nodes, tail.envelope, .wrap htail hled, spliced.nodes,
      MethodBody.Spliced.admits spliced rfl hle unique checked accesses⟩
  | prologue guard =>
    have happly : guard.apply (some old) pool = .ok (.patched body) pool' := applied
    obtain ⟨_, ⟨⟩, patches⟩ := PrologueGuard.patches_of_apply happly
    obtain ⟨front, labels, hcode, rfl⟩ := patches.put
    obtain ⟨level, exit, spliced, accesses⟩ :=
      PrologueGuard.spliced_inFront decoded patches.method fewer patches.guards hcode
    exact ⟨front.nodes, [], front.envelope, .prologue hcode, spliced.nodes,
      MethodBody.Spliced.admits spliced rfl hle unique checked accesses⟩
  | replace => cases guards

/-- Jumps to itself. -/
def spinningCode : Code := ⟨0, 1, [0xA7, 0x00, 0x00], [], []⟩

def spinningShape : MethodShape := ⟨"a/B", true, false, ⟨[.base .int], none⟩⟩

/-- Does the loop pass the check, before and after the guard is put in front of it? -/
def spinningPasses : Bool :=
  match MethodBody.decode spinningCode .empty spinningShape with
  | .ok old => decide (old.fallsOffEnd = false ∧ old.checkEnvelope .empty = .ok ⟨0, 1⟩) &&
    match ClassFile.raising.apply (some old) .empty with
    | .ok (.patched body) pool => decide ((body.nodes.filterMap Node.label?).Nodup ∧
        body.checkEnvelope pool = .ok ⟨2, 1⟩)
    | _ => false
  | .error _ => false

theorem admits_spinning : ∃ old body pool', MethodBody.decode spinningCode .empty spinningShape = .ok old ∧
    old.checkEnvelope .empty = .ok ⟨0, 1⟩ ∧ ClassFile.raising.apply (some old) .empty = .ok (.patched body) pool' ∧
      ∃ front back tracked, ClassFile.raising.Inserts old .empty front back tracked pool' ∧
        body.nodes = front ++ (old.nodes ++ back) ∧ old.Admits body pool' front.length ⟨0, 1⟩ tracked ∧
          ∃ observed, body.checkEnvelope pool' = .ok observed ∧ observed.maxStack.toNat ≤ 2 := by
  have happly : spinningPasses = true := by decide +kernel
  unfold spinningPasses at happly
  split at happly
  case h_2 => cases happly
  next old hold =>
  obtain ⟨hchecks, happly⟩ := Bool.and_eq_true_iff.1 happly
  obtain ⟨ends, checked⟩ := of_decide_eq_true hchecks
  split at happly
  · next body pool' h =>
    obtain ⟨unique, passed⟩ := of_decide_eq_true happly
    obtain ⟨-, ⟨observation, hobserve, henvelope⟩, -⟩ := MethodBody.checkEnvelope_eq_ok.1 passed
    obtain ⟨front, back, tracked, inserts, hnodes, admits⟩ :=
      admits_of_apply rfl hold (by decide) (fun _ => ends) checked h
    have low : ∀ height, body.StandsOutside pool' front.length old.nodes.length height → height ≤ 2 := by
      rintro height ⟨position, stands, -⟩
      have hle := stands.le_observed unique hobserve
      rwa [henvelope] at hle
    obtain ⟨observed, hchecked, hpeak⟩ := admits.passes fun height outside => (low height outside).trans (by decide)
    exact ⟨old, body, pool', hold, checked, h, front, back, tracked, inserts, hnodes, admits, observed, hchecked,
      hpeak 2 low⟩
  · cases happly

end PatchStrategy

end ClassWeave
