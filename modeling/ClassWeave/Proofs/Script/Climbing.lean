import ClassWeave.Proofs.Frame.Usable
import ClassWeave.Proofs.Script.Bounding

/-!
The bounds that a builder keeps against the code it has built. Along the code the stack has one height at each
point that control gets to, and the frames of the labels tell the heights that jumps arrive with. No height is
above the bound on the stack as long as it fits the field of the bound, and no access is to a local behind the
bound on the locals.
-/

namespace ClassWeave

open Verifying EditFrame

namespace Verifying

/-- The rule lets no more locals be used than there were. -/
def Spares {α : Type} (step : Verifying α) : Prop :=
  ∀ before a after, step before = .ok (a, after) → promises after.locals ⊆ promises before.locals

theorem Shifts.spares {α : Type} {step : Verifying α} {popped pushed : List Nat} (h : Shifts step popped pushed) :
    Spares step := fun before a after hstep => (h before a after hstep).2

namespace Spares

variable {α β : Type}

theorem throw (problem : VerifyError) : Spares (throw problem : Verifying α) := fun _ _ _ h =>
  (stateT_throw_ne_ok.1 h).elim

theorem bind {step : Verifying α} {next : α → Verifying β} (hs : Spares step) (hn : ∀ a, Spares (next a)) :
    Spares (step >>= next) := fun before b after h => by
  obtain ⟨a, middle, ha, hb⟩ := stateT_bind_eq_ok.1 h
  exact (hn a middle b after hb).trans (hs before a middle ha)

theorem ite {c : Prop} [Decidable c] {a b : Verifying α} (ha : Spares a) (hb : Spares b) :
    Spares (if c then a else b) := by
  split
  · exact ha
  · exact hb

theorem pop : Spares pop := fun before type after h => by
  unfold Verifying.pop at h
  split at h
  · cases h
  · cases h
    exact subset_rfl

theorem popNarrow : Spares popNarrow := .bind .pop fun _ =>
  .ite (.bind (.throw _) fun _ => (Shifts.pure _).spares) (Shifts.pure _).spares

theorem push (type : EditType) : Spares (push type) := (Shifts.push type).spares

theorem popExactly (expected : EditType) : Spares (popExactly expected) := (Shifts.popExactly expected).spares

theorem popAssignable (expected : EditType) : Spares (popAssignable expected) :=
  .bind .pop fun _ => .ite (Shifts.pure _).spares (.throw _)

end Spares

end Verifying

section Rules

variable {pool : ConstantPool} {thisClass : String} {allocation : Option Label}

theorem FieldAccess.spares_verify (access : FieldAccess) (index : PoolIndex) : Spares (access.verify pool index) := by
  unfold FieldAccess.verify
  split
  · exact .throw _
  · split
    · exact .throw _
    · cases access with
      | getStatic => exact .push _
      | putStatic => exact .popAssignable _
      | getField => exact .bind (.popAssignable _) fun _ => .push _
      | putField => exact .bind (.popAssignable _) fun _ => .popAssignable _

theorem InvokeKind.spares_verify (kind : InvokeKind) (index : PoolIndex) :
    Spares (kind.verify pool thisClass index) := by
  cases hmethod : pool.methodRef index with
  | error problem =>
    unfold InvokeKind.verify
    rw [hmethod]
    exact .throw _
  | ok method =>
    cases hparse : MethodDescriptor.parse method.descriptor with
    | error problem =>
      unfold InvokeKind.verify
      rw [hmethod]
      dsimp only
      rw [hparse]
      exact .throw _
    | ok descriptor => exact (@Insn.shifts_invoke pool thisClass none _ _ _ _ hmethod hparse).spares

theorem Insn.spares_arrayStore (kind : ArrayKind) :
    Spares ((Insn.arrayStore kind).verify pool thisClass allocation) := by
  have simple (element : EditType) (classes : List String) : Spares (do
      popExactly element
      popExactly .integer
      ArrayKind.popArray classes) :=
    .bind (.popExactly _) fun _ => .bind (.popExactly _) fun _ => (Insn.shifts_popArray _).spares
  cases kind with
  | reference => exact shifts_arrayStore.spares
  | _ => exact simple _ _

theorem StackOp.spares_verify {op : StackOp} (h : (Insn.stack op).isScripted = true) : Spares op.verify := by
  cases op with
  | dup => exact (@Insn.shifts_dup .empty "" none).spares
  | pop => exact (@Insn.shifts_pop .empty "" none).spares
  | pop2 => exact .bind .pop fun _ => .ite (Shifts.pure _).spares (.bind .popNarrow fun _ => (Shifts.pure _).spares)
  | _ => cases h

theorem Insn.verify_widens {before after : EditFrame} {insn : Insn} (h : insn.isScripted = true)
    (hv : insn.verify pool thisClass allocation before = .ok ((), after)) :
    promises after.locals ⊆ promises before.locals ∪ {i | i < insn.slots} := by
  have spared (spares : Spares (insn.verify pool thisClass allocation)) :
      promises after.locals ⊆ promises before.locals ∪ {i | i < insn.slots} :=
    (spares before () after hv).trans Set.subset_union_left
  cases insn with
  | store kind slot =>
    refine (verify_store hv).2.trans (Set.union_subset_union_right _ fun i hi => ?_)
    exact hi.2
  | load kind slot =>
    obtain ⟨-, hlocals, -⟩ := verify_load hv
    rw [hlocals]
    exact Set.subset_union_left
  | increment slot amount =>
    obtain ⟨rfl, -⟩ := verify_increment hv
    exact Set.subset_union_left
  | constNull | constInt | constFloat | pushByte | pushShort | constLong | constDouble => exact spared (.push _)
  | loadConstant | loadWideConstant => exact spared (shifts_loadOfWidth _ _).spares
  | arrayLoad kind => exact spared (shifts_arrayLoad kind).spares
  | arrayStore kind => exact spared (spares_arrayStore kind)
  | arrayLength => exact spared shifts_arrayLength.spares
  | stack op => exact spared (op.spares_verify h)
  | bitwise op ofLong => exact spared (.ite (Shifts.operate _ _).spares (Shifts.operate _ _).spares)
  | field access index => exact spared (access.spares_verify index)
  | invoke kind index => exact spared (kind.spares_verify index)
  | newRefArray index => exact spared (shifts_newRefArray index).spares
  | checkCast index => exact spared (shifts_checkCast index).spares
  | _ => cases h

/-- Unless it stores, an instruction accesses locals that can be used in front of it. -/
theorem Insn.slots_le_of_isOperation {before after : EditFrame} {insn : Insn} {bound : Nat}
    (h : insn.isOperation = true) (hv : insn.verify pool thisClass allocation before = .ok ((), after))
    (usable : promises before.locals ⊆ {i | i < bound}) : insn.slots ≤ bound := by
  cases insn with
  | load kind slot =>
    obtain ⟨-, -, hpromised⟩ := verify_load hv
    have hpositive : 0 < kind.width := by cases kind <;> decide
    have hlast : slot.toNat + (kind.width - 1) < bound := usable (hpromised (kind.width - 1) (by omega))
    rw [slots_of_access rfl]
    dsimp only
    omega
  | increment slot amount => exact usable (verify_increment hv).2
  | store => cases h
  | _ => exact Nat.zero_le _

/-- A store makes the locals at least as long as the slots it writes. -/
theorem Insn.slots_le_of_isScripted {before after : EditFrame} {insn : Insn} {bound : Nat}
    (h : insn.isScripted = true) (hv : insn.verify pool thisClass allocation before = .ok ((), after))
    (usable : promises before.locals ⊆ {i | i < bound}) : insn.slots ≤ max bound after.locals.length := by
  cases insn with
  | store kind slot =>
    obtain ⟨middle, type, -, -, hwidth, rfl⟩ := eq_setLocal_of_store hv
    rw [length_setLocal, hwidth, slots_of_access rfl]
    dsimp only
    omega
  | _ => exact Nat.le_trans (slots_le_of_isOperation h hv usable) (Nat.le_max_left _ _)

theorem Branch.spares_verify {T : Type} (returnType : Option FieldType) (branch : Branch T) :
    Spares (branch.verify returnType) := by
  cases branch with
  | ifZero | tableSwitch | lookupSwitch => exact .popExactly _
  | ifInts => exact .bind (.popExactly _) fun _ => .popExactly _
  | ifRefs => exact .bind Shifts.popReference.spares fun _ => Shifts.popReference.spares
  | ifNull => exact Shifts.popReference.spares
  | goto => exact (Shifts.pure _).spares
  | «return» kind? =>
    cases kind? with
    | some kind => exact (shifts_return kind).spares
    | none => exact .ite (.throw _) (Shifts.pure _).spares
  | raise => exact .bind .pop fun _ => .ite (Shifts.pure _).spares (.throw _)

end Rules

namespace EditFrame

variable {a b merged : EditFrame} {bound more : Nat} {locals others : List EditType}

/-- There are no more locals than so many slots, and those that can be used lie within them. -/
def Spans (bound : Nat) (locals : List EditType) : Prop :=
  locals.length ≤ bound ∧ promises locals ⊆ {i | i < bound}

theorem Spans.mono (h : Spans bound locals) (hle : bound ≤ more) : Spans more locals :=
  ⟨h.1.trans hle, h.2.trans fun _ hi => Nat.lt_of_lt_of_le hi hle⟩

theorem Spans.meet (h : Spans bound locals) (h' : Spans bound others) :
    Spans bound (dropHalves (meetLocals locals others)) := by
  refine ⟨?_, (promises_meet locals others).trans h.2⟩
  rw [length_dropHalves, length_meetLocals]
  exact Nat.max_le.2 ⟨h.1, h'.1⟩

/-- The locals span no more than so many slots, and every value on the stack can be used. -/
def Sits (bound : Nat) (frame : EditFrame) : Prop := Spans bound frame.locals ∧ frame.Usable

theorem Sits.mono (h : a.Sits bound) (hle : bound ≤ more) : a.Sits more := ⟨h.1.mono hle, h.2⟩

theorem Sits.merge (ha : a.Sits bound) (hb : b.Sits bound) (h : a.merge b = some merged) : merged.Sits bound := by
  refine ⟨?_, usable_merge h⟩
  obtain ⟨-, rfl⟩ := merge_eq_some h
  exact ha.1.meet hb.1

end EditFrame

/-- Is it no instruction, or one of a script, which stores in no local that is too far for the bound? -/
def Node.Scripted : Node → Prop
  | .insn i => i.isOperation = true ∨ i.isScripted = true ∧ i.slots ≤ 65535
  | _ => True

/-- How high the stack is behind nodes, given from the last, if control gets there. What arrives at a label has the
height of the label, a jump goes to labels with the height behind it, and no height that fits the field of a bound
is above the bound. -/
inductive Climbs (pool : ConstantPool) (level : Label → Option Nat) (entry : Nat) (peak : UInt16) :
    List Node → Option Nat → Prop where
  | start (bounded : UInt16.ofNat entry ≤ peak) : Climbs pool level entry peak [] (some entry)
  | arrive {nodes : List Node} {before : Option Nat} {label : Label} {height : Nat}
      (climbs : Climbs pool level entry peak nodes before) (levelled : level label = some height)
      (falls : ∀ arriving, before = some arriving → arriving = height) (bounded : UInt16.ofNat height ≤ peak) :
      Climbs pool level entry peak (.label label :: nodes) (some height)
  /-- Nothing arrives at the label. -/
  | idle {nodes : List Node} {label : Label} (climbs : Climbs pool level entry peak nodes none)
      (unlevelled : level label = none) : Climbs pool level entry peak (.label label :: nodes) none
  | insn {nodes : List Node} {insn : Insn} {height : Nat} {effect : StackEffect}
      (climbs : Climbs pool level entry peak nodes (some height)) (resolved : insn.stackEffect pool = .ok effect)
      (enough : effect.pops ≤ height) (bounded : UInt16.ofNat (height - effect.pops + effect.pushes) ≤ peak) :
      Climbs pool level entry peak (.insn insn :: nodes) (some (height - effect.pops + effect.pushes))
  | branch {nodes : List Node} {branch : Branch Label} {height : Nat} {after : Option Nat}
      (climbs : Climbs pool level entry peak nodes (some height)) (enough : branch.pops ≤ height)
      (targets : ∀ target ∈ branch.jumpTargets, level target = some (height - branch.pops))
      (goes : after = if branch.fallsThrough then some (height - branch.pops) else none)
      (bounded : ∀ behind, after = some behind → UInt16.ofNat behind ≤ peak) :
      Climbs pool level entry peak (.branch branch :: nodes) after

namespace Climbs

variable {pool pool' : ConstantPool} {level level' : Label → Option Nat} {entry : Nat} {peak peak' : UInt16}
  {nodes : List Node} {after : Option Nat}

/-- More constants, a larger bound and heights of further labels change nothing. -/
theorem mono (h : Climbs pool level entry peak nodes after) (hpool : pool ≤ pool') (hpeak : peak ≤ peak')
    (kept : ∀ label height, level label = some height → level' label = some height)
    (unset : ∀ label, .label label ∈ nodes → level label = none → level' label = none) :
    Climbs pool' level' entry peak' nodes after := by
  induction h with
  | start bounded => exact .start (UInt16.le_trans bounded hpeak)
  | arrive _ levelled falls bounded ih =>
    exact .arrive (ih fun l hm => unset l (List.mem_cons_of_mem _ hm)) (kept _ _ levelled) falls
      (UInt16.le_trans bounded hpeak)
  | idle _ unlevelled ih =>
    exact .idle (ih fun l hm => unset l (List.mem_cons_of_mem _ hm)) (unset _ List.mem_cons_self unlevelled)
  | insn _ resolved enough bounded ih =>
    exact .insn (ih fun l hm => unset l (List.mem_cons_of_mem _ hm)) (Insn.refines_stackEffect hpool _ _ resolved)
      enough (UInt16.le_trans bounded hpeak)
  | branch _ enough targets goes bounded ih =>
    exact .branch (ih fun l hm => unset l (List.mem_cons_of_mem _ hm)) enough
      (fun target ht => kept _ _ (targets target ht)) goes fun behind hb => UInt16.le_trans (bounded behind hb) hpeak

theorem bounded {height : Nat} (h : Climbs pool level entry peak nodes (some height)) :
    UInt16.ofNat height ≤ peak := by
  generalize hafter : some height = after at h
  cases h with
  | start bounded => cases hafter; exact bounded
  | arrive _ _ _ bounded => cases hafter; exact bounded
  | idle => cases hafter
  | insn _ _ _ bounded => cases hafter; exact bounded
  | branch _ _ _ _ bounded => exact bounded height hafter.symm

/-- There is one height at each point. -/
theorem unique {other : Option Nat} (h : Climbs pool level entry peak nodes after)
    (h' : Climbs pool level entry peak nodes other) : after = other := by
  induction h generalizing other with
  | start => cases h'; rfl
  | arrive _ levelled =>
    cases h' with
    | arrive _ levelled' => exact levelled.symm.trans levelled'
    | idle _ unlevelled => cases unlevelled.symm.trans levelled
  | idle _ unlevelled =>
    cases h' with
    | arrive _ levelled => cases unlevelled.symm.trans levelled
    | idle => rfl
  | insn _ resolved _ _ ih =>
    cases h' with
    | insn climbs resolved' =>
      cases ih climbs
      cases Except.ok.inj (resolved.symm.trans resolved')
      rfl
  | branch _ _ _ goes _ ih =>
    cases h' with
    | branch climbs _ _ goes' =>
      cases ih climbs
      exact goes.trans goes'.symm

/-- Along the way there is a height as well, if control gets there. -/
theorem earlier {later : List Node} (h : Climbs pool level entry peak (later ++ nodes) after) :
    ∃ before, Climbs pool level entry peak nodes before := by
  induction later generalizing after with
  | nil => exact ⟨after, h⟩
  | cons node later ih => cases h with
    | arrive climbs | idle climbs | insn climbs | branch climbs => exact ih climbs

end Climbs

namespace Builder

variable {B C : Builder} {entry frame : EditFrame} {label target : Label}

/-- The height of the stack at a label that is placed or jumped to. -/
def level (B : Builder) (label : Label) : Option Nat := (B.labelFrames.find? label).map Frame.stackSlots

theorem level_congr (h : C.labelFrames = B.labelFrames) : C.level = B.level := by
  unfold level
  rw [h]

theorem find?_note (B : Builder) (label : Label) (frame : EditFrame) (l : Label) :
    ((B.require label).setFrame label frame).labelFrames.find? l =
      if l = label then some frame else B.labelFrames.find? l := by
  rw [find?_setFrame, require_labelFrames]

/-- Labels keep their heights, and where nothing arrives at a placed label nothing does later. -/
structure Levels (B C : Builder) : Prop where
  kept : ∀ label height, B.level label = some height → C.level label = some height
  unset : ∀ label, B.isPlaced label = true → B.level label = none → C.level label = none

namespace Levels

variable {D : Builder}

theorem of_eq (h : C.labelFrames = B.labelFrames) : Levels B C where
  kept label height hl := by rwa [level_congr h]
  unset label _ hl := by rwa [level_congr h]

theorem trans (h : Levels B C) (placed : ∀ label, B.isPlaced label = true → C.isPlaced label = true)
    (h' : Levels C D) : Levels B D where
  kept label height hl := h'.kept label height (h.kept label height hl)
  unset label hp hl := h'.unset label (placed label hp) (h.unset label hp hl)

/-- The frame of a label that is not placed is noted, of the height that the label has if it has one. -/
theorem note (hfind : ∀ l, C.labelFrames.find? l = if l = label then some frame else B.labelFrames.find? l)
    (ahead : B.isPlaced label = false) (height : ∀ k, B.level label = some k → k = frame.stackSlots) :
    Levels B C ∧ C.level label = some frame.stackSlots := by
  have hnew : C.level label = some frame.stackSlots := by rw [level, hfind, if_pos rfl, Option.map_some]
  have hold (l : Label) (hne : l ≠ label) : C.level l = B.level l := by rw [level, hfind, if_neg hne, level]
  refine ⟨⟨fun l k hl => ?_, fun l hp hl => ?_⟩, hnew⟩
  · by_cases he : l = label
    · rw [he, hnew, height k (he ▸ hl)]
    · rw [hold l he, hl]
  · rw [hold l, hl]
    rintro rfl
    rw [ahead] at hp
    cases hp

end Levels

theorem Jump.levels (h : Jump B frame target C) (usable : ∀ l f, B.labelFrames.find? l = some f → f.Usable) :
    Levels B C ∧ C.level target = some frame.stackSlots := by
  cases h with
  | first unframed ahead =>
    refine Levels.note (find?_note B target _) ahead fun k hk => ?_
    rw [level, unframed] at hk
    cases hk
  | @again expected merged framed ahead merges =>
    obtain ⟨hleft, hright⟩ := widths_merge merges
    rw [stackSlots_eq frame, ← hright, ← stackSlots_eq]
    refine Levels.note (find?_note B target _) ahead fun k hk => ?_
    rw [level, framed] at hk
    cases hk
    rw [stackSlots_eq, ← hleft, stackSlots_eq]
  | @back expected framed placed flows =>
    refine ⟨.of_eq (require_labelFrames B target), ?_⟩
    rw [level, require_labelFrames, framed, Option.map_some, stackSlots_eq, stackSlots_eq,
      widths_of_isAssignableTo flows (usable _ _ framed)]

theorem usable_caught {locals : List EditType} (catchType : Option String) :
    EditFrame.Usable ⟨locals, [caughtType catchType]⟩ := by
  rw [EditFrame.Usable, List.mem_singleton]
  cases catchType <;> nofun

/-- What is noted keeps to the bounds: the handlers have the height of what they catch, and frames, regions and
accesses lie within the bound on the locals. -/
structure Noted (entry : EditFrame) (B : Builder) : Prop where
  caught : ∀ handler ∈ B.handlers, B.level handler.handler = some 1
  entered : Spans B.maxLocals.toNat entry.locals
  framed : ∀ label frame, B.labelFrames.find? label = some frame → frame.Sits B.maxLocals.toNat
  regions : ∀ known ∈ B.regions, Spans B.maxLocals.toNat known
  accesses : ∀ insn, .insn insn ∈ B.nodes → insn.slots ≤ B.maxLocals.toNat

/-- The bounds of the builder account for its code, up to its end. -/
structure Accounts (entry : EditFrame) (B : Builder) : Prop extends Noted entry B where
  bookkept : Bookkept B
  climbs : Climbs B.pool B.level entry.stackSlots B.maxStack B.nodes (B.frame.map Frame.stackSlots)
  current : ∀ frame, B.frame = some frame → frame.Sits B.maxLocals.toNat

section Bounds

variable (B : Builder) (label : Label)

@[simp] theorem require_maxStack : (B.require label).maxStack = B.maxStack := by
  unfold require; split <;> rfl

@[simp] theorem require_maxLocals : (B.require label).maxLocals = B.maxLocals := by
  unfold require; split <;> rfl

theorem maxStack_append (node : Node) (pending : Option Label) :
    B.maxStack ≤ (B.append node pending).maxStack ∧
      ∀ frame, B.frame = some frame → UInt16.ofNat frame.stackSlots ≤ (B.append node pending).maxStack := by
  unfold append observe
  cases hf : B.frame with
  | none => simp
  | some frame =>
    simp only [Option.some.injEq, forall_eq']
    split
    · next h => exact ⟨h, UInt16.le_refl _⟩
    · next h => exact ⟨UInt16.le_refl _, UInt16.le_of_lt (UInt16.not_le.1 h)⟩

theorem maxLocals_append (node : Node) (pending : Option Label) :
    B.maxLocals.toNat ≤ (B.append node pending).maxLocals.toNat ∧
      ∀ frame, B.frame = some frame → frame.locals.length ≤ 65535 →
        frame.locals.length ≤ (B.append node pending).maxLocals.toNat := by
  unfold append observe
  cases hf : B.frame with
  | none => simp
  | some frame =>
    simp only [Option.some.injEq, forall_eq']
    split
    · next h => exact ⟨UInt16.le_iff_toNat_le.1 h, fun hfits => (ConstantPool.toNat_ofNat_of_lt hfits).ge⟩
    · next h =>
      have hlt := UInt16.lt_iff_toNat_lt.1 (UInt16.not_le.1 h)
      exact ⟨Nat.le_refl _, fun hfits => by rw [ConstantPool.toNat_ofNat_of_lt hfits] at hlt; exact hlt.le⟩

theorem maxLocals_placed (frame : EditFrame) : B.maxLocals.toNat ≤ (B.placed label frame).maxLocals.toNat := by
  unfold placed
  refine Nat.le_trans (Nat.le_of_eq ?_) (maxLocals_append _ _ _).1
  unfold setFrame
  split <;> simp

end Bounds

namespace Noted

/-- Frames may be noted at labels as long as they lie within the bound. -/
theorem later (h : B.Noted entry) (levels : Levels B C) (hlocals : C.maxLocals = B.maxLocals)
    (hnodes : C.nodes = B.nodes) (hhandlers : C.handlers = B.handlers) (hregions : C.regions = B.regions)
    (framed : ∀ l f, C.labelFrames.find? l = some f → f.Sits B.maxLocals.toNat) : C.Noted entry where
  caught handler hm := levels.kept _ _ (h.caught handler (hhandlers ▸ hm))
  entered := hlocals ▸ h.entered
  framed := hlocals ▸ framed
  regions := hlocals ▸ hregions ▸ h.regions
  accesses := hlocals ▸ hnodes ▸ h.accesses

theorem framed_note (h : B.Noted entry) (sits : frame.Sits B.maxLocals.toNat)
    (hfind : ∀ l, C.labelFrames.find? l = if l = label then some frame else B.labelFrames.find? l) (l : Label)
    (f : EditFrame) (hf : C.labelFrames.find? l = some f) : f.Sits B.maxLocals.toNat := by
  rw [hfind] at hf
  split at hf
  · cases hf
    exact sits
  · exact h.framed l f hf

theorem jump (h : B.Noted entry) (sits : frame.Sits B.maxLocals.toNat) (hj : Jump B frame target C) :
    C.Noted entry ∧ C.maxLocals = B.maxLocals ∧ C.maxStack = B.maxStack ∧
      Levels B C ∧ C.level target = some frame.stackSlots := by
  have hlocals : C.maxLocals = B.maxLocals := by cases hj <;> simp [Builder.setFrame]
  have hstack : C.maxStack = B.maxStack := by cases hj <;> simp [Builder.setFrame]
  obtain ⟨levels, hlevel⟩ := hj.levels fun l f hf => (h.framed l f hf).2
  have framed : ∀ l f, C.labelFrames.find? l = some f → f.Sits B.maxLocals.toNat := by
    cases hj with
    | first => exact h.framed_note sits (find?_note B target _)
    | again framed _ merges => exact h.framed_note ((h.framed _ _ framed).merge sits merges) (find?_note B target _)
    | back => rw [require_labelFrames]; exact h.framed
  exact ⟨h.later levels hlocals hj.nodes_eq hj.handlers_eq hj.regions_eq framed, hlocals, hstack, levels, hlevel⟩

theorem jumps {targets : List Label} (h : B.Noted entry) (sits : frame.Sits B.maxLocals.toNat)
    (hj : Jumps frame targets B C) : C.Noted entry ∧ C.maxLocals = B.maxLocals ∧ C.maxStack = B.maxStack ∧
      Levels B C ∧ ∀ target ∈ targets, C.level target = some frame.stackSlots := by
  induction hj with
  | nil => exact ⟨h, rfl, rfl, .of_eq rfl, nofun⟩
  | @cons target rest B C D first others ih =>
    obtain ⟨noted, hlocals, hstack, levels, hlevel⟩ := h.jump sits first
    have placed : ∀ l, B.isPlaced l = true → C.isPlaced l = true := fun l hp =>
      (isPlaced_congr first.nodes_eq).trans hp
    obtain ⟨all, hlocals', hstack', later, hrest⟩ := ih noted (hlocals ▸ sits)
    exact ⟨all, hlocals'.trans hlocals, hstack'.trans hstack, levels.trans placed later,
      List.forall_mem_cons.2 ⟨later.kept _ _ hlevel, hrest⟩⟩

/-- A node at the end, with the frame behind it. -/
theorem append (h : B.Noted entry) {frame : Option EditFrame} {node : Node} {pending : Option Label}
    (sits : ∀ f, frame = some f → f.locals.length ≤ 65535 ∧ f.Sits (max B.maxLocals.toNat f.locals.length))
    (access : ∀ insn, node = .insn insn → ∃ f, frame = some f ∧ insn.slots ≤ max B.maxLocals.toNat f.locals.length) :
    ({ B with frame := frame }.append node pending).Noted entry ∧
      ∀ f, frame = some f → f.Sits ({ B with frame := frame }.append node pending).maxLocals.toNat := by
  obtain ⟨hle, hlength⟩ := maxLocals_append { B with frame := frame } node pending
  have hroom : ∀ f, frame = some f →
      max B.maxLocals.toNat f.locals.length ≤ ({ B with frame := frame }.append node pending).maxLocals.toNat :=
    fun f hf => Nat.max_le.2 ⟨hle, hlength f hf (sits f hf).1⟩
  have current : ∀ f, frame = some f → f.Sits ({ B with frame := frame }.append node pending).maxLocals.toNat :=
    fun f hf => (sits f hf).2.mono (hroom f hf)
  refine ⟨⟨?_, h.entered.mono hle, ?_, ?_, ?_⟩, current⟩
  · rw [append_handlers, level_congr (append_labelFrames _ _ _)]
    exact h.caught
  · rw [append_labelFrames]
    exact fun l f hf => (h.framed l f hf).mono hle
  · rw [append_regions]
    cases hframe : frame with
    | none =>
      subst hframe
      exact fun known hm => (h.regions known hm).mono hle
    | some f =>
      subst hframe
      intro known hm
      obtain ⟨before, hbefore, rfl⟩ := List.mem_map.1 hm
      exact ((h.regions before hbefore).mono hle).meet (current f rfl).1
  · rw [append_nodes]
    intro insn hm
    rcases List.mem_cons.1 hm with rfl | hm
    · obtain ⟨f, hf, hslots⟩ := access insn rfl
      exact Nat.le_trans hslots (hroom f hf)
    · exact Nat.le_trans (h.accesses insn hm) hle

end Noted

theorem level_noted (B : Builder) {frame : Option EditFrame} {node : Node} {pending : Option Label} :
    ({ B with frame := frame }.append node pending).level = B.level := level_congr (append_labelFrames _ _ _)

namespace Accounts

theorem start (pool : ConstantPool) (labels : LabelSupply) (shape : MethodShape) (fits : entry.locals.length ≤ 65535)
    (within : promises entry.locals ⊆ {i | i < entry.locals.length}) (usable : entry.Usable) :
    (start pool labels shape entry).Accounts entry := by
  have spans : Spans (UInt16.ofNat entry.locals.length).toNat entry.locals := by
    rw [ConstantPool.toNat_ofNat_of_lt fits]
    exact ⟨Nat.le_refl _, within⟩
  exact
    { caught := nofun
      entered := spans
      framed := nofun
      regions := nofun
      accesses := nofun
      bookkept := (fine_start pool labels shape entry).bookkept
      climbs := .start (UInt16.le_refl _)
      current := fun frame hf => by
        cases hf
        exact ⟨spans, usable⟩ }

/-- A node at the end of what is noted, with the frame behind it. -/
theorem append (noted : C.Noted entry) {frame : Option EditFrame} {node : Node} {pending : Option Label}
    (bookkept : Bookkept ({ C with frame := frame }.append node pending))
    (sits : ∀ f, frame = some f → f.locals.length ≤ 65535 ∧ f.Sits (max C.maxLocals.toNat f.locals.length))
    (access : ∀ insn, node = .insn insn → ∃ f, frame = some f ∧ insn.slots ≤ max C.maxLocals.toNat f.locals.length)
    (climbs : ∀ peak, C.maxStack ≤ peak → (∀ f, frame = some f → UInt16.ofNat f.stackSlots ≤ peak) →
      Climbs C.pool C.level entry.stackSlots peak (node :: C.nodes) (frame.map Frame.stackSlots)) :
    ({ C with frame := frame }.append node pending).Accounts entry := by
  obtain ⟨all, current⟩ := @Noted.append C entry noted frame node pending sits access
  obtain ⟨hle, hframe⟩ := maxStack_append { C with frame := frame } node pending
  refine ⟨all, bookkept, ?_, ?_⟩
  · rw [append_pool, append_nodes, append_frame, level_noted]
    exact climbs _ hle hframe
  · rw [append_frame]
    exact current

variable (h : B.Accounts entry)
include h

theorem withPool {pool : ConstantPool} (hle : B.pool ≤ pool) : { B with pool := pool }.Accounts entry :=
  ⟨⟨h.caught, h.entered, h.framed, h.regions, h.accesses⟩, h.bookkept.congr rfl rfl rfl rfl rfl,
    h.climbs.mono hle (UInt16.le_refl _) (fun _ _ => id) fun _ _ => id, h.current⟩

theorem fresh : { B with labels := B.labels.fresh.2 }.Accounts entry :=
  ⟨⟨h.caught, h.entered, h.framed, h.regions, h.accesses⟩, h.bookkept.fresh, h.climbs, h.current⟩

theorem insn {insn : Insn} {before after : EditFrame} (scripted : (Node.insn insn).Scripted)
    (hf : B.frame = some before) (hv : insn.verify B.pool B.shape.thisClass B.pending before = .ok ((), after)) :
    ({ B with frame := some after }.append (.insn insn) none).Accounts entry := by
  obtain ⟨⟨hlength, hpromises⟩, husable⟩ := h.current before hf
  have hbound := B.maxLocals.toNat_lt
  obtain ⟨hscripted, fits⟩ : insn.isScripted = true ∧ insn.slots ≤ 65535 :=
    scripted.elim (fun operates => ⟨Insn.isScripted_of_isOperation operates,
      (Insn.slots_le_of_isOperation operates hv hpromises).trans (Nat.le_of_lt_succ hbound)⟩) id
  have hslots := Insn.slots_le_of_isScripted hscripted hv hpromises
  obtain ⟨-, hlocals⟩ := Insn.widens_verify hscripted _ _ _ _ _ hv
  refine append h.toNoted (h.bookkept.step (.insn hf hv)) (fun f hf => ?_) (fun i hi => ?_) fun peak hle hpeak => ?_
  · cases hf
    refine ⟨by omega, ⟨Nat.le_max_right _ _, (Insn.verify_widens hscripted hv).trans (Set.union_subset ?_ ?_)⟩,
      (Insn.provides_verify hscripted _ _ _ _ _ husable hv).1⟩
    · exact hpromises.trans fun i hi => Nat.lt_of_lt_of_le hi (Nat.le_max_left _ _)
    · exact fun i hi => Nat.lt_of_lt_of_le hi hslots
  · cases hi
    exact ⟨after, rfl, hslots⟩
  · obtain ⟨effect, heffect, below, hbefore, hafter⟩ := insn.balanced before after hv
    have climbs := h.climbs.mono (ConstantPool.le_refl _) hle (fun _ _ => id) fun _ _ => id
    rw [hf, Option.map_some] at climbs
    have henough : effect.pops ≤ before.stackSlots := by omega
    have hsame : after.stackSlots = before.stackSlots - effect.pops + effect.pushes := by omega
    rw [Option.map_some, hsame]
    exact .insn climbs heffect henough (hsame ▸ hpeak after rfl)

/-- A branch leaves the locals as they were. -/
theorem sits_branch {branch : Branch Label} {before after : EditFrame} (hf : B.frame = some before)
    (hv : branch.verify B.shape.returnType before = .ok ((), after)) : after.Sits B.maxLocals.toNat := by
  obtain ⟨hlength, hlocals⟩ := (@Branch.widens_verify 0 _ B.shape.returnType branch) before () after hv
  obtain ⟨⟨hbefore, hpromises⟩, husable⟩ := h.current before hf
  exact ⟨⟨by omega, (branch.spares_verify _ before () after hv).trans hpromises⟩,
    (branch.provides_verify _ before () after husable hv).1⟩

theorem branch {branch : Branch Label} {before after : EditFrame} (hf : B.frame = some before)
    (hv : branch.verify B.shape.returnType before = .ok ((), after))
    (known : ∀ target ∈ branch.jumpTargets, target.number < B.labels.allocated)
    (jumps : Jumps after branch.jumpTargets { B with frame := none } C) :
    ({ C with frame := if branch.fallsThrough then some after else none }.append (.branch branch) none).Accounts
      entry := by
  have sits := h.sits_branch hf hv
  have noted : { B with frame := none }.Noted entry := ⟨h.caught, h.entered, h.framed, h.regions, h.accesses⟩
  obtain ⟨noted, hbound, hstack, levels, hlevel⟩ := noted.jumps sits jumps
  refine append noted (h.bookkept.branch known jumps) (fun f he => ?_) nofun fun peak hle hpeak => ?_
  · have hmax := B.maxLocals.toNat_lt
    split at he
    · cases he
      rw [hbound]
      exact ⟨by have := sits.1.1; omega, sits.mono (Nat.le_max_left _ _)⟩
    · cases he
  · obtain ⟨below, hbefore, hafter⟩ := branch.moves_verify B.shape.returnType before () after hv
    have henough : branch.pops ≤ before.stackSlots := by omega
    have hsame : after.stackSlots = before.stackSlots - branch.pops := by omega
    have climbs := h.climbs.mono (ConstantPool.le_refl _) (hstack ▸ hle) levels.kept fun l hm =>
      levels.unset l ((isPlaced_iff B l).2 hm)
    rw [hf, Option.map_some] at climbs
    rw [jumps.nodes_eq, jumps.pool_eq]
    refine .branch climbs henough (fun target ht => hsame ▸ hlevel target ht) ?_ fun behind hb => ?_
    · split
      · rw [Option.map_some, hsame]
      · rfl
    · obtain ⟨f, hf, rfl⟩ := Option.map_eq_some_iff.1 hb
      exact hpeak f hf

/-- A label at the end of what is noted, where all that arrives has the height that is noted for it. -/
theorem appendLabel (noted : C.Noted entry) (levels : Levels B C) (hpool : C.pool = B.pool) (hnodes : C.nodes = B.nodes)
    (hstack : C.maxStack = B.maxStack)
    (bookkept : Bookkept ({ C with frame := some frame }.append (.label label) (some label)))
    (hlevel : C.level label = some frame.stackSlots)
    (falls : ∀ f, B.frame = some f → f.stackSlots = frame.stackSlots) (sits : frame.Sits C.maxLocals.toNat) :
    ({ C with frame := some frame }.append (.label label) (some label)).Accounts entry := by
  refine append noted bookkept (fun f hf => ?_) nofun fun peak hle hpeak => ?_
  · cases hf
    have hbound := C.maxLocals.toNat_lt
    exact ⟨by have := sits.1.1; omega, sits.mono (Nat.le_max_left _ _)⟩
  · rw [hpool, hnodes]
    refine .arrive (h.climbs.mono (ConstantPool.le_refl _) (hstack ▸ hle) levels.kept fun l hm =>
      levels.unset l ((isPlaced_iff B l).2 hm)) hlevel (fun arriving ha => ?_) (hpeak frame rfl)
    obtain ⟨f, hf, rfl⟩ := Option.map_eq_some_iff.1 ha
    exact falls f hf

/-- All that arrives at a label has the height of the frame that it gets. -/
theorem arrival (arrives : B.arrival? label = some frame) : (∀ f, B.frame = some f → f.stackSlots = frame.stackSlots) ∧
    (∀ k, B.level label = some k → k = frame.stackSlots) ∧ frame.Sits B.maxLocals.toNat := by
  unfold arrival? at arrives
  unfold level
  cases hf : B.frame with
  | none =>
    rw [hf] at arrives
    cases hj : B.labelFrames.find? label with
    | none => rw [hj] at arrives; cases arrives
    | some jumped =>
      rw [hj] at arrives
      cases arrives
      exact ⟨nofun, fun k hk => (Option.some.inj hk).symm, h.framed _ _ hj⟩
  | some current =>
    rw [hf] at arrives
    cases hj : B.labelFrames.find? label with
    | none =>
      rw [hj] at arrives
      cases arrives
      exact ⟨fun f hf => by cases hf; rfl, nofun, h.current _ hf⟩
    | some jumped =>
      rw [hj] at arrives
      obtain ⟨hleft, hright⟩ := widths_merge arrives
      refine ⟨fun f hf => ?_, fun k hk => ?_, (h.framed _ _ hj).merge (h.current _ hf) arrives⟩
      · cases hf
        rw [stackSlots_eq, stackSlots_eq, hright]
      · cases hk
        rw [stackSlots_eq, stackSlots_eq, hleft]

/-- The next label that is handed out is not placed, and nothing jumps to it. -/
theorem unused : B.isPlaced B.labels.fresh.1 = false ∧ B.level B.labels.fresh.1 = none := by
  refine ⟨?_, ?_⟩
  · cases hp : B.isPlaced B.labels.fresh.1 with
    | false => rfl
    | true => exact absurd (h.bookkept.placed_lt _ hp) (Nat.lt_irrefl _)
  · cases hf : B.labelFrames.find? B.labels.fresh.1 with
    | none => rw [level, hf]; rfl
    | some f => exact absurd (h.bookkept.framed_lt _ f hf) (Nat.lt_irrefl _)

theorem placed (known : label.number < B.labels.allocated) (ahead : B.isPlaced label = false)
    (arrives : B.arrival? label = some frame) : (B.placed label frame).Accounts entry := by
  obtain ⟨falls, jumped, sits⟩ := h.arrival arrives
  have bookkept := h.bookkept.placed known ahead frame
  unfold Builder.placed at bookkept ⊢
  have hfind (l : Label) : ((if B.isReachable then B else B.require label).setFrame label frame).labelFrames.find? l =
      if l = label then some frame else B.labelFrames.find? l := by
    split
    · exact find?_setFrame B label frame l
    · exact find?_note B label frame l
  obtain ⟨levels, hlevel⟩ := Levels.note hfind ahead jumped
  generalize hE : (if B.isReachable then B else B.require label).setFrame label frame = E at *
  obtain ⟨hpool, hnodes, hstack, hlocals, hhandlers, hregions⟩ : E.pool = B.pool ∧ E.nodes = B.nodes ∧
      E.maxStack = B.maxStack ∧ E.maxLocals = B.maxLocals ∧ E.handlers = B.handlers ∧ E.regions = B.regions := by
    rw [← hE]
    unfold Builder.setFrame
    split <;> simp
  have noted := h.toNoted.later levels hlocals hnodes hhandlers hregions (h.toNoted.framed_note sits hfind)
  exact h.appendLabel noted levels hpool hnodes hstack bookkept hlevel falls (hlocals ▸ sits)

/-- A label with a frame that is asked for, of the height of all that arrives. -/
theorem placedWith (known : label.number < B.labels.allocated) (ahead : B.isPlaced label = false)
    (falls : ∀ f, B.frame = some f → f.stackSlots = frame.stackSlots)
    (jumped : ∀ k, B.level label = some k → k = frame.stackSlots) (sits : frame.Sits B.maxLocals.toNat) :
    ({ (B.require label).setFrame label frame with frame := some frame }.append (.label label) (some label)).Accounts
      entry := by
  have hfind := find?_note B label frame
  obtain ⟨levels, hlevel⟩ := Levels.note hfind ahead jumped
  have bookkept : Bookkept ({ (B.require label).setFrame label frame with
      frame := some frame }.append (.label label) (some label)) := by
    have noted : Bookkept { (B.require label).setFrame label frame with frame := some frame } :=
      (h.bookkept.note known frame).congr rfl rfl rfl rfl rfl
    refine noted.append _ _ ?_ nofun
    rintro l ⟨⟩
    exact ⟨(isPlaced_congr (require_nodes B label)).trans ahead, (require_labels B label).symm ▸ known⟩
  have noted : ((B.require label).setFrame label frame).Noted entry :=
    h.toNoted.later levels (require_maxLocals B label) (require_nodes B label) (require_handlers B label)
      (require_regions B label) (h.toNoted.framed_note sits hfind)
  exact h.appendLabel noted levels (require_pool B label) (require_nodes B label) (require_maxStack B label)
    bookkept hlevel falls (by rwa [show ((B.require label).setFrame label frame).maxLocals = B.maxLocals from
      require_maxLocals B label])

theorem opened {known : List EditType} (spans : Spans B.maxLocals.toNat known) : (B.opened known).Accounts entry :=
  ⟨⟨h.caught, h.entered, h.framed, List.forall_mem_cons.2 ⟨spans, h.regions⟩, h.accesses⟩,
    h.bookkept.congr rfl rfl rfl rfl rfl, h.climbs, h.current⟩

/-- A label where nothing arrives. -/
theorem stopped (unreachable : B.frame = none) :
    ({ B with labels := B.labels.fresh.2 }.append (.label B.labels.fresh.1) (some B.labels.fresh.1)).Accounts
      entry := by
  have hstep := h.bookkept.step (.stop unreachable)
  have hsame : { B with labels := B.labels.fresh.2 } =
      { { B with labels := B.labels.fresh.2 } with frame := none } := by
    rw [← unreachable]
  rw [hsame] at hstep ⊢
  refine append h.fresh.toNoted hstep nofun nofun fun peak hle _ => ?_
  have climbs := h.climbs.mono (ConstantPool.le_refl _) hle (fun _ _ => id) fun _ _ => id
  rw [unreachable] at climbs
  exact .idle climbs h.unused.2

/-- The end of a region, whose handler is still to be placed. -/
theorem left {start stop : Label} {catchType : Option String} {known : List EditType}
    {outer : List (List EditType)} (started : B.isPlaced start = true) (stopped : B.isPlaced stop = true)
    (inside : B.regions = known :: outer) : (B.left start stop catchType known outer).Accounts entry := by
  obtain ⟨hknown, houter⟩ := List.forall_mem_cons.1 (inside ▸ h.regions)
  obtain ⟨unplaced, unlevelled⟩ := h.unused
  obtain ⟨levels, hlevel⟩ := @Levels.note B (B.left start stop catchType known outer) ⟨known, [caughtType catchType]⟩
    B.labels.fresh.1 (find?_left B start stop catchType known outer) unplaced fun k hk => by
      rw [unlevelled] at hk
      cases hk
  have hstack : (B.left start stop catchType known outer).maxStack = B.maxStack := by
    unfold Builder.left Builder.setFrame; simp
  have hlocals : (B.left start stop catchType known outer).maxLocals = B.maxLocals := by
    unfold Builder.left Builder.setFrame; simp
  refine ⟨⟨?_, hlocals ▸ h.entered, ?_, ?_, ?_⟩, h.bookkept.step (.leave started stopped inside), ?_, ?_⟩
  · rw [left_handlers]
    exact List.forall_mem_cons.2 ⟨hlevel, fun handler hm => levels.kept _ _ (h.caught handler hm)⟩
  · rw [hlocals]
    exact h.toNoted.framed_note ⟨hknown, usable_caught catchType⟩ (find?_left B start stop catchType known outer)
  · rw [hlocals, left_regions]
    exact houter
  · rw [hlocals, left_nodes]
    exact h.accesses
  · rw [left_pool, left_nodes, left_frame, hstack]
    exact h.climbs.mono (ConstantPool.le_refl _) (UInt16.le_refl _) levels.kept fun l hm =>
      levels.unset l ((isPlaced_iff B l).2 hm)
  · rw [hlocals, left_frame]
    exact h.current

/-- A label with a frame that is asked for: what arrives there is assignable to the frame, so it is as high. -/
theorem placeWith {u : Unit} (known : label.number < B.labels.allocated) (sits : frame.Sits B.maxLocals.toNat)
    (hplace : placeWith label frame B = .ok u C) : C.Accounts entry := by
  obtain ⟨ahead, arriving, rfl⟩ := placeWith_eq_ok hplace
  have same : ∀ f ∈ B.frame.toList ++ (B.labelFrames.find? label).toList, f.stackSlots = frame.stackSlots :=
    fun f hm => by rw [stackSlots_eq, stackSlots_eq, widths_of_isAssignableTo (arriving f hm) sits.2]
  refine h.placedWith known ahead (fun f hf => same f ?_) (fun k hk => ?_) sits
  · exact List.mem_append_left _ (Option.mem_toList.2 hf)
  · obtain ⟨f, hf, rfl⟩ := Option.map_eq_some_iff.1 hk
    exact same f (List.mem_append_right _ (Option.mem_toList.2 hf))

theorem step (hs : Step B C) (scripted : ∀ node ∈ C.nodes, node.Scripted) : C.Accounts entry := by
  cases hs with
  | intern grows => exact h.withPool grows
  | fresh => exact h.fresh
  | insn reachable typed => exact h.insn (scripted _ (append_nodes _ _ _ ▸ List.mem_cons_self)) reachable typed
  | branch reachable typed known jumps => exact h.branch reachable typed known jumps
  | place known ahead arrives => exact h.placed known ahead arrives
  | stop unreachable => exact h.stopped unreachable
  | @enter current frame reachable ahead arrives =>
    have placed := h.fresh.placed (Nat.lt_succ_self _) ahead arrives
    have hle := maxLocals_placed { B with labels := B.labels.fresh.2 } B.labels.fresh.1 frame
    exact placed.opened ((h.current current reachable).1.mono hle)
  | leave started stopped inside => exact h.left started stopped inside

theorem run (hr : Run B C) (scripted : ∀ node ∈ C.nodes, node.Scripted) : C.Accounts entry := by
  induction hr with
  | refl => exact h
  | tail _ step ih =>
    have earlier := (Run.step step).nodes_suffix.subset
    exact (ih fun node hm => scripted node (earlier hm)).step step scripted

end Accounts

end Builder

end ClassWeave
