import ClassWeave.Proofs.Frame.Fitting
import ClassWeave.Proofs.Patch.Heights
import ClassWeave.Proofs.Script.Compiled
import ClassWeave.Proofs.Script.Composing
import ClassWeave.Proofs.Script.Executing
import ClassWeave.Proofs.Script.Numbering

/-!
How large the tables of compiled code get. An instruction that scripts are compiled to puts at most one value
more on the stack, makes the locals no longer than the slots it writes, and every handler has an instruction of
its own. So the frames and the handlers of code that can be written fit the fields for their lengths.
-/

namespace ClassWeave

open Verifying

/-- The step puts at most so many values more on the stack, and no locals behind the given ones. -/
def Verifying.Widens {α : Type} (extra reach : Nat) (step : Verifying α) : Prop :=
  ∀ before a after, step before = .ok (a, after) →
    after.stack.length ≤ before.stack.length + extra ∧ after.locals.length ≤ max before.locals.length reach

namespace Verifying.Widens

variable {α β : Type} {extra reach : Nat}

theorem pure (a : α) : Widens extra reach (Pure.pure a : Verifying α) := fun before _ after h => by
  obtain ⟨-, rfl⟩ := stateT_pure_eq_ok.1 h
  omega

theorem throw (problem : VerifyError) : Widens extra reach (throw problem : Verifying α) := fun _ _ _ h =>
  (stateT_throw_ne_ok.1 h).elim

/-- Nothing behind a refusal is run. -/
theorem refuse {problem : VerifyError} {next : α → Verifying β} :
    Widens extra reach (MonadExcept.throw problem >>= next) := fun _ _ _ h => by
  obtain ⟨_, _, hthrow, -⟩ := stateT_bind_eq_ok.1 h
  exact (stateT_throw_ne_ok.1 hthrow).elim

theorem bind {step : Verifying α} {next : α → Verifying β} (hs : Widens 0 reach step)
    (hn : ∀ a, Widens extra reach (next a)) : Widens extra reach (step >>= next) := fun before b after h => by
  obtain ⟨a, middle, ha, hb⟩ := stateT_bind_eq_ok.1 h
  have h₁ := hs before a middle ha
  have h₂ := hn a middle b after hb
  omega

theorem ite {c : Prop} [Decidable c] {a b : Verifying α} (ha : Widens extra reach a)
    (hb : Widens extra reach b) : Widens extra reach (if c then a else b) := by
  split
  · exact ha
  · exact hb

theorem modify {f : EditFrame → EditFrame} (hf : ∀ frame, (f frame).stack.length ≤ frame.stack.length + extra ∧
    (f frame).locals.length ≤ max frame.locals.length reach) :
    Widens extra reach (modify f : Verifying Unit) := fun before _ after h => by
  cases h
  exact hf before

theorem forM {step : β → Verifying Unit} (hs : ∀ b, Widens 0 reach (step b)) (items : List β) :
    Widens 0 reach (items.forM step) := by
  induction items with
  | nil => exact .pure _
  | cons item rest ih => exact .bind (hs item) fun _ => ih

theorem push (type : EditType) : Widens 1 reach (push type) :=
  .modify fun _ => ⟨Nat.le_refl _, Nat.le_max_left _ _⟩

theorem pushAll (types : List EditType) : Widens types.length reach (pushAll types) :=
  .modify fun frame => by
    rw [List.length_append, List.length_reverse]
    dsimp only
    omega

theorem pop : Widens extra reach pop := fun before type after h => by
  unfold Verifying.pop at h
  split at h
  · cases h
  · next first rest hstack =>
    cases h
    rw [hstack, List.length_cons]
    dsimp only
    omega

theorem popNarrow : Widens extra reach popNarrow := .bind .pop fun _ => .ite .refuse (.pure _)

theorem popExactly (expected : EditType) : Widens extra reach (popExactly expected) :=
  .bind .pop fun _ => .ite (.throw _) (.pure _)

theorem popAssignable (expected : EditType) : Widens extra reach (popAssignable expected) :=
  .bind .pop fun _ => .ite (.pure _) (.throw _)

theorem popReference : Widens extra reach popReference := .bind .pop fun _ => .ite (.pure _) (.throw _)

theorem getLocal (slot : UInt16) : Widens extra reach (getLocal slot) := fun before type after h => by
  obtain ⟨rfl, -⟩ := getLocal_eq_ok h
  omega

theorem setLocal {slot : UInt16} {type : EditType} (hreach : slot.toNat + type.width ≤ reach) :
    Widens extra reach (setLocal slot type) := by
  refine .modify fun frame => ⟨Nat.le_add_right _ _, ?_⟩
  rw [EditFrame.length_setLocal]
  omega

theorem operate (operands : List EditType) (result : EditType) : Widens 1 reach (operate operands result) :=
  .bind (.forM popExactly _) fun _ => .push result

end Verifying.Widens

section Rules

variable {extra reach : Nat} {pool : ConstantPool}

theorem ArrayKind.widens_popArray (classes : List String) : Widens extra reach (popArray classes) :=
  .bind .pop fun type => by
    cases type with
    | null => exact .pure _
    | object name => exact .ite (.pure _) (.throw _)
    | _ => exact .throw _

theorem ArrayKind.widens_referenceElement (array : EditType) : Widens extra reach (referenceElement array) := by
  unfold referenceElement
  split
  · exact .ite (.pure _) (.throw _)
  · exact .throw _

theorem ArrayKind.widens_verifyLoad (kind : ArrayKind) : Widens 1 reach kind.verifyLoad :=
  .bind (.popExactly _) fun _ => by
    split
    · exact .bind (widens_popArray _) fun _ => .push _
    · refine .bind .pop fun type => ?_
      split
      · exact .push _
      · exact .bind (widens_referenceElement _) fun _ => .push _

theorem ArrayKind.widens_verifyStore (kind : ArrayKind) : Widens extra reach kind.verifyStore := by
  unfold verifyStore
  split
  · exact .bind (.popExactly _) fun _ => .bind (.popExactly _) fun _ => widens_popArray _
  · refine .bind .pop fun value => .bind (.popExactly _) fun _ => .bind .pop fun array => ?_
    refine .ite (.ite (.bind (widens_referenceElement _) fun _ => .ite (.pure _) (.throw _)) (.pure _)) .refuse

theorem FieldAccess.widens_verify (access : FieldAccess) (index : PoolIndex) :
    Widens 1 reach (access.verify pool index) := by
  unfold FieldAccess.verify
  split
  · exact .throw _
  · split
    · exact .throw _
    · cases access with
      | getStatic => exact .push _
      | putStatic => exact .popAssignable _
      | getField => exact .bind (.popAssignable _) fun _ => .push _
      | putField => exact .bind (.popAssignable _) fun _ => .popAssignable _

theorem widens_construction (object initialized : EditType) :
    Widens extra reach (modify fun frame => EditFrame.initialize frame object initialized) := by
  refine .modify fun frame => ?_
  unfold EditFrame.initialize
  rw [List.length_map, List.length_map]
  omega

theorem widens_pushReturn (method : MethodDescriptor) : Widens 1 reach (pushReturn method) := by
  unfold pushReturn
  split
  · exact .push _
  · exact .pure _

theorem InvokeKind.widens_verify (thisClass : String) (kind : InvokeKind) (index : PoolIndex) :
    Widens 1 reach (kind.verify pool thisClass index) := by
  unfold InvokeKind.verify
  split
  · exact .throw _
  · split
    · exact .throw _
    · next method _ _ descriptor _ =>
      have result : Widens 1 reach (pushReturn descriptor) := widens_pushReturn descriptor
      have made (receiver type : EditType) : Widens 1 reach (do
          modify fun frame => EditFrame.initialize frame receiver type
          if descriptor.returnType.isSome then throw .badType
          pushReturn descriptor) :=
        .bind (widens_construction _ _) fun _ => .ite .refuse result
      extract_lets last call
      have hcall (u : Unit) : Widens 1 reach (call u) := by
        refine .bind (.forM (fun _ => .popAssignable _) _) fun _ => ?_
        refine .ite (.bind .pop fun receiver => ?_) (.ite (.bind (.popAssignable _) fun _ => result) result)
        cases receiver with
        | uninitializedThis => exact .bind (.pure _) fun type => made _ type
        | uninitialized label => exact .bind (.pure _) fun type => made _ type
        | _ => exact .refuse
      split
      · exact .ite .refuse (hcall ())
      · exact hcall ()

theorem widens_classTypeAt (index : PoolIndex) : Widens extra reach (classTypeAt pool index) := by
  unfold classTypeAt
  split
  · exact .throw _
  · split
    · exact .pure _
    · exact .throw _

theorem widens_loadOfWidth (index : PoolIndex) (width : Nat) :
    Widens 1 reach (Insn.verify.loadOfWidth pool index width) := by
  unfold Insn.verify.loadOfWidth
  split
  · exact .throw _
  · exact .ite .refuse (.push _)

/-- Copying the top takes it from the stack first. -/
theorem StackOp.widens_verify {op : StackOp} (h : (Insn.stack op).isScripted = true) :
    Widens 1 reach op.verify := by
  cases op with
  | dup =>
    intro before u after h
    have shifts : Shifts StackOp.dup.verify [1] [1, 1] := @Insn.shifts_dup .empty "" none
    obtain ⟨⟨rest, hbefore, hafter⟩, -⟩ := shifts before u after h
    have hfirst := congrArg List.length hbefore
    have hlast := congrArg List.length hafter
    have hlocals : Widens 2 reach StackOp.dup.verify := .bind .popNarrow fun _ => .pushAll _
    simp only [EditFrame.widths, List.length_map, List.length_append, List.length_cons, List.length_nil]
      at hfirst hlast
    exact ⟨by omega, (hlocals before u after h).2⟩
  | pop => exact .bind .popNarrow fun _ => .pure _
  | pop2 => exact .bind .pop fun _ => .ite (.pure _) (.bind .popNarrow fun _ => .pure _)
  | _ => cases h

theorem Insn.widens_verify {insn : Insn} (h : insn.isScripted = true) (thisClass : String)
    (allocation : Option Label) : Widens 1 insn.slots (insn.verify pool thisClass allocation) := by
  cases insn with
  | constNull => exact .push _
  | constInt value => exact .push _
  | constLong value => exact .push _
  | constFloat value => exact .push _
  | constDouble value => exact .push _
  | pushByte value => exact .push _
  | pushShort value => exact .push _
  | loadConstant index => exact widens_loadOfWidth index 1
  | loadWideConstant index => exact widens_loadOfWidth index 2
  | load kind index =>
    rw [Insn.verify]
    split
    · exact .bind (.getLocal _) fun _ => .ite .refuse (.push _)
    · exact .bind (.getLocal _) fun _ => .ite (.push _) .refuse
  | store kind index =>
    rw [Insn.verify]
    split
    · next expected hk =>
      have hreach := (SlotKind.width_of_type? hk).1
      exact .bind (.popExactly _) fun _ => .setLocal (hreach ▸ Nat.le_refl _)
    · next hk =>
      refine .bind .pop fun type => ?_
      by_cases href : type.isReference = true
      · rw [if_pos href]
        have hwidth := (EditType.width_of_isReference href).1
        have hkind := SlotKind.width_of_type?_none hk
        exact .setLocal (by rw [hwidth, ← hkind]; exact Nat.le_refl _)
      · rw [if_neg href]
        exact .refuse
  | increment index amount => exact .bind (.getLocal _) fun _ => .ite (.throw _) (.pure _)
  | arrayLoad kind => exact kind.widens_verifyLoad
  | arrayStore kind => exact kind.widens_verifyStore
  | arrayLength => exact .bind .pop fun _ => .ite .refuse (.push _)
  | stack op => exact op.widens_verify h
  | bitwise op ofLong => exact .ite (.operate _ _) (.operate _ _)
  | field access index => exact access.widens_verify index
  | invoke kind index => exact kind.widens_verify thisClass index
  | newRefArray index =>
    exact .bind (.popExactly _) fun _ => .bind (widens_classTypeAt _) fun _ => .push _
  | checkCast index =>
    exact .bind .popReference fun _ => .bind (widens_classTypeAt _) fun _ => .push _
  | _ => cases h

theorem Branch.widens_verify {T : Type} (returnType : Option FieldType) (branch : Branch T) :
    Widens 0 reach (branch.verify returnType) := by
  cases branch with
  | ifZero _ _ | tableSwitch _ _ _ | lookupSwitch _ _ => exact .popExactly _
  | ifInts _ _ => exact .bind (.popExactly _) fun _ => .popExactly _
  | ifRefs _ _ => exact .bind .popReference fun _ => .popReference
  | ifNull _ _ => exact .popReference
  | goto _ => exact .pure _
  | «return» kind? =>
    cases kind? with
    | none => exact .ite (.throw _) (.pure _)
    | some kind =>
      rw [Branch.verify]
      split
      · exact .bind (.popExactly _) fun _ => .ite (.throw _) (.pure _)
      · split
        · exact .ite (.popAssignable _) (.throw _)
        · exact .throw _
  | raise => exact .bind .pop fun _ => .ite (.pure _) (.throw _)

end Rules

namespace Node

/-- Is the node an instruction that control falls through? -/
def isInsn : Node → Bool
  | .insn _ => true
  | .label _ | .branch _ => false

def insns (nodes : List Node) : Nat := nodes.countP isInsn

/-- Slots up to the last that the nodes access, or all there are at the start. -/
def reach (base : Nat) : List Node → Nat
  | [] => base
  | .insn added :: rest => max added.slots (reach base rest)
  | .label _ :: rest | .branch _ :: rest => reach base rest

variable {base bound : Nat} {nodes : List Node}

theorem insns_le_cons (node : Node) (nodes : List Node) : insns nodes ≤ insns (node :: nodes) :=
  (List.sublist_cons_self node nodes).countP_le

theorem reach_le_cons (base : Nat) (node : Node) (nodes : List Node) :
    reach base nodes ≤ reach base (node :: nodes) := by
  cases node with
  | insn insn => exact Nat.le_max_right _ _
  | label | branch => exact Nat.le_refl _

theorem reach_le_of_suffix {more : List Node} (h : nodes <:+ more) : reach base nodes ≤ reach base more := by
  obtain ⟨later, rfl⟩ := h
  induction later with
  | nil => exact Nat.le_refl _
  | cons node later ih => exact Nat.le_trans ih (reach_le_cons base node (later ++ nodes))

theorem insns_lt_of_branch {branch : Branch Label} (h : .branch branch ∈ nodes) :
    insns nodes < nodes.countP (!·.isLabel) := by
  obtain ⟨front, back, rfl⟩ := List.append_of_mem h
  have plain (nodes : List Node) : insns nodes ≤ nodes.countP (!·.isLabel) :=
    List.countP_mono_left fun node _ hnode => by
      cases node with
      | insn insn => rfl
      | label | branch => cases hnode
  have hfront := plain front
  have hback := plain back
  unfold insns at *
  rw [List.countP_append, List.countP_append, List.countP_cons_of_neg Bool.false_ne_true,
    List.countP_cons_of_pos rfl]
  omega

theorem reach_le (hbase : base ≤ bound) (h : ∀ insn, .insn insn ∈ nodes → insn.slots ≤ bound) :
    reach base nodes ≤ bound := by
  induction nodes with
  | nil => exact hbase
  | cons node rest ih =>
    have hrest := ih fun insn hm => h insn (List.mem_cons_of_mem _ hm)
    cases node with
    | insn insn => exact Nat.max_le.2 ⟨h insn List.mem_cons_self, hrest⟩
    | label | branch => exact hrest

end Node

namespace EditFrame

/-- The frame is no larger than the nodes in front of it can make one. -/
structure Within (base : Nat) (nodes : List Node) (frame : EditFrame) : Prop where
  stack : frame.stack.length ≤ Node.insns nodes + 1
  locals : frame.locals.length ≤ Node.reach base nodes

namespace Within

variable {base : Nat} {nodes : List Node} {frame other : EditFrame}

theorem cons (h : frame.Within base nodes) (node : Node) : frame.Within base (node :: nodes) :=
  ⟨Nat.le_trans h.stack (Nat.succ_le_succ (Node.insns_le_cons node nodes)),
    Nat.le_trans h.locals (Node.reach_le_cons base node nodes)⟩

theorem merge {merged : EditFrame} (h : frame.Within base nodes) (h' : other.Within base nodes)
    (hm : frame.merge other = some merged) : merged.Within base nodes := by
  unfold EditFrame.merge at hm
  split at hm
  · cases hm
  · dsimp only at hm
    split at hm
    · cases hm
    · cases hm
      refine ⟨?_, ?_⟩
      · rw [List.length_zipWith]
        exact Nat.le_trans (Nat.min_le_left _ _) h.stack
      · rw [length_dropHalves, length_meetLocals]
        exact Nat.max_le.2 ⟨h.locals, h'.locals⟩

/-- Behind an instruction the frame may be larger by what the instruction makes it. -/
theorem insn {step : Verifying Unit} {insn : Insn} (h : frame.Within base nodes)
    (hstep : Verifying.Widens 1 insn.slots step) (hok : step frame = .ok ((), other)) :
    other.Within base (.insn insn :: nodes) := by
  obtain ⟨hstack, hlocals⟩ := hstep _ _ _ hok
  have hinsns : Node.insns (.insn insn :: nodes) = Node.insns nodes + 1 := List.countP_cons_of_pos rfl
  have hbefore := h.stack
  refine ⟨by omega, Nat.le_trans hlocals (Nat.max_le.2 ⟨?_, Nat.le_max_left _ _⟩)⟩
  exact Nat.le_trans h.locals (Nat.le_max_right _ _)

theorem step {step : Verifying Unit} (h : frame.Within base nodes) (hstep : Verifying.Widens 0 0 step)
    (hok : step frame = .ok ((), other)) : other.Within base nodes := by
  obtain ⟨hstack, hlocals⟩ := hstep _ _ _ hok
  have hbefore := h.stack
  have hreach := h.locals
  exact ⟨by omega, by omega⟩

end Within

end EditFrame

namespace Builder

variable {B C : Builder} {base slack : Nat} {label : Label} {frame : EditFrame}

/-- What is noted is no larger than the code can make it, and all but so many handlers have an instruction of
their own. -/
structure Recorded (base slack : Nat) (B : Builder) : Prop where
  framed : ∀ entry ∈ B.labelFrames, entry.2.Within base B.nodes
  regions : ∀ known ∈ B.regions, known.length ≤ Node.reach base B.nodes
  handlers : B.handlers.length ≤ Node.insns B.nodes + slack

/-- So is the frame at the end, and where control does not get it was led away by a jump. -/
structure Bounded (base slack : Nat) (B : Builder) : Prop extends Recorded base slack B where
  current : ∀ frame, B.frame = some frame → frame.Within base B.nodes
  ended : B.frame = none → ∃ branch, .branch branch ∈ B.nodes

namespace Recorded

theorem require (h : B.Recorded base slack) (label : Label) : (B.require label).Recorded base slack where
  framed := by
    rw [require_labelFrames, require_nodes]
    exact h.framed
  regions := by
    rw [require_regions, require_nodes]
    exact h.regions
  handlers := by
    rw [require_handlers, require_nodes]
    exact h.handlers

theorem setFrame (h : B.Recorded base slack) (label : Label) (hframe : frame.Within base B.nodes) :
    (B.setFrame label frame).Recorded base slack where
  framed entry hm := by
    rcases FrameTable.mem_set hm with rfl | hm
    · exact hframe
    · exact h.framed entry hm
  regions := h.regions
  handlers := h.handlers

theorem jumps {targets : List Label} (hj : Jumps frame targets B C) (h : B.Recorded base slack)
    (hframe : frame.Within base B.nodes) : C.Recorded base slack := by
  induction hj with
  | nil => exact h
  | @cons target rest B C D first others ih =>
    have hnodes := first.nodes_eq
    refine ih ?_ (hnodes ▸ hframe)
    cases first with
    | first => exact (h.require _).setFrame _ (by rwa [require_nodes])
    | again framed _ merges =>
      have hmerged := (h.framed _ (FrameTable.mem_of_find? framed)).merge hframe merges
      exact (h.require _).setFrame _ (by rwa [require_nodes])
    | back => exact h.require _

/-- A node at the end, with the frame behind it. -/
theorem append (h : B.Recorded base slack) {node : Node} {more : Nat} {frame : Option EditFrame}
    (hcount : Node.insns B.nodes + slack ≤ Node.insns (node :: B.nodes) + more)
    (current : ∀ behind, frame = some behind → behind.Within base (node :: B.nodes))
    (ended : frame = none → ∃ branch, .branch branch ∈ node :: B.nodes) (pending : Option Label) :
    ({ B with frame := frame }.append node pending).Bounded base more where
  framed := by
    rw [append_labelFrames, append_nodes]
    exact fun entry hm => (h.framed entry hm).cons node
  regions := by
    have hregions : ∀ known ∈ B.regions, known.length ≤ Node.reach base (node :: B.nodes) := fun known hm =>
      Nat.le_trans (h.regions known hm) (Node.reach_le_cons base node B.nodes)
    rw [append_regions, append_nodes]
    cases frame with
    | none => exact hregions
    | some behind =>
      intro known hm
      obtain ⟨before, hbefore, rfl⟩ := List.mem_map.1 hm
      rw [EditFrame.length_dropHalves, EditFrame.length_meetLocals]
      exact Nat.max_le.2 ⟨hregions before hbefore, (current behind rfl).locals⟩
  handlers := by
    rw [append_handlers, append_nodes]
    exact Nat.le_trans h.handlers hcount
  current := by
    rw [append_frame, append_nodes]
    exact current
  ended := by
    rw [append_frame, append_nodes]
    exact ended

/-- A node that control gets past. -/
theorem appendReached (h : B.Recorded base slack) {node : Node} {more : Nat}
    (hcount : Node.insns B.nodes + slack ≤ Node.insns (node :: B.nodes) + more)
    (hframe : frame.Within base (node :: B.nodes)) (pending : Option Label) :
    ({ B with frame := some frame }.append node pending).Bounded base more := by
  refine append h hcount (fun behind he => ?_) (fun he => ?_) pending
  · cases he
    exact hframe
  · cases he

end Recorded

namespace Bounded

theorem start (pool : ConstantPool) (labels : LabelSupply) (shape : MethodShape) :
    (Builder.start pool labels shape shape.entryFrame).Bounded shape.entryFrame.locals.length 0 where
  framed := fun _ hm => nomatch hm
  regions := fun _ hm => nomatch hm
  handlers := Nat.zero_le _
  current frame hf := by
    cases hf
    exact ⟨Nat.zero_le _, Nat.le_refl _⟩
  ended hf := nomatch hf

theorem mono {more : Nat} (h : B.Bounded base slack) (hle : slack ≤ more) : B.Bounded base more :=
  ⟨⟨h.framed, h.regions, Nat.le_trans h.handlers (Nat.add_le_add_left hle _)⟩, h.current, h.ended⟩

theorem withPool (h : B.Bounded base slack) (pool : ConstantPool) : { B with pool := pool }.Bounded base slack :=
  ⟨⟨h.framed, h.regions, h.handlers⟩, h.current, h.ended⟩

theorem withLabels (h : B.Bounded base slack) (labels : LabelSupply) :
    { B with labels := labels }.Bounded base slack :=
  ⟨⟨h.framed, h.regions, h.handlers⟩, h.current, h.ended⟩

theorem arrival (h : B.Bounded base slack) (arrives : B.arrival? label = some frame) :
    frame.Within base B.nodes := by
  have jumped : ∀ before, B.labelFrames.find? label = some before → before.Within base B.nodes :=
    fun before hf => h.framed _ (FrameTable.mem_of_find? hf)
  unfold arrival? at arrives
  split at arrives
  · next hcurrent hjumped => exact (jumped _ hjumped).merge (h.current _ hcurrent) arrives
  · next hcurrent _ =>
    cases arrives
    exact h.current _ hcurrent
  · exact jumped _ arrives

/-- A label at the end, with the frame that is noted for it. -/
theorem appendLabel (h : B.Recorded base slack) (hframe : frame.Within base B.nodes) (label : Label) :
    ({ B with frame := some frame }.append (.label label) (some label)).Bounded base slack :=
  h.appendReached (Nat.le_refl _) (hframe.cons _) _

theorem placed (h : B.Bounded base slack) (arrives : B.arrival? label = some frame) :
    (B.placed label frame).Bounded base slack := by
  have hframe := h.arrival arrives
  unfold Builder.placed
  split
  · exact .appendLabel (h.toRecorded.setFrame label hframe) hframe label
  · exact .appendLabel ((h.toRecorded.require label).setFrame label (by rwa [require_nodes]))
      (by rwa [setFrame, require_nodes]) label

/-- A label where nothing arrives. -/
theorem stopped (h : B.Bounded base slack) (unreachable : B.frame = none) :
    ({ B with labels := B.labels.fresh.2 }.append (.label B.labels.fresh.1) (some B.labels.fresh.1)).Bounded base
      slack := by
  have hended : ∃ branch, .branch branch ∈ .label B.labels.fresh.1 :: B.nodes :=
    (h.ended unreachable).imp fun _ => List.mem_cons_of_mem _
  have happend := (h.withLabels B.labels.fresh.2).toRecorded.append (Nat.le_refl _)
    (fun behind hf => nomatch unreachable.symm.trans hf) (fun _ => hended) (some B.labels.fresh.1)
  exact happend

theorem stops (stops : Stops B C) (h : B.Bounded base slack) : C.Bounded base slack := by
  cases stops with
  | reached _ arrives => exact (h.withLabels B.labels.fresh.2).placed arrives
  | unreached unreachable => exact h.stopped unreachable

/-- An instruction takes up a handler that has none of its own yet. -/
theorem insn {insn : Insn} {before after : EditFrame} (h : B.Bounded base (slack + 1))
    (hscripted : insn.isScripted = true) (hf : B.frame = some before)
    (hverify : insn.verify B.pool B.shape.thisClass B.pending before = .ok ((), after)) :
    ({ B with frame := some after }.append (.insn insn) none).Bounded base slack := by
  have hafter := (h.current before hf).insn (Insn.widens_verify hscripted _ _) hverify
  refine h.toRecorded.appendReached ?_ hafter none
  have hinsns : Node.insns (.insn insn :: B.nodes) = Node.insns B.nodes + 1 := List.countP_cons_of_pos rfl
  omega

theorem branch {branch : Branch Label} {before after : EditFrame} {D : Builder} (h : B.Bounded base slack)
    (hf : B.frame = some before) (hverify : branch.verify B.shape.returnType before = .ok ((), after))
    (hjumps : Jumps after branch.jumpTargets { B with frame := none } D) :
    ({ D with frame := if branch.fallsThrough then some after else none }.append (.branch branch) none).Bounded base
      slack := by
  have hnodes : D.nodes = B.nodes := hjumps.nodes_eq
  have hafter : after.Within base B.nodes := (h.current before hf).step (branch.widens_verify _) hverify
  have recorded : D.Recorded base slack :=
    Recorded.jumps hjumps ⟨h.framed, h.regions, h.handlers⟩ hafter
  refine recorded.append ?_ (fun behind he => ?_) (fun _ => ⟨branch, List.mem_cons_self⟩) none
  · exact Nat.add_le_add_right (Node.insns_le_cons _ _) _
  · split at he
    · cases he
      rw [hnodes]
      exact hafter.cons _
    · cases he

theorem enter {current : EditFrame} (h : B.Bounded base slack) (hf : B.frame = some current)
    (arrives : B.arrival? label = some frame) :
    (({ B with labels := B.labels.fresh.2 }.placed label frame).opened current.locals).Bounded base slack := by
  have hplaced := (h.withLabels B.labels.fresh.2).placed arrives
  refine ⟨⟨hplaced.framed, List.forall_mem_cons.2 ⟨?_, hplaced.regions⟩, hplaced.handlers⟩, hplaced.current,
    hplaced.ended⟩
  rw [opened, placed_nodes]
  exact Nat.le_trans (h.current current hf).locals (Node.reach_le_cons _ _ _)

/-- The end of a region adds a handler, and tells a frame for it. -/
theorem leave {start stop : Label} {catchType : Option String} {known : List EditType} {outer : List (List EditType)}
    (h : B.Bounded base slack) (inside : B.regions = known :: outer) :
    (B.left start stop catchType known outer).Bounded base (slack + 1) ∧
      EditFrame.Within base (B.left start stop catchType known outer).nodes ⟨known, [caughtType catchType]⟩ := by
  obtain ⟨hknown, houter⟩ := List.forall_mem_cons.1 (inside ▸ h.regions)
  have hframe : EditFrame.Within base B.nodes ⟨known, [caughtType catchType]⟩ := ⟨Nat.le_add_left _ _, hknown⟩
  rw [left_nodes]
  refine ⟨⟨⟨?_, ?_, ?_⟩, ?_, ?_⟩, hframe⟩
  · intro entry hm
    rw [left_nodes]
    rcases FrameTable.mem_set hm with rfl | hm
    · exact hframe
    · rw [require_labelFrames] at hm
      exact h.framed entry hm
  · rw [left_regions, left_nodes]
    exact houter
  · rw [left_handlers, left_nodes]
    exact Nat.succ_le_succ h.handlers
  · rw [left_frame, left_nodes]
    exact h.current
  · rw [left_frame, left_nodes]
    exact h.ended

end Bounded

section Steps

theorem keeps_interning_bounded {α : Type} (step : Interning α) :
    Keeps (Bounded base slack) (interning step) := fun B value C h hstep => by
  obtain ⟨pool, -, rfl⟩ := interning_eq_ok.1 hstep
  exact h.withPool pool

theorem Bounded.push {insn : Insn} {u : Unit} (hscripted : insn.isScripted = true)
    (h : B.Bounded base (slack + 1)) (hpush : Builder.push insn B = .ok u C) : C.Bounded base slack := by
  obtain ⟨before, after, hf, hverify, rfl⟩ := push_eq_ok (Insn.ne_new hscripted) hpush
  exact h.insn hscripted hf hverify

theorem keeps_push_bounded {insn : Insn} (hscripted : insn.isScripted = true) :
    Keeps (Bounded base slack) (push insn) := fun _ _ _ h hpush =>
  (h.mono (Nat.le_succ _)).push hscripted hpush

theorem keeps_pushBranch_bounded (branch : Branch Label) :
    Keeps (Bounded base slack) (pushBranch branch) := fun B u C h hpush => by
  obtain ⟨before, after, D, hf, hverify, hjumps, rfl⟩ := pushBranch_eq_ok hpush
  exact h.branch hf hverify hjumps

theorem keeps_fresh_bounded : Keeps (Bounded base slack) fresh := fun B _ _ h hfresh => by
  obtain ⟨-, rfl⟩ := fresh_eq_ok.1 hfresh
  exact h.withLabels B.labels.fresh.2

theorem keeps_place_bounded (label : Label) : Keeps (Bounded base slack) (place label) := fun _ _ _ h hplace => by
  obtain ⟨-, frame, arrives, rfl⟩ := place_eq_ok hplace
  exact h.placed arrives

theorem Bounded.placeWith {u : Unit} (h : B.Bounded base slack) (hframe : frame.Within base B.nodes)
    (hplace : Builder.placeWith label frame B = .ok u C) : C.Bounded base slack := by
  obtain ⟨-, -, rfl⟩ := placeWith_eq_ok hplace
  exact .appendLabel ((h.toRecorded.require label).setFrame label (by rwa [require_nodes]))
    (by rwa [setFrame, require_nodes]) label

theorem keeps_beginTry_bounded : Keeps (Bounded base slack) beginTry := fun B _ _ h hbegin => by
  obtain ⟨-, current, frame, hf, -, arrives, rfl⟩ := beginTry_eq_ok hbegin
  exact h.enter hf arrives

theorem Bounded.endTry {start : Label} {catchType : Option String} (h : B.Bounded base slack)
    (hend : Builder.endTry start catchType B = .ok (label, frame) C) :
    C.Bounded base (slack + 1) ∧ frame.Within base C.nodes := by
  obtain ⟨D, known, outer, stops, hregions, rfl, rfl, rfl⟩ := endTry_eq_ok hend
  exact (Bounded.stops stops h).leave hregions

theorem keeps_pop_bounded : Keeps (Bounded base slack) Builder.pop := .bind .get fun B => by
  split
  · exact keeps_push_bounded (by split <;> rfl)
  · exact keeps_push_bounded rfl

/-- What is dropped from the stack takes an instruction. -/
theorem Bounded.pop {u : Unit} (h : B.Bounded base (slack + 1)) (hpop : Builder.pop B = .ok u C) :
    C.Bounded base slack := by
  unfold Builder.pop at hpop
  rw [get_bind_eq_ok] at hpop
  cases hf : B.frame with
  | none =>
    rw [hf] at hpop
    exact h.push rfl hpop
  | some frame =>
    obtain ⟨locals, _ | ⟨type, rest⟩⟩ := frame
    · rw [hf] at hpop
      exact h.push rfl hpop
    · rw [hf] at hpop
      exact h.push (by split <;> rfl) hpop

theorem composes_bounded : Composes fun _ => Keeps (ε := ClassError) (Bounded base slack) where
  pure := .pure
  throw := .throw
  bind := .bind
  intern _ _ := keeps_interning_bounded _
  push _ operates := keeps_push_bounded (Insn.isScripted_of_isOperation operates)

end Steps

end Builder

namespace Compiler

open Builder

variable {base slack : Nat} {c c' : Compiler}

def Bounded (base slack : Nat) (c : Compiler) : Prop := c.builder.Bounded base slack

theorem keeps_lift_bounded {α : Type} {step : Building α} (h : Keeps (Builder.Bounded base slack) step) :
    Keeps (Bounded base slack) (liftM step : Compiling α) := fun c a c' hc hstep => by
  obtain ⟨B, hB, rfl⟩ := lift_eq_ok.1 hstep
  exact h _ _ _ hc hB

theorem composesOpen_bounded : ComposesOpen (fun _ _ => True)
    (fun _ => Keeps (ε := ClassError) (Builder.Bounded base slack))
    fun _ => Keeps (ε := PatchError) (Bounded base slack) where
  building := Builder.composes_bounded
  lift := keeps_lift_bounded
  pure := .pure
  throw := .throw
  bind := .bind
  shape := .bind .get fun _ => .pure _
  argument index _ _ hn := .bind (fun _ _ _ hc h => (Host.argument_eq_ok h).2 ▸ hc) fun v => hn v.1 v.2 trivial
  lookUp name _ _ hn := .bind (fun _ _ _ hc h => (lookUp_eq_ok h).1 ▸ hc) fun v => hn v.1 v.2 trivial
  store _ _ _ := keeps_push_bounded rfl
  fresh := keeps_fresh_bounded
  place := keeps_place_bounded
  pushBranch := keeps_pushBranch_bounded
  beginTry := keeps_beginTry_bounded
  pop := keeps_pop_bounded
  returning := .bind .get fun _ => keeps_pushBranch_bounded _
  isReachable := .bind .get fun _ => .pure _
  isJumpedTo _ := .bind .get fun _ => .pure _
  allocate type _ _ hn := by
    refine .bind (fun c slot c' hc h => ?_) fun slot => hn slot trivial
    obtain ⟨-, next, -, rfl⟩ := allocate_eq_ok h
    exact hc
  declare name slot type _ c u c' hc h := by
    cases h
    exact hc

/-- What is caught takes an instruction. -/
theorem Bounded.caught {catchType binding : Option String} {u : Unit} (h : c.Bounded base (slack + 1))
    (hcaught : Compiler.caught catchType binding c = .ok u c') : c'.Bounded base slack := by
  cases binding with
  | none =>
    obtain ⟨B, hpop, rfl⟩ := lift_eq_ok.1 hcaught
    exact Builder.Bounded.pop h hpop
  | some name =>
    have bound {type : FieldType} (hbind : Compiler.bind name type c = .ok u c') : c'.Bounded base slack := by
      obtain ⟨slot, c₁, hslot, hbind⟩ := bind_eq_ok.1 hbind
      obtain ⟨_, B, hpush, hdeclare⟩ := lift_bind_eq_ok.1 hbind
      obtain ⟨rfl, next, -, rfl⟩ := allocate_eq_ok hslot
      cases hdeclare
      have hpush : Builder.push (.store (SlotKind.ofFieldType type) c.nextLocal) c.builder = .ok _ B := hpush
      exact Builder.Bounded.push rfl h hpush
    cases catchType with
    | none => exact bound hcaught
    | some found =>
      obtain ⟨type, c₁, htype, hbind⟩ := bind_eq_ok.1 hcaught
      unfold classType at htype
      cases hparse : RefType.ofClassName found with
      | ok caught =>
        rw [hparse] at htype
        obtain ⟨-, rfl⟩ := pure_eq_ok.1 htype
        exact bound hbind
      | error problem =>
        rw [hparse] at htype
        exact (throw_ne_ok.1 htype).elim

theorem composes_bounded : Composes (fun _ _ => True) (fun _ => Keeps (ε := ClassError) (Builder.Bounded base slack))
    fun _ => Keeps (ε := PatchError) (Bounded base slack) where
  toComposesOpen := composesOpen_bounded
  handling start after catchType binding c u c' hc h := by
    obtain ⟨⟨label, frame⟩, B, hB, h⟩ := lift_bind_eq_ok.1 h
    obtain ⟨_, c₂, hgoto, h⟩ := bind_eq_ok.1 h
    obtain ⟨_, D, hD, hcaught⟩ := lift_bind_eq_ok.1 h
    obtain ⟨bounded, hframe⟩ := Builder.Bounded.endTry hc hB
    have hended : Compiler.Bounded base (slack + 1) { c with builder := B } := bounded
    have hgone : c₂.Bounded base (slack + 1) := composesOpen_bounded.gotoIfReachable after _ _ _ hended hgoto
    have hstill : frame.Within base c₂.builder.nodes := by
      rcases Host.gotoIfReachable_cases hgoto with ⟨rfl, -⟩ | ⟨E, hE, rfl⟩
      · exact hframe
      · obtain ⟨_, _, F, -, -, hjumps, rfl⟩ := pushBranch_eq_ok hE
        rw [append_nodes]
        exact hjumps.nodes_eq ▸ hframe.cons _
    exact Bounded.caught (Builder.Bounded.placeWith hgone hstill hD) hcaught

end Compiler

/-- Every instruction takes a byte. -/
theorem Layout.countP_le_reach (offset : Nat) (flagged : List (Node × Bool)) :
    offset + (flagged.map Prod.fst).countP (!·.isLabel) ≤ Layout.reach offset flagged := by
  induction flagged generalizing offset with
  | nil => exact Nat.le_refl _
  | cons entry rest ih =>
    obtain ⟨node, wide⟩ := entry
    have hrest := ih (offset + (Placed.mk node wide offset).width)
    rw [Layout.reach, List.map_cons]
    cases hl : node.isLabel with
    | true =>
      rw [List.countP_cons_of_neg (by simp [hl])]
      omega
    | false =>
      have hwidth : 0 < (Placed.mk node wide offset).width := Placed.width_pos hl
      rw [List.countP_cons_of_pos (by simp [hl])]
      omega

namespace Replacement

variable {replacement : Replacement} {old : Option MethodBody} {body : MethodBody} {pool pool' : ConstantPool}

/-- The handlers of a compiled script, and its frames, are no more than its instructions, and what the frames tell
of the locals is no more than its code accesses. -/
theorem bounded_of_apply (h : replacement.apply old pool = .ok (.patched body) pool') {bound : Nat}
    (few : ∀ before, old = some before → before.shape.descriptor.parameterSlots (!before.shape.isStatic) ≤ bound)
    (accesses : ∀ insn, .insn insn ∈ body.nodes → insn.slots ≤ bound) :
    body.handlers.length < body.instructionCount ∧ ∀ entry ∈ body.frames,
      entry.2.stack.length ≤ body.instructionCount ∧ entry.2.locals.length ≤ bound := by
  obtain ⟨before, compiler, hold, hmethod, -, hrun, compiled⟩ := built_of_apply h
  have started : (Compiler.start (.start pool ⟨0⟩ before.shape before.shape.entryFrame) 0).Bounded
      before.shape.entryFrame.locals.length 0 := Builder.Bounded.start pool ⟨0⟩ before.shape
  have bounded : compiler.builder.Bounded before.shape.entryFrame.locals.length 0 :=
    Compiler.composes_bounded.block replacement.body _ _ _ started hrun
  obtain ⟨branch, hbranch⟩ := bounded.ended compiled.ended
  have hcount : Node.insns compiler.builder.nodes < body.instructionCount := by
    rw [MethodBody.instructionCount, compiled.nodes, List.countP_reverse]
    exact Node.insns_lt_of_branch hbranch
  have hreach : Node.reach before.shape.entryFrame.locals.length compiler.builder.nodes ≤ bound :=
    Node.reach_le (MethodShape.length_entryFrame hmethod ▸ few before hold) fun insn hm =>
      accesses insn (compiled.mem_nodes.2 hm)
  refine ⟨?_, fun entry hm => ?_⟩
  · rw [compiled.handlers, List.length_reverse]
    exact Nat.lt_of_le_of_lt bounded.handlers hcount
  · have within := bounded.framed entry (FrameTable.mem_of_find? (compiled.mem_frames hm).1)
    exact ⟨Nat.le_trans within.stack hcount, Nat.le_trans within.locals hreach⟩

end Replacement

end ClassWeave
