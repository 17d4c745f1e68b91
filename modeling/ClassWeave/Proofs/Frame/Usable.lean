import ClassWeave.Proofs.Frame.Fitting
import ClassWeave.Proofs.Script.Composing

/-!
Stacks of values that can be used. The instructions of scripts put no unusable entry on the stack, so a jump back
that the typing rules accept finds values of the same widths there.
-/

namespace ClassWeave

open Verifying EditFrame

/-- Every value on the stack can be used. -/
def EditFrame.Usable (frame : EditFrame) : Prop := .top ∉ frame.stack

/-- On a usable stack the rule gives what has the property, and leaves a usable stack. -/
def Verifying.Provides {α : Type} (step : Verifying α) (Q : α → Prop) : Prop :=
  ∀ before a after, before.Usable → step before = .ok (a, after) → after.Usable ∧ Q a

namespace Verifying.Provides

variable {α β : Type} {Q : α → Prop} {R : β → Prop}

theorem pure {a : α} (h : Q a) : Provides (Pure.pure a : Verifying α) Q := fun _ _ _ hu hs => by
  obtain ⟨rfl, rfl⟩ := stateT_pure_eq_ok.1 hs
  exact ⟨hu, h⟩

theorem throw (problem : VerifyError) : Provides (throw problem : Verifying α) Q := fun _ _ _ _ hs =>
  (stateT_throw_ne_ok.1 hs).elim

theorem bind {step : Verifying α} {next : α → Verifying β} (hs : Provides step Q)
    (hn : ∀ a, Q a → Provides (next a) R) : Provides (step >>= next) R := fun before b after hu h => by
  obtain ⟨a, middle, ha, hb⟩ := stateT_bind_eq_ok.1 h
  obtain ⟨hm, hq⟩ := hs before a middle hu ha
  exact hn a hq middle b after hm hb

theorem ite {c : Prop} [Decidable c] {a b : Verifying α} (ha : c → Provides a Q) (hb : ¬c → Provides b Q) :
    Provides (if c then a else b) Q := by
  split
  · next h => exact ha h
  · next h => exact hb h

/-- Nothing behind a refusal is run. -/
theorem refuse {problem : VerifyError} {next : α → Verifying β} :
    Provides (MonadExcept.throw problem >>= next) R := .bind (Q := fun _ => False) (.throw _) fun _ h => h.elim

theorem modify {f : EditFrame → EditFrame} (hf : ∀ frame, frame.Usable → (f frame).Usable) :
    Provides (modify f : Verifying Unit) fun _ => True := fun before _ after hu hs => by
  cases hs
  exact ⟨hf before hu, trivial⟩

theorem forM {step : β → Verifying Unit} (hs : ∀ b, Provides (step b) fun _ => True) (items : List β) :
    Provides (items.forM step) fun _ => True := by
  induction items with
  | nil => exact .pure trivial
  | cons item rest ih => exact .bind (hs item) fun _ _ => ih

theorem pushAll {types : List EditType} (h : .top ∉ types) : Provides (pushAll types) fun _ => True :=
  .modify fun _ hu hm => (List.mem_append.1 hm).elim (fun hr => h (List.mem_reverse.1 hr)) hu

theorem push {type : EditType} (h : type ≠ .top) : Provides (push type) fun _ => True :=
  .modify fun _ hu hm => (List.mem_cons.1 hm).elim (fun he => h he.symm) hu

theorem pop : Provides pop (· ≠ .top) := fun before type after hu hs => by
  unfold Verifying.pop at hs
  split at hs
  · cases hs
  · next first rest hstack =>
    cases hs
    unfold Usable at hu
    rw [hstack, List.mem_cons, not_or] at hu
    exact ⟨hu.2, Ne.symm hu.1⟩

theorem popNarrow : Provides popNarrow (· ≠ .top) :=
  .bind .pop fun _ h => .ite (fun _ => .refuse) fun _ => .pure h

theorem popExactly (expected : EditType) : Provides (popExactly expected) fun _ => True :=
  .bind .pop fun _ _ => .ite (fun _ => .throw _) fun _ => .pure trivial

theorem popAssignable (expected : EditType) : Provides (popAssignable expected) fun _ => True :=
  .bind .pop fun _ _ => .ite (fun _ => .pure trivial) fun _ => .throw _

theorem popReference : Provides popReference fun _ => True :=
  .bind .pop fun _ _ => .ite (fun _ => .pure trivial) fun _ => .throw _

theorem getLocal (slot : UInt16) : Provides (getLocal slot) fun _ => True := fun before type after hu hs => by
  obtain ⟨rfl, -⟩ := getLocal_eq_ok hs
  exact ⟨hu, trivial⟩

theorem setLocal (slot : UInt16) (type : EditType) : Provides (setLocal slot type) fun _ => True :=
  .modify fun _ hu => hu

theorem operate {operands : List EditType} {result : EditType} (h : result ≠ .top) :
    Provides (operate operands result) fun _ => True := .bind (.forM popExactly _) fun _ _ => .push h

end Verifying.Provides

section Rules

variable {pool : ConstantPool} {index : PoolIndex}

theorem provides_initialized {object initialized : EditType} (h : initialized ≠ .top) :
    Provides (modify fun frame => EditFrame.initialize frame object initialized) fun _ => True := by
  refine .modify fun frame hu hm => ?_
  obtain ⟨type, hmem, htype⟩ := List.mem_map.1 hm
  split at htype
  · exact h htype
  · exact hu (htype ▸ hmem)

theorem ArrayKind.provides_popArray (classes : List String) : Provides (popArray classes) fun _ => True :=
  .bind .pop fun type _ => by
    cases type with
    | null => exact .pure trivial
    | object name => exact .ite (fun _ => .pure trivial) fun _ => .throw _
    | _ => exact .throw _

theorem ArrayKind.provides_referenceElement (array : EditType) :
    Provides (referenceElement array) (· ≠ .top) := by
  unfold referenceElement
  split
  · exact .ite (fun h => .pure (EditType.width_of_isReference h).2) fun _ => .throw _
  · exact .throw _

theorem ArrayKind.provides_verifyLoad (kind : ArrayKind) : Provides kind.verifyLoad fun _ => True :=
  .bind (.popExactly _) fun _ _ => by
    split
    · next element classes hkind =>
      have husable : element ≠ .top := by cases kind <;> cases hkind <;> nofun
      exact .bind (provides_popArray classes) fun _ _ => .push husable
    · refine .bind .pop fun array _ => ?_
      split
      · exact .push nofun
      · exact .bind (provides_referenceElement _) fun _ h => .push h

theorem ArrayKind.provides_verifyStore (kind : ArrayKind) : Provides kind.verifyStore fun _ => True := by
  unfold verifyStore
  split
  · exact .bind (.popExactly _) fun _ _ => .bind (.popExactly _) fun _ _ => provides_popArray _
  · refine .bind .pop fun value _ => .bind (.popExactly _) fun _ _ => .bind .pop fun array _ => ?_
    refine .ite (fun _ => .ite (fun _ => ?_) fun _ => .pure trivial) fun _ => .refuse
    exact .bind (provides_referenceElement array) fun _ _ => .ite (fun _ => .pure trivial) fun _ => .throw _

theorem FieldAccess.provides_verify (access : FieldAccess) : Provides (access.verify pool index) fun _ => True := by
  unfold FieldAccess.verify
  split
  · exact .throw _
  · split
    · exact .throw _
    · next type _ =>
      have husable := EditType.ofFieldType_ne_top type
      cases access with
      | getStatic => exact .push husable
      | putStatic => exact .popAssignable _
      | getField => exact .bind (.popAssignable _) fun _ _ => .push husable
      | putField => exact .bind (.popAssignable _) fun _ _ => .popAssignable _

theorem provides_pushReturn (method : MethodDescriptor) : Provides (pushReturn method) fun _ => True := by
  unfold pushReturn
  split
  · exact .push (EditType.ofFieldType_ne_top _)
  · exact .pure trivial

theorem InvokeKind.provides_verify (thisClass : String) (kind : InvokeKind) :
    Provides (kind.verify pool thisClass index) fun _ => True := by
  unfold InvokeKind.verify
  split
  · exact .throw _
  · split
    · exact .throw _
    · next method _ _ descriptor _ =>
      have result := provides_pushReturn descriptor
      have made (receiver : EditType) (name : String) : Provides (do
          modify fun frame => EditFrame.initialize frame receiver (.object name)
          if descriptor.returnType.isSome then throw .badType
          pushReturn descriptor) fun _ => True :=
        .bind (provides_initialized nofun) fun _ _ => .ite (fun _ => .refuse) fun _ => result
      extract_lets last call
      have hcall (u : Unit) : Provides (call u) fun _ => True := by
        refine .bind (.forM (fun _ => .popAssignable _) _) fun _ _ => .ite (fun _ => ?_) fun _ =>
          .ite (fun _ => .bind (.popAssignable _) fun _ _ => result) fun _ => result
        refine .bind .pop fun receiver _ => ?_
        cases receiver with
        | uninitializedThis => exact made _ _
        | uninitialized label => exact made _ _
        | _ => exact .refuse
      split
      · exact .ite (fun _ => .refuse) fun _ => hcall ()
      · exact hcall ()

theorem provides_classTypeAt : Provides (classTypeAt pool index) fun _ => True := by
  unfold classTypeAt
  split
  · exact .throw _
  · split
    · exact .pure trivial
    · exact .throw _

theorem provides_loadOfWidth (width : Nat) : Provides (Insn.verify.loadOfWidth pool index width) fun _ => True := by
  unfold Insn.verify.loadOfWidth
  split
  · exact .throw _
  · exact .ite (fun _ => .refuse) fun _ => .push (EditType.ofFieldType_ne_top _)

/-- A copy of a value that can be used can be used. -/
theorem StackOp.provides_verify {op : StackOp} (h : (Insn.stack op).isScripted = true) :
    Provides op.verify fun _ => True := by
  cases op with
  | dup => exact .bind .popNarrow fun a ha => .pushAll (by simp [ha.symm])
  | pop => exact .bind .popNarrow fun _ _ => .pure trivial
  | pop2 =>
    exact .bind .pop fun _ _ => .ite (fun _ => .pure trivial) fun _ => .bind .popNarrow fun _ _ => .pure trivial
  | _ => cases h

theorem SlotKind.provides_load (kind : SlotKind) (slot : UInt16) (thisClass : String) (allocation : Option Label) :
    Provides ((Insn.load kind slot).verify pool thisClass allocation) fun _ => True := by
  unfold Insn.verify
  dsimp only
  split
  · next expected hkind =>
    exact .bind (.getLocal slot) fun _ _ => .ite (fun _ => .refuse) fun _ => .push (SlotKind.width_of_type? hkind).2
  · exact .bind (.getLocal slot) fun type _ =>
      .ite (fun h => .push (EditType.width_of_isReference h).2) fun _ => .refuse

theorem SlotKind.provides_store (kind : SlotKind) (slot : UInt16) (thisClass : String) (allocation : Option Label) :
    Provides ((Insn.store kind slot).verify pool thisClass allocation) fun _ => True := by
  unfold Insn.verify
  dsimp only
  split
  · exact .bind (.popExactly _) fun _ _ => .setLocal _ _
  · exact .bind .pop fun _ _ => .ite (fun _ => .setLocal _ _) fun _ => .refuse

/-- An instruction of a script leaves values that can be used. -/
theorem Insn.provides_verify {insn : Insn} (h : insn.isScripted = true) (thisClass : String)
    (allocation : Option Label) : Provides (insn.verify pool thisClass allocation) fun _ => True := by
  cases insn with
  | constNull | constInt | constLong | constFloat | constDouble | pushByte | pushShort => exact .push nofun
  | loadConstant index => exact provides_loadOfWidth 1
  | loadWideConstant index => exact provides_loadOfWidth 2
  | load kind slot => exact kind.provides_load slot _ _
  | store kind slot => exact kind.provides_store slot _ _
  | increment slot amount => exact .bind (.getLocal slot) fun _ _ => .ite (fun _ => .throw _) fun _ => .pure trivial
  | arrayLoad kind => exact kind.provides_verifyLoad
  | arrayStore kind => exact kind.provides_verifyStore
  | arrayLength => exact .bind .pop fun _ _ => .ite (fun _ => .refuse) fun _ => .push nofun
  | stack op => exact op.provides_verify h
  | bitwise op ofLong => exact .ite (fun _ => .operate nofun) fun _ => .operate nofun
  | field access index => exact access.provides_verify
  | invoke kind index => exact kind.provides_verify thisClass
  | newRefArray index => exact .bind (.popExactly _) fun _ _ => .bind provides_classTypeAt fun _ _ => .push nofun
  | checkCast index => exact .bind .popReference fun _ _ => .bind provides_classTypeAt fun _ _ => .push nofun
  | _ => cases h

theorem Branch.provides_verify {T : Type} (returnType : Option FieldType) (branch : Branch T) :
    Provides (branch.verify returnType) fun _ => True := by
  cases branch with
  | ifZero | tableSwitch | lookupSwitch => exact .popExactly _
  | ifInts => exact .bind (.popExactly _) fun _ _ => .popExactly _
  | ifRefs => exact .bind .popReference fun _ _ => .popReference
  | ifNull => exact .popReference
  | goto => exact .pure trivial
  | «return» kind? =>
    cases kind? with
    | none => exact .ite (fun _ => .throw _) fun _ => .pure trivial
    | some kind =>
      unfold Branch.verify
      dsimp only
      split
      · exact .bind (.popExactly _) fun _ _ => .ite (fun _ => .throw _) fun _ => .pure trivial
      · split
        · exact .ite (fun _ => .popAssignable _) fun _ => .throw _
        · exact .throw _
  | raise => exact .bind .pop fun _ _ => .ite (fun _ => .pure trivial) fun _ => .throw _

end Rules

namespace EditFrame

variable {a b merged : EditFrame}

/-- A stack that flows into a usable one has values of the same widths. -/
theorem widths_of_flows {R : EditType → EditType → Prop} (h : List.Forall₂ R a.stack b.stack) (usable : b.Usable)
    (same : ∀ s t, R s t → t ≠ .top → s.width = t.width) : a.widths = b.widths := by
  unfold Usable at usable
  unfold widths
  generalize a.stack = as at h
  generalize b.stack = bs at h usable
  induction h with
  | nil => rfl
  | cons first rest ih =>
    rw [List.mem_cons, not_or] at usable
    rw [List.map_cons, List.map_cons, ih usable.2, same _ _ first (Ne.symm usable.1)]

theorem widths_of_isAssignableTo (h : a.isAssignableTo b = true) (usable : b.Usable) : a.widths = b.widths :=
  widths_of_flows (isAssignableTo_iff.1 h).stack usable fun _ _ ha hne => (EditType.width_of_assignable ha hne).1

theorem usable_merge (h : a.merge b = some merged) : merged.Usable := by
  unfold merge at h
  split at h
  · cases h
  · dsimp only at h
    split at h
    · cases h
    · next hnone =>
      cases h
      exact fun hm => hnone (List.contains_iff_mem.2 hm)

/-- Stacks that are merged have values of the same widths. -/
theorem widths_merge (h : a.merge b = some merged) : merged.widths = a.widths ∧ merged.widths = b.widths := by
  have same (s t : EditType) (hw : EditType.Weakens s t) (hne : t ≠ .top) : s.width = t.width :=
    (EditType.width_of_weakens hw hne).1
  exact ⟨(widths_of_flows (flows_merge_left h).stack (usable_merge h) same).symm,
    (widths_of_flows (flows_merge_right h).stack (usable_merge h) same).symm⟩

end EditFrame

end ClassWeave
