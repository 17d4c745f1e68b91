import ClassWeave.Frame.Verify
import ClassWeave.Proofs.Frame.Flow
import ClassWeave.Proofs.Pool.Growth

/-!
What the typing rules depend on. A rule that holds on a pool holds on every larger one, and the types
behind an instruction are plain ones, types from in front of it, or the object it allocates.
-/

namespace ClassWeave

section Growth

variable {p q : ConstantPool} {index : PoolIndex} {before after : EditFrame}

theorem classTypeAt_of_le (h : p ≤ q) {type : RefType}
    (ht : classTypeAt p index before = .ok (type, after)) :
    classTypeAt q index before = .ok (type, after) := by
  unfold classTypeAt at ht ⊢
  cases hp : p.className index with
  | error problem => rw [hp] at ht; cases ht
  | ok name => rw [hp] at ht; rw [ConstantPool.className_of_le h hp]; exact ht

theorem loadOfWidth_of_le (h : p ≤ q) {width : Nat}
    (ht : Insn.verify.loadOfWidth p index width before = .ok ((), after)) :
    Insn.verify.loadOfWidth q index width before = .ok ((), after) := by
  unfold Insn.verify.loadOfWidth at ht ⊢
  cases hp : p.loadableType index with
  | error problem => rw [hp] at ht; cases ht
  | ok type => rw [hp] at ht; rw [ConstantPool.loadableType_of_le h hp]; exact ht

/-- Looking up more constants does not change a rule. -/
theorem Insn.verify_of_le (h : p ≤ q) {thisClass : String} {allocation : Option Label} {insn : Insn}
    (hv : insn.verify p thisClass allocation before = .ok ((), after)) :
    insn.verify q thisClass allocation before = .ok ((), after) := by
  cases insn with
  | loadConstant index => exact loadOfWidth_of_le h hv
  | loadWideConstant index => exact loadOfWidth_of_le h hv
  | field access index =>
    change access.verify q index before = _
    change access.verify p index before = _ at hv
    unfold FieldAccess.verify at hv ⊢
    cases hp : p.fieldRef index with
    | error problem => rw [hp] at hv; cases hv
    | ok field => rw [hp] at hv; rw [ConstantPool.fieldRef_of_le h hp]; exact hv
  | invoke kind index =>
    change kind.verify q thisClass index before = _
    change kind.verify p thisClass index before = _ at hv
    unfold InvokeKind.verify at hv ⊢
    cases hp : p.methodRef index with
    | error problem => rw [hp] at hv; cases hv
    | ok method => rw [hp] at hv; rw [ConstantPool.methodRef_of_le h hp]; exact hv
  | invokeDynamic index =>
    rw [Insn.verify] at hv ⊢
    cases hp : p.callSite index with
    | error problem => rw [hp] at hv; cases hv
    | ok pair => rw [hp] at hv; rw [ConstantPool.callSite_of_le h hp]; exact hv
  | newRefArray index =>
    rw [Insn.verify] at hv ⊢
    obtain ⟨u, s, hs, hv⟩ := stateT_bind_eq_ok.1 hv
    obtain ⟨type, t, ht, hv⟩ := stateT_bind_eq_ok.1 hv
    exact stateT_bind_eq_ok.2 ⟨u, s, hs, stateT_bind_eq_ok.2 ⟨type, t, classTypeAt_of_le h ht, hv⟩⟩
  | newMultiArray index dimensions =>
    rw [Insn.verify] at hv ⊢
    obtain ⟨u, s, hs, hv⟩ := stateT_bind_eq_ok.1 hv
    obtain ⟨type, t, ht, hv⟩ := stateT_bind_eq_ok.1 hv
    exact stateT_bind_eq_ok.2 ⟨u, s, hs, stateT_bind_eq_ok.2 ⟨type, t, classTypeAt_of_le h ht, hv⟩⟩
  | checkCast index =>
    rw [Insn.verify] at hv ⊢
    obtain ⟨u, s, hs, hv⟩ := stateT_bind_eq_ok.1 hv
    obtain ⟨type, t, ht, hv⟩ := stateT_bind_eq_ok.1 hv
    exact stateT_bind_eq_ok.2 ⟨u, s, hs, stateT_bind_eq_ok.2 ⟨type, t, classTypeAt_of_le h ht, hv⟩⟩
  | _ => exact hv

end Growth

/-- Every type of the frame has the property. -/
def EditFrame.All (P : EditType → Prop) (frame : EditFrame) : Prop :=
  (∀ type ∈ frame.locals, P type) ∧ ∀ type ∈ frame.stack, P type

namespace EditFrame

variable {P : EditType → Prop} {a b : EditFrame}

theorem all_dropHalves_meetLocals (htop : P .top) {locals others : List EditType}
    (hl : ∀ type ∈ locals, P type) (ho : ∀ type ∈ others, P type) :
    ∀ type ∈ dropHalves (meetLocals locals others), P type := by
  have entry : ∀ (types : List EditType) (i : Nat), (∀ type ∈ types, P type) →
      P (types[i]?.getD .top) := by
    intro types i h
    cases hi : types[i]? with
    | none => exact htop
    | some type => exact h type (List.mem_of_getElem? hi)
  intro type hm
  obtain ⟨i, hi⟩ := List.mem_iff_getElem?.1 hm
  rcases getElem?_dropHalves hi with hi | rfl
  · rw [getElem?_meetLocals] at hi
    split at hi
    · cases hi
      rcases EditType.meet_eq (locals[i]?.getD .top) (others[i]?.getD .top) with he | he | he
      · rw [he]; exact entry locals i hl
      · rw [he]; exact entry others i ho
      · rw [he]; exact htop
    · cases hi
  · exact htop

theorem All.merge {merged : EditFrame} (htop : P .top) (ha : a.All P) (hb : b.All P)
    (h : a.merge b = some merged) : merged.All P := by
  obtain ⟨-, rfl⟩ := merge_eq_some h
  refine ⟨all_dropHalves_meetLocals htop ha.1 hb.1, fun type hm => ?_⟩
  obtain ⟨i, hi⟩ := List.mem_iff_getElem?.1 hm
  obtain ⟨s, t, hs, ht, rfl⟩ := List.getElem?_zipWith_eq_some.1 hi
  rcases EditType.meet_eq s t with he | he | he
  · rw [he]; exact ha.2 s (List.mem_of_getElem? hs)
  · rw [he]; exact hb.2 t (List.mem_of_getElem? ht)
  · rw [he]; exact htop

theorem All.imp {Q : EditType → Prop} (h : ∀ type, P type → Q type) (ha : a.All P) : a.All Q :=
  ⟨fun type hm => h type (ha.1 type hm), fun type hm => h type (ha.2 type hm)⟩

end EditFrame

/-- The step gives values with a property, and only frames whose types have one if those of the
frame in front of it had it. -/
def Verifying.Keeps {α : Type} (P : EditType → Prop) (step : Verifying α) (Q : α → Prop) : Prop :=
  ∀ before a after, EditFrame.All P before → step before = .ok (a, after) →
    EditFrame.All P after ∧ Q a

/-- A property that no type lacks but that of an object which is allocated and not yet
initialised. -/
def EditType.Lenient (P : EditType → Prop) : Prop :=
  ∀ type : EditType, (∀ label, type ≠ .uninitialized label) → P type

namespace Verifying

namespace Keeps

variable {α β : Type} {P : EditType → Prop} {Q : α → Prop} {R : β → Prop}

theorem pure {a : α} (h : Q a) : Keeps P (Pure.pure a : Verifying α) Q := fun before b after hf hs => by
  obtain ⟨rfl, rfl⟩ := stateT_pure_eq_ok.1 hs
  exact ⟨hf, h⟩

theorem throw (problem : VerifyError) : Keeps P (throw problem : Verifying α) Q := fun _ _ _ _ hs =>
  (stateT_throw_ne_ok.1 hs).elim

theorem bind {step : Verifying α} {next : α → Verifying β} (hs : Keeps P step Q)
    (hn : ∀ a, Q a → Keeps P (next a) R) : Keeps P (step >>= next) R := fun before b after hf h => by
  obtain ⟨a, middle, ha, hb⟩ := stateT_bind_eq_ok.1 h
  obtain ⟨hm, hq⟩ := hs before a middle hf ha
  exact hn a hq middle b after hm hb

theorem weaken {step : Verifying α} {Q' : α → Prop} (hs : Keeps P step Q) (hq : ∀ a, Q a → Q' a) :
    Keeps P step Q' := fun before a after hf h =>
  ⟨(hs before a after hf h).1, hq a (hs before a after hf h).2⟩

theorem ite {c : Prop} [Decidable c] {a b : Verifying α} (ha : Keeps P a Q) (hb : Keeps P b Q) :
    Keeps P (if c then a else b) Q := by
  split
  · exact ha
  · exact hb

theorem modify {f : EditFrame → EditFrame}
    (hf : ∀ frame, EditFrame.All P frame → EditFrame.All P (f frame)) :
    Keeps P (modify f : Verifying Unit) fun _ => True := fun before _ after hb hs => by
  cases hs
  exact ⟨hf _ hb, trivial⟩

theorem forM {step : β → Verifying Unit} (hs : ∀ b, Keeps P (step b) fun _ => True)
    (items : List β) : Keeps P (items.forM step) fun _ => True := by
  induction items with
  | nil => exact .pure trivial
  | cons item rest ih => exact .bind (hs item) fun _ _ => ih

theorem push {type : EditType} (h : P type) : Keeps P (push type) fun _ => True :=
  .modify fun _ hf => ⟨hf.1, fun t ht => (List.mem_cons.1 ht).elim (· ▸ h) (hf.2 t)⟩

theorem pushAll {types : List EditType} (h : ∀ type ∈ types, P type) :
    Keeps P (pushAll types) fun _ => True :=
  .modify fun _ hf => ⟨hf.1, fun t ht =>
    (List.mem_append.1 ht).elim (fun hr => h t (List.mem_reverse.1 hr)) (hf.2 t)⟩

theorem pop : Keeps P pop P := fun before type after hf hs => by
  unfold Verifying.pop at hs
  split at hs
  · cases hs
  · next first rest hstack =>
    cases hs
    have hall : ∀ t ∈ type :: rest, P t := hstack ▸ hf.2
    exact ⟨⟨hf.1, fun t ht => hall t (List.mem_cons_of_mem _ ht)⟩, hall type List.mem_cons_self⟩

theorem popNarrow : Keeps P popNarrow P :=
  .bind .pop fun _ h => .ite (.bind (.throw _) fun _ (h : False) => h.elim) (.pure h)

theorem popExactly (expected : EditType) : Keeps P (popExactly expected) fun _ => True :=
  .bind .pop fun _ _ => .ite (.throw _) (.pure trivial)

theorem popAssignable (expected : EditType) : Keeps P (popAssignable expected) fun _ => True :=
  .bind .pop fun _ _ => .ite (.pure trivial) (.throw _)

theorem popReference : Keeps P popReference fun _ => True :=
  .bind .pop fun _ _ => .ite (.pure trivial) (.throw _)

theorem getLocal (slot : UInt16) : Keeps P (getLocal slot) P := fun before type after hf hs => by
  obtain ⟨frame, middle, hg, hs⟩ := stateT_bind_eq_ok.1 hs
  cases hg
  cases hl : before.locals[slot.toNat]? with
  | none => rw [hl] at hs; exact (stateT_throw_ne_ok.1 hs).elim
  | some found =>
    rw [hl] at hs
    obtain ⟨rfl, rfl⟩ := stateT_pure_eq_ok.1 hs
    exact ⟨hf, hf.1 _ (List.mem_of_getElem? hl)⟩

end Keeps

end Verifying

/-- A store puts nothing into the locals but the type that is stored and unusable entries. -/
theorem EditFrame.mem_setLocal {frame : EditFrame} {slot : UInt16} {type t : EditType}
    (h : t ∈ (frame.setLocal slot type).locals) : t ∈ frame.locals ∨ t = .top ∨ t = type := by
  have hset : ∀ (locals : List EditType) (i : Nat) (u : EditType),
      t ∈ locals.set i u → t ∈ locals ∨ t = u := fun _ _ _ => List.mem_or_eq_of_mem_set
  have hite : ∀ (c : Prop) [Decidable c] (locals : List EditType) (i : Nat),
      t ∈ (if c then locals.set i .top else locals) → t ∈ locals ∨ t = .top := by
    intro c _ locals i ht
    split at ht
    · exact hset locals i .top ht
    · exact .inl ht
  unfold setLocal at h
  rcases hite _ _ _ h with h | rfl
  · rcases hset _ _ _ h with h | rfl
    · rcases hite _ _ _ h with h | rfl
      · rcases hite _ _ _ h with h | rfl
        · rcases hite _ _ _ h with h | rfl
          · rcases List.mem_append.1 h with h | h
            · exact .inl h
            · exact .inr (.inl (List.eq_of_mem_replicate h))
          · exact .inr (.inl rfl)
        · exact .inr (.inl rfl)
      · exact .inr (.inl rfl)
    · exact .inr (.inr rfl)
  · exact .inr (.inl rfl)

namespace Verifying.Keeps

variable {P : EditType → Prop}

theorem setLocal {slot : UInt16} {type : EditType} (htop : P .top) (h : P type) :
    Keeps P (setLocal slot type) fun _ => True :=
  .modify fun frame hf => ⟨fun t ht => by
    rcases EditFrame.mem_setLocal ht with hm | rfl | rfl
    · exact hf.1 t hm
    · exact htop
    · exact h, hf.2⟩

theorem operate {operands : List EditType} {result : EditType} (h : P result) :
    Keeps P (operate operands result) fun _ => True :=
  .bind (.forM popExactly _) fun _ _ => .push h

end Verifying.Keeps

section Allocation

open Verifying

variable {P : EditType → Prop} {pool : ConstantPool}

theorem EditFrame.keeps_initialize {object initialized : EditType} (h : P initialized) :
    Keeps P (modify fun frame => EditFrame.initialize frame object initialized) fun _ => True := by
  have hmap : ∀ types : List EditType, (∀ t ∈ types, P t) →
      ∀ t ∈ types.map (fun type => if type = object then initialized else type), P t := by
    intro types ht t hm
    obtain ⟨type, hmem, rfl⟩ := List.mem_map.1 hm
    split
    · exact h
    · exact ht type hmem
  exact .modify fun frame hf => ⟨hmap frame.locals hf.1, hmap frame.stack hf.2⟩

theorem ArrayKind.keeps_referenceElement (hP : EditType.Lenient P) (array : EditType) :
    Keeps P (referenceElement array) P := by
  unfold referenceElement
  cases he : EditType.arrayElement? array with
  | none => exact .throw _
  | some element =>
    refine .ite (.pure (hP element ?_)) (.throw _)
    unfold EditType.arrayElement? at he
    split at he
    · split at he
      · obtain ⟨reference, -, he⟩ := Option.bind_eq_some_iff.1 he
        obtain ⟨found, -, he⟩ := Option.bind_eq_some_iff.1 he
        cases he
        intro label
        unfold EditType.ofFieldType
        split <;> simp
      · cases he
    · cases he

theorem ArrayKind.element?_plain {kind : ArrayKind} {element : EditType} {classes : List String}
    (h : kind.element? = some (element, classes)) (label : Label) :
    element ≠ .uninitialized label := by
  cases kind <;> simp [ArrayKind.element?] at h <;> simp [← h.1]

theorem EditType.ofFieldType_plain (type : FieldType) (label : Label) :
    EditType.ofFieldType type ≠ .uninitialized label := by
  unfold EditType.ofFieldType
  split <;> simp

theorem keeps_classTypeAt {index : PoolIndex} :
    Keeps P (classTypeAt pool index) fun _ => True := by
  unfold classTypeAt
  split
  · exact .throw _
  · split
    · exact .pure trivial
    · exact .throw _

theorem ArrayKind.keeps_popArray (classes : List String) :
    Keeps P (popArray classes) fun _ => True :=
  .bind .pop fun type _ => by
    cases type with
    | null => exact .pure trivial
    | object name => exact .ite (.pure trivial) (.throw _)
    | _ => exact .throw _

theorem ArrayKind.keeps_verifyLoad (hP : EditType.Lenient P) (kind : ArrayKind) :
    Keeps P kind.verifyLoad fun _ => True :=
  .bind (.popExactly _) fun _ _ => by
    cases hk : kind.element? with
    | some pair =>
      obtain ⟨element, classes⟩ := pair
      exact .bind (keeps_popArray classes) fun _ _ => .push (hP element (element?_plain hk))
    | none =>
      refine .bind .pop fun array _ => ?_
      cases array with
      | null => exact .push (hP .null (by simp))
      | _ => exact .bind (keeps_referenceElement hP _) fun _ h => .push h

theorem ArrayKind.keeps_verifyStore (hP : EditType.Lenient P) (kind : ArrayKind) :
    Keeps P kind.verifyStore fun _ => True := by
  unfold ArrayKind.verifyStore
  cases hk : kind.element? with
  | some pair =>
    exact .bind (.popExactly _) fun _ _ => .bind (.popExactly _) fun _ _ => keeps_popArray _
  | none =>
    refine .bind .pop fun value _ => .bind (.popExactly _) fun _ _ => .bind .pop fun array _ => ?_
    refine .ite (.ite ?_ (.pure trivial)) (.bind (.throw _) fun _ (h : False) => h.elim)
    exact .bind (keeps_referenceElement hP array) fun _ _ => .ite (.pure trivial) (.throw _)

theorem StackOp.keeps_verify (op : StackOp) : Keeps P op.verify fun _ => True := by
  cases op with
  | pop => exact .bind .popNarrow fun _ _ => .pure trivial
  | pop2 => exact .bind .pop fun a _ => .ite (.pure trivial) (.bind .popNarrow fun _ _ => .pure trivial)
  | dup => exact .bind .popNarrow fun a ha => .pushAll (by simp [ha])
  | dupX1 => exact .bind .popNarrow fun a ha => .bind .popNarrow fun b hb => .pushAll (by simp [ha, hb])
  | dupX2 =>
    exact .bind .popNarrow fun a ha => .bind .pop fun b hb =>
      .ite (.pushAll (by simp [ha, hb]))
        (.bind .popNarrow fun c hc => .pushAll (by simp [ha, hb, hc]))
  | dup2 =>
    exact .bind .pop fun a ha => .ite (.pushAll (by simp [ha]))
      (.bind .popNarrow fun b hb => .pushAll (by simp [ha, hb]))
  | dup2X1 =>
    exact .bind .pop fun a ha => .ite
      (.bind .popNarrow fun b hb => .pushAll (by simp [ha, hb]))
      (.bind .popNarrow fun b hb => .bind .popNarrow fun c hc => .pushAll (by simp [ha, hb, hc]))
  | dup2X2 =>
    exact .bind .pop fun a ha => .ite
      (.bind .pop fun b hb => .ite (.pushAll (by simp [ha, hb]))
        (.bind .popNarrow fun c hc => .pushAll (by simp [ha, hb, hc])))
      (.bind .popNarrow fun b hb => .bind .pop fun c hc => .ite (.pushAll (by simp [ha, hb, hc]))
        (.bind .popNarrow fun d hd => .pushAll (by simp [ha, hb, hc, hd])))
  | swap => exact .bind .popNarrow fun a ha => .bind .popNarrow fun b hb => .pushAll (by simp [ha, hb])

theorem FieldAccess.keeps_verify (hP : EditType.Lenient P) (access : FieldAccess)
    (index : PoolIndex) : Keeps P (access.verify pool index) fun _ => True := by
  unfold FieldAccess.verify
  split
  · exact .throw _
  · split
    · exact .throw _
    · next type _ =>
      have htype := hP _ (EditType.ofFieldType_plain type)
      cases access with
      | getStatic => exact .push htype
      | putStatic => exact .popAssignable _
      | getField => exact .bind (.popAssignable _) fun _ _ => .push htype
      | putField => exact .bind (.popAssignable _) fun _ _ => .popAssignable _

theorem keeps_popArguments (method : MethodDescriptor) :
    Keeps P (popArguments method) fun _ => True :=
  .forM (fun _ => .popAssignable _) _

theorem keeps_pushReturn (hP : EditType.Lenient P) (method : MethodDescriptor) :
    Keeps P (pushReturn method) fun _ => True := by
  unfold pushReturn
  split
  · exact .push (hP _ (EditType.ofFieldType_plain _))
  · exact .pure trivial

theorem InvokeKind.keeps_verify (hP : EditType.Lenient P) (thisClass : String) (kind : InvokeKind)
    (index : PoolIndex) : Keeps P (kind.verify pool thisClass index) fun _ => True := by
  unfold InvokeKind.verify
  split
  · exact .throw _
  · split
    · exact .throw _
    · next method _ _ descriptor _ =>
      have object : ∀ name : String, P (.object name) := fun name => hP _ (by simp)
      have result := keeps_pushReturn hP descriptor
      have made : ∀ receiver type, P type → Keeps P
          (do modify fun frame => EditFrame.initialize frame receiver type
              if descriptor.returnType.isSome then throw .badType
              pushReturn descriptor) fun _ => True := fun receiver type h =>
        .bind (EditFrame.keeps_initialize h) fun _ _ =>
          .ite (.bind (.throw _) fun _ (h : False) => h.elim) result
      extract_lets last call
      have hcall : ∀ u, Keeps P (call u) fun _ => True := fun _ => by
        refine .bind (keeps_popArguments descriptor) fun _ _ => ?_
        refine .ite (.bind .pop fun receiver _ => ?_)
          (.ite (.bind (.popAssignable _) fun _ _ => result) result)
        cases receiver with
        | uninitializedThis => exact .bind (.pure (object thisClass)) fun _ h => made _ _ h
        | uninitialized label => exact .bind (.pure (object method.owner)) fun _ h => made _ _ h
        | _ => exact .bind (.throw _) fun _ (h : False) => h.elim
      split
      · exact .ite (.bind (.throw _) fun _ (h : False) => h.elim) (hcall ())
      · exact hcall ()

theorem keeps_loadOfWidth (hP : EditType.Lenient P) (index : PoolIndex) (width : Nat) :
    Keeps P (Insn.verify.loadOfWidth pool index width) fun _ => True := by
  unfold Insn.verify.loadOfWidth
  split
  · exact .throw _
  · exact .ite (.bind (.throw _) fun _ (h : False) => h.elim)
      (.push (hP _ (EditType.ofFieldType_plain _)))

/-- The only type that a rule brings in and that a lenient property may lack is that of the object
an allocation makes. -/
theorem Insn.keeps_verify (hP : EditType.Lenient P) {thisClass : String} {allocation : Option Label}
    {insn : Insn}
    (hnew : ∀ index label, insn = .new index → allocation = some label → P (.uninitialized label)) :
    Keeps P (insn.verify pool thisClass allocation) fun _ => True := by
  have plain : ∀ type : EditType, (∀ label, type ≠ .uninitialized label) →
      Keeps P (push type) fun _ => True := fun type h => .push (hP type h)
  have number : ∀ kind : NumberKind, P kind.type := fun kind => hP _ (by cases kind <;> simp [NumberKind.type])
  have slotType : ∀ (kind : SlotKind) (type : EditType), kind.type? = some type → P type :=
    fun kind type h => hP _ (by cases kind <;> simp [SlotKind.type?] at h <;> simp [← h])
  have integer : P .integer := hP _ (by simp)
  have long : P .long := hP _ (by simp)
  have object : ∀ name : String, P (.object name) := fun name => hP _ (by simp)
  cases insn with
  | nop => exact .pure trivial
  | constNull => exact plain _ (by simp)
  | constInt value => exact .push integer
  | constLong value => exact .push long
  | constFloat value => exact plain _ (by simp)
  | constDouble value => exact plain _ (by simp)
  | pushByte value => exact .push integer
  | pushShort value => exact .push integer
  | loadConstant index => exact keeps_loadOfWidth hP index 1
  | loadWideConstant index => exact keeps_loadOfWidth hP index 2
  | load kind index =>
    rw [Insn.verify]
    split
    · next expected hk =>
      exact .bind (.getLocal _) fun _ _ => .ite (.bind (.throw _) fun _ (h : False) => h.elim)
        (.push (slotType kind expected hk))
    · exact .bind (.getLocal _) fun _ h => .ite (.push h) (.bind (.throw _) fun _ (h : False) => h.elim)
  | store kind index =>
    rw [Insn.verify]
    split
    · next expected hk =>
      exact .bind (.popExactly _) fun _ _ => .setLocal (hP _ (by simp)) (slotType kind expected hk)
    · exact .bind .pop fun _ h => .ite (.setLocal (hP _ (by simp)) h)
        (.bind (.throw _) fun _ (h : False) => h.elim)
  | arrayLoad kind => exact kind.keeps_verifyLoad hP
  | arrayStore kind => exact kind.keeps_verifyStore hP
  | stack op => exact op.keeps_verify
  | arithmetic op kind => exact .operate (number kind)
  | negate kind => exact .operate (number kind)
  | shift op ofLong => exact .ite (.operate long) (.operate integer)
  | bitwise op ofLong => exact .ite (.operate long) (.operate integer)
  | increment index amount => exact .bind (.getLocal _) fun _ _ => .ite (.throw _) (.pure trivial)
  | convert conversion => exact .operate (number _)
  | compareLong => exact .operate integer
  | compareFloat ofDouble mode => exact .ite (.operate integer) (.operate integer)
  | field access index => exact access.keeps_verify hP index
  | invoke kind index => exact kind.keeps_verify hP thisClass index
  | invokeDynamic index =>
    rw [Insn.verify]
    split
    · exact .throw _
    · split
      · exact .throw _
      · exact .bind (keeps_popArguments _) fun _ _ => keeps_pushReturn hP _
  | new index =>
    cases allocation with
    | some label => exact .push (hnew index label rfl rfl)
    | none => exact .throw _
  | newArray element => exact .bind (.popExactly _) fun _ _ => .push (object _)
  | newRefArray index =>
    exact .bind (.popExactly _) fun _ _ => .bind keeps_classTypeAt fun _ _ => .push (object _)
  | newMultiArray index dimensions =>
    exact .bind (.forM .popExactly _) fun _ _ => .bind keeps_classTypeAt fun _ _ => .push (object _)
  | arrayLength =>
    exact .bind .pop fun _ _ => .ite (.bind (.throw _) fun _ (h : False) => h.elim) (.push integer)
  | checkCast index =>
    exact .bind .popReference fun _ _ => .bind keeps_classTypeAt fun _ _ => .push (object _)
  | instanceOf index => exact .bind .popReference fun _ _ => .push integer
  | monitorEnter => exact .popReference
  | monitorExit => exact .popReference

theorem Branch.keeps_verify {T : Type} (returnType : Option FieldType) (branch : Branch T) :
    Keeps P (branch.verify returnType) fun _ => True := by
  cases branch with
  | ifZero comparison target => exact .popExactly _
  | ifInts comparison target => exact .bind (.popExactly _) fun _ _ => .popExactly _
  | ifRefs equality target => exact .bind .popReference fun _ _ => .popReference
  | ifNull equality target => exact .popReference
  | goto target => exact .pure trivial
  | tableSwitch default low targets => exact .popExactly _
  | lookupSwitch default targets => exact .popExactly _
  | raise => exact .bind .pop fun _ _ => .ite (.pure trivial) (.throw _)
  | «return» kind =>
    cases kind with
    | none => exact .ite (.throw _) (.pure trivial)
    | some kind =>
      rw [Branch.verify]
      split
      · exact .bind (.popExactly _) fun _ _ => .ite (.throw _) (.pure trivial)
      · split
        · exact .ite (.popAssignable _) (.throw _)
        · exact .throw _

end Allocation

end ClassWeave
