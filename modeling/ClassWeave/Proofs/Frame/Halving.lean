import ClassWeave.Proofs.Frame.Merging

/-!
Wide locals stay whole. A store that overwrites one slot of a wide value makes the other slot unusable and keeps what
it does not write. The typing rules change the locals by a store or, where an object is constructed, by its type.
-/

namespace ClassWeave

open Verifying

namespace Frame

variable {C P : Type}

theorem whole_slotsOf (types stack : List (VerificationType C P)) : Whole (⟨slotsOf types, stack⟩ : Frame C P) := by
  induction types with
  | nil => exact fun _ _ h => by cases h
  | cons first rest ih =>
    intro slot type hget hwide
    have hslots : slotsOf (first :: rest) = (if first.isWide then [first, .top] else [first]) ++ slotsOf rest :=
      List.flatMap_cons
    change (slotsOf (first :: rest))[slot]? = some type at hget
    change (slotsOf (first :: rest))[slot + 1]? = some .top
    rw [hslots] at hget ⊢
    by_cases hfirst : first.isWide = true
    · rw [if_pos hfirst] at hget ⊢
      match slot with
      | 0 => rfl
      | 1 =>
        cases hget
        cases hwide
      | slot + 2 => exact ih slot type hget hwide
    · rw [if_neg hfirst] at hget ⊢
      match slot with
      | 0 =>
        cases hget
        exact absurd hwide hfirst
      | slot + 1 => exact ih slot type hget hwide

end Frame

namespace EditFrame

instance (frame : EditFrame) : Decidable frame.Whole := decidable_of_iff _ dropHalves_eq_self_iff

/-- A wide value has its first slot there. -/
def wideAt (frame : EditFrame) (i : Nat) : Bool := (frame.locals[i]?.map (·.isWide)).getD false

theorem getElem?_padTo (count : Nat) (locals : List EditType) (i : Nat) :
    (padTo count locals)[i]? =
      if i < locals.length then locals[i]? else if i < count then some .top else none := by
  unfold padTo
  rw [List.getElem?_append, List.getElem?_replicate]
  split
  · rfl
  · grind

theorem length_padTo (count : Nat) (locals : List EditType) :
    (padTo count locals).length = max locals.length count := by
  unfold padTo
  rw [List.length_append, List.length_replicate]
  omega

/-- No wide value is added. -/
theorem isWide_padTo (count : Nat) (frame : EditFrame) (i : Nat) :
    ((padTo count frame.locals)[i]?.map (·.isWide)).getD false = frame.wideAt i := by
  unfold wideAt
  rw [getElem?_padTo]
  grind [VerificationType.isWide]

theorem getElem?_ite_set (c : Prop) [Decidable c] (locals : List EditType) (k : Nat) (type : EditType) (i : Nat) :
    (if c then locals.set k type else locals)[i]? =
      if c ∧ i = k ∧ k < locals.length then some type else locals[i]? := by
  by_cases hc : c
  · rw [if_pos hc, List.getElem?_set]
    grind
  · rw [if_neg hc, if_neg (fun h => hc h.1)]

theorem length_ite_set (c : Prop) [Decidable c] (locals : List EditType) (k : Nat) (type : EditType) :
    (if c then locals.set k type else locals).length = locals.length := by
  split
  · exact List.length_set
  · rfl

/-- What a store leaves in each slot. -/
theorem locals_setLocal (frame : EditFrame) (slot : UInt16) (type : EditType) (i : Nat) :
    (frame.setLocal slot type).locals[i]? =
      if i = slot.toNat then some type
      else if i = slot.toNat + 1 ∧ type.isWide then some .top
      else if (i + 1 = slot.toNat ∧ frame.wideAt i) ∨
        (i = slot.toNat + type.width ∧ frame.wideAt (i - 1) ∧ i < frame.locals.length) then some .top
      else if i < frame.locals.length then frame.locals[i]?
      else if i < slot.toNat + type.width then some .top else none := by
  unfold setLocal
  dsimp only
  generalize slot.toNat = j
  have hget := getElem?_padTo (j + type.width) frame.locals
  have hlength := length_padTo (j + type.width) frame.locals
  have hwide := isWide_padTo (j + type.width) frame
  generalize padTo (j + type.width) frame.locals = locals at hget hlength hwide ⊢
  generalize hmax : max frame.locals.length (j + type.width) = length at hlength
  simp only [getElem?_ite_set, length_ite_set, List.length_set, List.getElem?_set, hlength, hwide]
  -- The slots in front of and behind the one that is written are other ones.
  have hfront : ¬((0 < j ∧ frame.wideAt (j - 1) = true) ∧ j = j - 1 ∧ j - 1 < length) := by omega
  have hpast : ¬((0 < j ∧ frame.wideAt (j - 1) = true) ∧ j + 1 = j - 1 ∧ j - 1 < length) := by omega
  have hback (c : Prop) : ¬(c ∧ j = j + 2 ∧ j + 2 < length) := by omega
  simp only [if_neg hfront, if_neg hpast, if_neg (hback _), hwide]
  rw [hget]
  clear hget hwide hlength hfront hpast hback
  by_cases hw : type.isWide = true
  · have hwidth : type.width = 2 := if_pos hw
    simp only [hw, hwidth, true_and, and_true, not_true_eq_false, false_and, if_false] at hmax ⊢
    grind
  · have hwidth : type.width = 1 := if_neg hw
    simp only [hw, hwidth] at hmax ⊢
    grind

variable {frame after : EditFrame} {slot : UInt16} {type : EditType} {i : Nat}

theorem wideAt_iff : frame.wideAt i = true ↔ ∃ value, frame.locals[i]? = some value ∧ value.isWide = true := by
  unfold wideAt
  cases frame.locals[i]? <;> simp

theorem top_of_wideAt (whole : frame.Whole) (h : frame.wideAt i = true) : frame.locals[i + 1]? = some .top := by
  obtain ⟨value, hget, hwide⟩ := wideAt_iff.1 h
  exact whole i value hget hwide

theorem not_wideAt_of_top (h : frame.locals[i]? = some .top) : frame.wideAt i = false := by
  unfold wideAt
  rw [h]
  rfl

/-- A frame comes of another by a store that halves no value. -/
structure Stores (before : EditFrame) (slot : UInt16) (type : EditType) (after : EditFrame) : Prop where
  stack : after.stack = before.stack
  length : after.locals.length = max before.locals.length (slot.toNat + type.width)
  stored : after.locals[slot.toNat]? = some type
  second : type.isWide = true → after.locals[slot.toNat + 1]? = some .top
  /-- A value whose second slot is overwritten cannot be used. -/
  front (i : Nat) : before.wideAt i = true → i + 1 = slot.toNat → after.locals[i]? = some .top
  /-- Neither can the second slot of a value whose first one is overwritten. -/
  back (i : Nat) : before.wideAt i = true → slot.toNat ≤ i → i < slot.toNat + type.width →
    after.locals[i + 1]? = some .top
  kept (i : Nat) : i < before.locals.length → i < slot.toNat ∨ slot.toNat + type.width ≤ i →
    ¬(before.wideAt i = true ∧ i + 1 = slot.toNat) → after.locals[i]? = before.locals[i]?
  added (i : Nat) : before.locals.length ≤ i → i < slot.toNat → after.locals[i]? = some .top

theorem stores_setLocal (whole : frame.Whole) (slot : UInt16) (type : EditType) :
    frame.Stores slot type (frame.setLocal slot type) where
  stack := rfl
  length := length_setLocal frame slot type
  stored := by rw [locals_setLocal, if_pos rfl]
  second hwide := by rw [locals_setLocal, if_neg (by omega), if_pos ⟨rfl, hwide⟩]
  front i hwide h := by rw [locals_setLocal, if_neg (by omega), if_neg (by omega), if_pos (.inl ⟨h, hwide⟩)]
  back i hwide hle hlt := by
    have hnext := top_of_wideAt whole hwide
    obtain ⟨hlength, -⟩ := List.getElem?_eq_some_iff.1 hnext
    rw [locals_setLocal, if_neg (by omega), if_pos hlength, hnext, ite_self, ite_self]
  kept i hlength hout hfront := by
    have hwidth : type.width = if type.isWide then 2 else 1 := rfl
    have hstored : i ≠ slot.toNat := by grind
    have hsecond : ¬(i = slot.toNat + 1 ∧ type.isWide = true) := by grind
    rw [locals_setLocal, if_neg hstored, if_neg hsecond, if_pos hlength]
    split
    · next hhalf =>
      -- The slot behind is the second one of a wide value, which has been unusable.
      obtain ⟨rfl, hwide, -⟩ := hhalf.resolve_left fun h => hfront ⟨h.2, h.1⟩
      have hpositive : 0 < slot.toNat + type.width := by grind
      have hnext := top_of_wideAt whole hwide
      rw [Nat.sub_add_cancel hpositive] at hnext
      exact hnext.symm
    · rfl
  added i hlength hlt := by
    have hbelow : i < slot.toNat + type.width := by omega
    rw [locals_setLocal, if_neg (by omega), if_neg (by omega), if_neg (Nat.not_lt.2 hlength), if_pos hbelow, ite_self]

namespace Stores

/-- Outside the slots that are written, a wide value is one that was there, and neither of its slots is written. -/
theorem wide_kept (stores : frame.Stores slot type after) (hout : i < slot.toNat ∨ slot.toNat + type.width ≤ i)
    (h : after.wideAt i = true) : frame.wideAt i = true ∧ i + 1 ≠ slot.toNat := by
  obtain ⟨value, hget, hwide⟩ := wideAt_iff.1 h
  have husable : after.locals[i]? ≠ some .top := fun htop => by
    rw [not_wideAt_of_top htop] at h
    cases h
  have hlength : i < frame.locals.length := by
    by_contra hge
    rcases hout with hlt | hle
    · exact husable (stores.added i (Nat.le_of_not_lt hge) hlt)
    · obtain ⟨hafter, -⟩ := List.getElem?_eq_some_iff.1 hget
      rw [stores.length] at hafter
      omega
  have hfront : ¬(frame.wideAt i = true ∧ i + 1 = slot.toNat) := fun h => husable (stores.front i h.1 h.2)
  rw [stores.kept i hlength hout hfront] at hget
  have hold : frame.wideAt i = true := wideAt_iff.2 ⟨value, hget, hwide⟩
  exact ⟨hold, fun h => hfront ⟨hold, h⟩⟩

/-- Within the slots that are written, only the first can have a wide value. -/
theorem wide_written (stores : frame.Stores slot type after) (hle : slot.toNat ≤ i)
    (hlt : i < slot.toNat + type.width) (h : after.wideAt i = true) : i = slot.toNat ∧ type.isWide = true := by
  by_cases hslot : i = slot.toNat
  · obtain ⟨value, hget, hwide⟩ := wideAt_iff.1 h
    rw [hslot, stores.stored] at hget
    exact ⟨hslot, Option.some.inj hget ▸ hwide⟩
  · have hwidth : type.width = if type.isWide then 2 else 1 := rfl
    obtain ⟨htype, rfl⟩ : type.isWide = true ∧ i = slot.toNat + 1 := by grind
    rw [not_wideAt_of_top (stores.second htype)] at h
    cases h

theorem whole (stores : frame.Stores slot type after) (whole : frame.Whole) : after.Whole := by
  intro i value hget hwide
  have hat : after.wideAt i = true := wideAt_iff.2 ⟨value, hget, hwide⟩
  by_cases hwritten : slot.toNat ≤ i ∧ i < slot.toNat + type.width
  · obtain ⟨rfl, htype⟩ := stores.wide_written hwritten.1 hwritten.2 hat
    exact stores.second htype
  · have hout : i < slot.toNat ∨ slot.toNat + type.width ≤ i := by omega
    obtain ⟨hold, hapart⟩ := stores.wide_kept hout hat
    have hnext := top_of_wideAt whole hold
    obtain ⟨hlength, -⟩ := List.getElem?_eq_some_iff.1 hnext
    rw [stores.kept (i + 1) hlength (by omega), hnext]
    rintro ⟨hwide', -⟩
    rw [not_wideAt_of_top hnext] at hwide'
    cases hwide'

end Stores

theorem whole_construct (whole : frame.Whole) {object : EditType} (hobject : object ≠ .top) (name : String) :
    Frame.Whole <| EditFrame.initialize frame object (.object name) := by
  intro i value hget hwide
  unfold EditFrame.initialize at hget ⊢
  dsimp only at hget ⊢
  rw [List.getElem?_map] at hget ⊢
  obtain ⟨type, htype, rfl⟩ := Option.map_eq_some_iff.1 hget
  by_cases hsame : type = object
  · rw [if_pos hsame] at hwide
    cases hwide
  · rw [if_neg hsame] at hwide
    rw [whole i type htype hwide, Option.map_some, if_neg hobject.symm]

/-- A property of the locals that neither a store nor the construction of an object ends. -/
structure Lasting (P : List EditType → Prop) : Prop where
  store (frame : EditFrame) (slot : UInt16) (type : EditType) : P frame.locals → P (frame.setLocal slot type).locals
  construct (frame : EditFrame) (object : EditType) (name : String) : object ≠ .top → P frame.locals →
    P (Frame.locals <| EditFrame.initialize frame object (.object name))

theorem lasting_whole : Lasting fun locals => Frame.Whole (⟨locals, []⟩ : EditFrame) where
  store _ slot type whole := (stores_setLocal whole slot type).whole whole
  construct _ _ name hobject whole := whole_construct whole hobject name

end EditFrame

/-- The rule keeps a property of the locals. -/
def Verifying.Maintains {α : Type} (P : List EditType → Prop) (step : Verifying α) : Prop :=
  ∀ before a after, step before = .ok (a, after) → P before.locals → P after.locals

namespace Verifying.Maintains

variable {α β : Type} {P : List EditType → Prop}

theorem pure (a : α) : Maintains P (Pure.pure a : Verifying α) := fun _ _ _ h hp => by
  obtain ⟨-, rfl⟩ := stateT_pure_eq_ok.1 h
  exact hp

theorem throw (problem : VerifyError) : Maintains P (throw problem : Verifying α) := fun _ _ _ h _ =>
  (stateT_throw_ne_ok.1 h).elim

theorem bind {step : Verifying α} {next : α → Verifying β} (hs : Maintains P step)
    (hn : ∀ a, Maintains P (next a)) : Maintains P (step >>= next) := fun before b after h hp => by
  obtain ⟨a, middle, ha, hb⟩ := stateT_bind_eq_ok.1 h
  exact hn a middle b after hb (hs before a middle ha hp)

/-- Nothing behind a refusal is run. -/
theorem refuse {problem : VerifyError} {next : α → Verifying β} :
    Maintains P (MonadExcept.throw problem >>= next) := fun _ _ _ h _ => by
  obtain ⟨_, _, hthrow, -⟩ := stateT_bind_eq_ok.1 h
  exact (stateT_throw_ne_ok.1 hthrow).elim

theorem ite {c : Prop} [Decidable c] {a b : Verifying α} (ha : Maintains P a) (hb : Maintains P b) :
    Maintains P (if c then a else b) := by
  split
  · exact ha
  · exact hb

theorem modify {f : EditFrame → EditFrame} (hf : ∀ frame, P frame.locals → P (f frame).locals) :
    Maintains P (modify f : Verifying Unit) := fun before _ _ h hp => by
  cases h
  exact hf before hp

theorem forM {step : β → Verifying Unit} (hs : ∀ b, Maintains P (step b)) (items : List β) :
    Maintains P (items.forM step) := by
  induction items with
  | nil => exact .pure _
  | cons item rest ih => exact .bind (hs item) fun _ => ih

theorem push (type : EditType) : Maintains P (push type) := .modify fun _ hp => hp

theorem pushAll (types : List EditType) : Maintains P (pushAll types) := .modify fun _ hp => hp

theorem pop : Maintains P pop := fun before type after h hp => by
  unfold Verifying.pop at h
  split at h
  · cases h
  · cases h
    exact hp

theorem popNarrow : Maintains P popNarrow := .bind .pop fun _ => .ite .refuse (.pure _)

theorem popExactly (expected : EditType) : Maintains P (popExactly expected) :=
  .bind .pop fun _ => .ite (.throw _) (.pure _)

theorem popAssignable (expected : EditType) : Maintains P (popAssignable expected) :=
  .bind .pop fun _ => .ite (.pure _) (.throw _)

theorem popReference : Maintains P popReference := .bind .pop fun _ => .ite (.pure _) (.throw _)

theorem getLocal (slot : UInt16) : Maintains P (getLocal slot) := fun before type after h hp => by
  obtain ⟨rfl, -⟩ := getLocal_eq_ok h
  exact hp

theorem setLocal (lasting : EditFrame.Lasting P) (slot : UInt16) (type : EditType) :
    Maintains P (setLocal slot type) :=
  .modify fun frame => lasting.store frame slot type

theorem operate (operands : List EditType) (result : EditType) : Maintains P (operate operands result) :=
  .bind (.forM popExactly _) fun _ => .push result

end Verifying.Maintains

section Rules

variable {P : List EditType → Prop} {pool : ConstantPool}

theorem ArrayKind.maintains_popArray (classes : List String) : Maintains P (popArray classes) :=
  .bind .pop fun type => by
    cases type with
    | null => exact .pure _
    | object name => exact .ite (.pure _) (.throw _)
    | _ => exact .throw _

theorem ArrayKind.maintains_referenceElement (array : EditType) : Maintains P (referenceElement array) := by
  unfold referenceElement
  split
  · exact .ite (.pure _) (.throw _)
  · exact .throw _

theorem ArrayKind.maintains_verifyLoad (kind : ArrayKind) : Maintains P kind.verifyLoad :=
  .bind (.popExactly _) fun _ => by
    split
    · exact .bind (maintains_popArray _) fun _ => .push _
    · refine .bind .pop fun type => ?_
      split
      · exact .push _
      · exact .bind (maintains_referenceElement _) fun _ => .push _

theorem ArrayKind.maintains_verifyStore (kind : ArrayKind) : Maintains P kind.verifyStore := by
  unfold verifyStore
  split
  · exact .bind (.popExactly _) fun _ => .bind (.popExactly _) fun _ => maintains_popArray _
  · refine .bind .pop fun value => .bind (.popExactly _) fun _ => .bind .pop fun array => ?_
    refine .ite (.ite (.bind (maintains_referenceElement _) fun _ => .ite (.pure _) (.throw _)) (.pure _)) .refuse

theorem StackOp.maintains_verify (op : StackOp) : Maintains P op.verify := by
  cases op with
  | pop => exact .bind .popNarrow fun _ => .pure _
  | pop2 => exact .bind .pop fun _ => .ite (.pure _) (.bind .popNarrow fun _ => .pure _)
  | dup => exact .bind .popNarrow fun _ => .pushAll _
  | dupX1 | swap => exact .bind .popNarrow fun _ => .bind .popNarrow fun _ => .pushAll _
  | dupX2 =>
    exact .bind .popNarrow fun _ => .bind .pop fun _ => .ite (.pushAll _) (.bind .popNarrow fun _ => .pushAll _)
  | dup2 => exact .bind .pop fun _ => .ite (.pushAll _) (.bind .popNarrow fun _ => .pushAll _)
  | dup2X1 =>
    exact .bind .pop fun _ => .ite (.bind .popNarrow fun _ => .pushAll _)
      (.bind .popNarrow fun _ => .bind .popNarrow fun _ => .pushAll _)
  | dup2X2 =>
    exact .bind .pop fun _ => .ite
      (.bind .pop fun _ => .ite (.pushAll _) (.bind .popNarrow fun _ => .pushAll _))
      (.bind .popNarrow fun _ => .bind .pop fun _ => .ite (.pushAll _) (.bind .popNarrow fun _ => .pushAll _))

theorem FieldAccess.maintains_verify (access : FieldAccess) (index : PoolIndex) :
    Maintains P (access.verify pool index) := by
  unfold FieldAccess.verify
  split
  · exact .throw _
  · split
    · exact .throw _
    · cases access with
      | getStatic => exact .push _
      | putStatic => exact .popAssignable _
      | getField => exact .bind (.popAssignable _) fun _ => .push _
      | putField => exact .bind (.popAssignable _) fun _ => .popAssignable _

theorem maintains_popArguments (method : MethodDescriptor) : Maintains P (popArguments method) :=
  .forM (fun _ => .popAssignable _) _

theorem maintains_pushReturn (method : MethodDescriptor) : Maintains P (pushReturn method) := by
  unfold pushReturn
  split
  · exact .push _
  · exact .pure _

/-- Of the calls, only that of a constructor changes the locals. -/
theorem InvokeKind.maintains_verify (lasting : EditFrame.Lasting P) (thisClass : String) (kind : InvokeKind)
    (index : PoolIndex) : Maintains P (kind.verify pool thisClass index) := by
  unfold InvokeKind.verify
  split
  · exact .throw _
  · split
    · exact .throw _
    · next method _ _ descriptor _ =>
      have result : Maintains P (pushReturn descriptor) := maintains_pushReturn descriptor
      have made (receiver : EditType) (name : String) (h : receiver ≠ .top) : Maintains P (do
          modify fun frame => EditFrame.initialize frame receiver (.object name)
          if descriptor.returnType.isSome then throw .badType
          pushReturn descriptor) :=
        .bind (.modify fun frame => lasting.construct frame receiver name h) fun _ => .ite .refuse result
      extract_lets last call
      have hcall (u : Unit) : Maintains P (call u) := by
        refine .bind (maintains_popArguments _) fun _ => ?_
        refine .ite (.bind .pop fun receiver => ?_) (.ite (.bind (.popAssignable _) fun _ => result) result)
        cases receiver with
        | uninitializedThis => exact made _ _ nofun
        | uninitialized label => exact made _ _ nofun
        | _ => exact .refuse
      split
      · exact .ite .refuse (hcall ())
      · exact hcall ()

theorem maintains_classTypeAt (index : PoolIndex) : Maintains P (classTypeAt pool index) := by
  unfold classTypeAt
  split
  · exact .throw _
  · split
    · exact .pure _
    · exact .throw _

theorem maintains_loadOfWidth (index : PoolIndex) (width : Nat) :
    Maintains P (Insn.verify.loadOfWidth pool index width) := by
  unfold Insn.verify.loadOfWidth
  split
  · exact .throw _
  · exact .ite .refuse (.push _)

theorem Insn.maintains_verify (lasting : EditFrame.Lasting P) (thisClass : String) (allocation : Option Label)
    (insn : Insn) : Maintains P (insn.verify pool thisClass allocation) := by
  cases insn with
  | nop => exact .pure _
  | constNull | constInt | constLong | constFloat | constDouble | pushByte | pushShort => exact .push _
  | loadConstant index => exact maintains_loadOfWidth index 1
  | loadWideConstant index => exact maintains_loadOfWidth index 2
  | load kind slot =>
    rw [Insn.verify]
    split
    · exact .bind (.getLocal _) fun _ => .ite .refuse (.push _)
    · exact .bind (.getLocal _) fun _ => .ite (.push _) .refuse
  | store kind slot =>
    rw [Insn.verify]
    split
    · exact .bind (.popExactly _) fun _ => .setLocal lasting _ _
    · exact .bind .pop fun _ => .ite (.setLocal lasting _ _) .refuse
  | arrayLoad kind => exact kind.maintains_verifyLoad
  | arrayStore kind => exact kind.maintains_verifyStore
  | stack op => exact op.maintains_verify
  | arithmetic | negate | convert | compareLong => exact .operate _ _
  | shift | bitwise | compareFloat => exact .ite (.operate _ _) (.operate _ _)
  | increment slot amount => exact .bind (.getLocal _) fun _ => .ite (.throw _) (.pure _)
  | field access index => exact access.maintains_verify index
  | invoke kind index => exact kind.maintains_verify lasting thisClass index
  | invokeDynamic index =>
    rw [Insn.verify]
    split
    · exact .throw _
    · split
      · exact .throw _
      · exact .bind (maintains_popArguments _) fun _ => maintains_pushReturn _
  | new index =>
    cases allocation with
    | some label => exact .push _
    | none => exact .throw _
  | newArray element => exact .bind (.popExactly _) fun _ => .push _
  | newRefArray index =>
    exact .bind (.popExactly _) fun _ => .bind (maintains_classTypeAt _) fun _ => .push _
  | newMultiArray index dimensions =>
    exact .bind (.forM .popExactly _) fun _ => .bind (maintains_classTypeAt _) fun _ => .push _
  | arrayLength => exact .bind .pop fun _ => .ite .refuse (.push _)
  | checkCast index => exact .bind .popReference fun _ => .bind (maintains_classTypeAt _) fun _ => .push _
  | instanceOf index => exact .bind .popReference fun _ => .push _
  | monitorEnter | monitorExit => exact .popReference

/-- A jump leaves the locals as they are. -/
theorem Branch.maintains_verify {T : Type} (returnType : Option FieldType) (branch : Branch T) :
    Maintains P (branch.verify returnType) := by
  cases branch with
  | ifZero | tableSwitch | lookupSwitch => exact .popExactly _
  | ifInts => exact .bind (.popExactly _) fun _ => .popExactly _
  | ifRefs => exact .bind .popReference fun _ => .popReference
  | ifNull => exact .popReference
  | goto => exact .pure _
  | «return» kind? =>
    cases kind? with
    | none => exact .ite (.throw _) (.pure _)
    | some kind =>
      rw [Branch.verify]
      split
      · exact .bind (.popExactly _) fun _ => .ite (.throw _) (.pure _)
      · split
        · exact .ite (.popAssignable _) (.throw _)
        · exact .throw _
  | raise => exact .bind .pop fun _ => .ite (.pure _) (.throw _)

variable {before after : EditFrame}

theorem Insn.whole_of_verify {insn : Insn} {thisClass : String} {allocation : Option Label} (whole : before.Whole)
    (h : insn.verify pool thisClass allocation before = .ok ((), after)) : after.Whole :=
  insn.maintains_verify EditFrame.lasting_whole thisClass allocation before () after h whole

theorem Branch.whole_of_verify {T : Type} {branch : Branch T} {returnType : Option FieldType} (whole : before.Whole)
    (h : branch.verify returnType before = .ok ((), after)) : after.Whole := by
  have maintains : Maintains (fun locals => Frame.Whole (⟨locals, []⟩ : EditFrame)) (branch.verify returnType) :=
    branch.maintains_verify returnType
  exact maintains before () after h whole

end Rules

namespace EditFrame

/-- No local is ever half of a wide value: neither on entry to a method nor in a frame of a class file, and neither a
merge nor an instruction halves one. -/
theorem never_halved :
    (∀ shape : MethodShape, shape.entryFrame.Whole) ∧
    (∀ (C P : Type) (locals stack : List (VerificationType C P)), (Frame.ofCompact locals stack).Whole) ∧
    (∀ a b merged : EditFrame, a.Whole → b.Whole → a.merge b = some merged → merged.Whole) ∧
    (∀ (before after : EditFrame) (insn : Insn) (pool : ConstantPool) (thisClass : String)
      (allocation : Option Label), before.Whole →
      insn.verify pool thisClass allocation before = .ok ((), after) → after.Whole) ∧
    ∀ (frame : EditFrame) (slot : UInt16) (type : EditType), frame.Whole →
      (frame.setLocal slot type).Whole ∧ frame.Stores slot type (frame.setLocal slot type) := by
  refine ⟨fun _ => Frame.whole_slotsOf _ _, fun _ _ => Frame.whole_slotsOf, ?_, ?_, ?_⟩
  · intro a b merged _ whole h
    exact whole_merge whole h
  · intro before after insn pool thisClass allocation whole h
    exact Insn.whole_of_verify whole h
  · intro frame slot type whole
    have stores := stores_setLocal whole slot type
    exact ⟨stores.whole whole, stores⟩

/-- A double goes over the second slot of one long and the first of another. -/
theorem never_halved_between :
    let before : EditFrame := ⟨[.long, .top, .long, .top, .integer], [.double]⟩
    let after : EditFrame := ⟨[.top, .double, .top, .top, .integer], []⟩
    let other : EditFrame := ⟨[.integer, .double, .top], []⟩
    let merged : EditFrame := ⟨[.top, .double, .top, .top, .top], []⟩
    let shape : MethodShape := ⟨"a/B", true, false, ⟨[.base .long], none⟩⟩
    before.Whole ∧ other.Whole ∧ (Insn.store .double 1).verify .empty "a/B" none before = .ok ((), after) ∧
      after.merge other = some merged ∧ after.Whole ∧ merged.Whole ∧ shape.entryFrame.Whole ∧
      Frame.Whole (.ofCompact [.long, .float] [] : StoredFrame) ∧
      before.Stores 1 .double (before.setLocal 1 .double) := by
  intro before after other merged shape
  have wholeBefore : before.Whole := by decide
  have wholeOther : other.Whole := by decide
  have hverify : (Insn.store .double 1).verify .empty "a/B" none before = .ok ((), after) := by decide
  have hmerge : after.merge other = some merged := by decide
  obtain ⟨entries, compacts, merges, verifies, stores⟩ := never_halved
  have wholeAfter := verifies before after (.store .double 1) .empty "a/B" none wholeBefore hverify
  have wholeMerged := merges after other merged wholeAfter wholeOther hmerge
  exact ⟨wholeBefore, wholeOther, hverify, hmerge, wholeAfter, wholeMerged, entries shape, compacts _ _ _ _,
    (stores before 1 .double wholeBefore).2⟩

end EditFrame

end ClassWeave
