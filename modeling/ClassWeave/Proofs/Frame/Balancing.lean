import ClassWeave.Code.Effect
import ClassWeave.Proofs.Frame.Fitting

/-!
Typing rules against stack effects. Where its rule lets an instruction run, its stack effect is known, and
the rule takes as many slots from the stack and puts as many there as the effect tells. The slots that the
instruction accesses are then among the locals.
-/

namespace ClassWeave

open Verifying

/-- Every wide local is followed by an unusable one. -/
def Frame.Whole {C P : Type} (frame : Frame C P) : Prop :=
  ∀ (slot : Nat) (type : VerificationType C P), frame.locals[slot]? = some type → type.isWide = true →
    frame.locals[slot + 1]? = some .top

theorem EditFrame.lt_of_mem_promises {frame : EditFrame} (whole : frame.Whole) {i : Nat}
    (h : i ∈ promises frame.locals) : i < frame.locals.length := by
  obtain ⟨slot, type, hget, -, hle, hlt⟩ := h
  rcases Nat.lt_or_ge slot i with hbelow | hge
  · -- Past its slot a value reaches only if it is wide.
    by_cases hwide : type.isWide = true
    · have hwidth : type.width = 2 := if_pos hwide
      have hnext := List.getElem?_eq_some_iff.1 (whole slot type hget hwide)
      obtain ⟨hlength, -⟩ := hnext
      omega
    · have hwidth : type.width = 1 := if_neg hwide
      omega
  · obtain ⟨hlength, -⟩ := List.getElem?_eq_some_iff.1 hget
    omega

theorem EditFrame.stackSlots_eq (frame : EditFrame) : frame.stackSlots = frame.widths.sum :=
  List.sum_eq_foldr.symm

namespace Verifying

variable {before after : EditFrame} {type : EditType}

theorem stackSlots_of_pop (h : pop before = .ok (type, after)) :
    before.stackSlots = type.width + after.stackSlots := by
  unfold pop at h
  split at h
  · cases h
  · next first rest hstack =>
    cases h
    unfold Frame.stackSlots
    rw [hstack]
    rfl

theorem stackSlots_of_popNarrow (h : popNarrow before = .ok (type, after)) :
    type.isWide = false ∧ before.stackSlots = 1 + after.stackSlots := by
  obtain ⟨found, middle, hpop, h⟩ := stateT_bind_eq_ok.1 h
  by_cases hwide : found.isWide = true
  · rw [if_pos hwide] at h
    obtain ⟨_, _, hthrow, -⟩ := stateT_bind_eq_ok.1 h
    exact (stateT_throw_ne_ok.1 hthrow).elim
  · rw [if_neg hwide] at h
    obtain ⟨rfl, rfl⟩ := stateT_pure_eq_ok.1 h
    have hwidth : type.width = 1 := if_neg hwide
    exact ⟨Bool.eq_false_iff.2 hwide, hwidth ▸ stackSlots_of_pop hpop⟩

/-- A rule takes so many slots from the stack and puts so many there. -/
def Moves {α : Type} (step : Verifying α) (pops pushes : Nat) : Prop :=
  ∀ before a after, step before = .ok (a, after) →
    ∃ below, before.stackSlots = pops + below ∧ after.stackSlots = pushes + below

theorem Shifts.moves {α : Type} {step : Verifying α} {popped pushed : List Nat}
    (h : Shifts step popped pushed) : Moves step popped.sum pushed.sum := fun before a after hstep => by
  obtain ⟨⟨rest, hbefore, hafter⟩, -⟩ := h before a after hstep
  refine ⟨rest.sum, ?_, ?_⟩
  · rw [EditFrame.stackSlots_eq, hbefore, List.sum_append]
  · rw [EditFrame.stackSlots_eq, hafter, List.sum_append]

namespace Moves

variable {α β : Type} {pops pushes more : Nat}

/-- Nothing behind a refusal is run. -/
theorem refuse {problem : VerifyError} {next : α → Verifying β} :
    Moves (MonadExcept.throw problem >>= next) pops pushes := fun _ _ _ h => by
  obtain ⟨_, _, hthrow, -⟩ := stateT_bind_eq_ok.1 h
  exact (stateT_throw_ne_ok.1 hthrow).elim

/-- Whether the value on top is wide decides how much the rest of the rule takes. -/
theorem pop_bind (more : Nat) {next : EditType → Verifying β}
    (wide : ∀ type, type.isWide = true → Moves (next type) more pushes)
    (narrow : ∀ type, type.isWide = false → Moves (next type) (1 + more) pushes) :
    Moves (pop >>= next) (2 + more) pushes := fun before b after h => by
  obtain ⟨type, middle, hpop, h⟩ := stateT_bind_eq_ok.1 h
  have hslots := stackSlots_of_pop hpop
  cases hwide : type.isWide with
  | true =>
    have hwidth : type.width = 2 := if_pos hwide
    obtain ⟨below, hbelow, hafter⟩ := wide type hwide middle b after h
    exact ⟨below, by omega, hafter⟩
  | false =>
    have hwidth : type.width = 1 := if_neg (Bool.eq_false_iff.1 hwide)
    obtain ⟨below, hbelow, hafter⟩ := narrow type hwide middle b after h
    exact ⟨below, by omega, hafter⟩

theorem popNarrow_bind {next : EditType → Verifying β}
    (narrow : ∀ type, type.isWide = false → Moves (next type) more pushes) :
    Moves (popNarrow >>= next) (1 + more) pushes := fun before b after h => by
  obtain ⟨type, middle, hpop, h⟩ := stateT_bind_eq_ok.1 h
  obtain ⟨hwide, hslots⟩ := stackSlots_of_popNarrow hpop
  obtain ⟨below, hbelow, hafter⟩ := narrow type hwide middle b after h
  exact ⟨below, by omega, hafter⟩

theorem pushAll {types : List EditType} (h : (types.map (·.width)).sum = pushes) :
    Moves (pushAll types) 0 pushes := by
  have hmoves := (Shifts.pushAll types).moves
  rw [List.map_reverse, List.sum_reverse, h] at hmoves
  exact hmoves

end Moves

end Verifying

section Rules

variable {pool : ConstantPool} {before after : EditFrame}

open EditFrame

namespace Insn

variable {index : PoolIndex}

theorem stackEffect_field {field : ConstantPool.MemberRef} {type : FieldType}
    (h : pool.fieldRef index = .ok field) (ht : FieldType.parse field.descriptor = .ok type)
    (access : FieldAccess) :
    (Insn.field access index).stackEffect pool = .ok (match access with
      | .getStatic => ⟨0, type.width⟩
      | .putStatic => ⟨type.width, 0⟩
      | .getField => ⟨1, type.width⟩
      | .putField => ⟨1 + type.width, 0⟩) := by
  have hwidth : fieldWidth pool index = .ok type.width := by
    unfold fieldWidth
    rw [h, show liftM (.ok field : Except PoolError _) = (.ok field : Except ClassError _) from rfl]
    simp only [except_bind_eq_ok, Except.ok.injEq, exists_eq_left', ht]
    rfl
  cases access
  all_goals
    unfold stackEffect
    dsimp only
    rw [hwidth]
    rfl

theorem callEffect_of_parse {text : String} {descriptor : MethodDescriptor}
    (h : MethodDescriptor.parse text = .ok descriptor) (hasReceiver : Bool) :
    callEffect text hasReceiver = .ok ⟨descriptor.parameterSlots hasReceiver,
      (descriptor.returnType.map FieldType.width).getD 0⟩ := by
  unfold callEffect
  rw [h]

theorem stackEffect_invoke {kind : InvokeKind} {method : ConstantPool.MemberRef}
    {descriptor : MethodDescriptor} (h : pool.methodRef index = .ok method)
    (hd : MethodDescriptor.parse method.descriptor = .ok descriptor) :
    (invoke kind index).stackEffect pool = .ok ⟨descriptor.parameterSlots kind.hasReceiver,
      (descriptor.returnType.map FieldType.width).getD 0⟩ := by
  unfold stackEffect
  dsimp only
  rw [h]
  exact callEffect_of_parse hd _

theorem stackEffect_invokeDynamic {site : String × String} {descriptor : MethodDescriptor}
    (h : pool.callSite index = .ok site) (hd : MethodDescriptor.parse site.2 = .ok descriptor) :
    (invokeDynamic index).stackEffect pool = .ok ⟨descriptor.parameterSlots false,
      (descriptor.returnType.map FieldType.width).getD 0⟩ := by
  unfold stackEffect
  dsimp only
  rw [h]
  exact callEffect_of_parse hd _

end Insn

/-- The values that a rearrangement of the stack moves may be wide or not, but the slots are the same. -/
theorem StackOp.moves_verify (op : StackOp) : Moves op.verify op.effect.pops op.effect.pushes := by
  have hpop : Moves (discard popNarrow) 1 0 := (@Insn.shifts_pop .empty "" none).moves
  have wide {type : EditType} (h : type.isWide = true) : type.width = 2 := if_pos h
  have narrow {type : EditType} (h : type.isWide = false) : type.width = 1 := if_neg (Bool.eq_false_iff.1 h)
  cases op with
  | pop => exact hpop
  | pop2 =>
    refine .pop_bind 0 (fun a ha => ?_) fun a ha => ?_
    · rw [if_pos ha]
      exact (Shifts.pure _).moves
    · rw [if_neg (Bool.eq_false_iff.1 ha)]
      exact hpop
  | dup => exact .popNarrow_bind fun a ha => .pushAll (by simp [narrow ha, StackOp.effect])
  | dupX1 =>
    exact .popNarrow_bind fun a ha => .popNarrow_bind fun b hb =>
      .pushAll (by simp [narrow ha, narrow hb, StackOp.effect])
  | dupX2 =>
    refine .popNarrow_bind fun a ha => .pop_bind 0 (fun b hb => ?_) fun b hb => ?_
    · rw [if_pos hb]
      exact .pushAll (by simp [narrow ha, wide hb, StackOp.effect])
    · rw [if_neg (Bool.eq_false_iff.1 hb)]
      exact .popNarrow_bind fun c hc => .pushAll (by simp [narrow ha, narrow hb, narrow hc, StackOp.effect])
  | dup2 =>
    refine .pop_bind 0 (fun a ha => ?_) fun a ha => ?_
    · rw [if_pos ha]
      exact .pushAll (by simp [wide ha, StackOp.effect])
    · rw [if_neg (Bool.eq_false_iff.1 ha)]
      exact .popNarrow_bind fun b hb => .pushAll (by simp [narrow ha, narrow hb, StackOp.effect])
  | dup2X1 =>
    refine .pop_bind 1 (fun a ha => ?_) fun a ha => ?_
    · rw [if_pos ha]
      exact .popNarrow_bind fun b hb => .pushAll (by simp [wide ha, narrow hb, StackOp.effect])
    · rw [if_neg (Bool.eq_false_iff.1 ha)]
      exact .popNarrow_bind fun b hb => .popNarrow_bind fun c hc =>
        .pushAll (by simp [narrow ha, narrow hb, narrow hc, StackOp.effect])
  | dup2X2 =>
    refine .pop_bind 2 (fun a ha => ?_) fun a ha => ?_
    · rw [if_pos ha]
      refine .pop_bind 0 (fun b hb => ?_) fun b hb => ?_
      · rw [if_pos hb]
        exact .pushAll (by simp [wide ha, wide hb, StackOp.effect])
      · rw [if_neg (Bool.eq_false_iff.1 hb)]
        exact .popNarrow_bind fun c hc => .pushAll (by simp [wide ha, narrow hb, narrow hc, StackOp.effect])
    · rw [if_neg (Bool.eq_false_iff.1 ha)]
      refine .popNarrow_bind fun b hb => .pop_bind 0 (fun c hc => ?_) fun c hc => ?_
      · rw [if_pos hc]
        exact .pushAll (by simp [narrow ha, narrow hb, wide hc, StackOp.effect])
      · rw [if_neg (Bool.eq_false_iff.1 hc)]
        exact .popNarrow_bind fun d hd =>
          .pushAll (by simp [narrow ha, narrow hb, narrow hc, narrow hd, StackOp.effect])
  | swap =>
    exact .popNarrow_bind fun a ha => .popNarrow_bind fun b hb =>
      .pushAll (by simp [narrow ha, narrow hb, StackOp.effect])

namespace Insn

variable {thisClass : String} {allocation : Option Label}

/-- Where the rule lets the instruction run, its stack effect is known and tells the slots that the rule takes
and puts there. -/
def Balanced (pool : ConstantPool) (thisClass : String) (allocation : Option Label) (insn : Insn) : Prop :=
  ∀ before after, insn.verify pool thisClass allocation before = .ok ((), after) →
    ∃ effect, insn.stackEffect pool = .ok effect ∧
      ∃ below, before.stackSlots = effect.pops + below ∧ after.stackSlots = effect.pushes + below

theorem moves_operate {operands : List EditType} {result : EditType} {pops pushes : Nat}
    (hpops : (operands.map (·.width)).sum = pops) (hpushes : result.width = pushes) :
    Moves (operate operands result) pops pushes := by
  have h := (Shifts.operate operands result).moves
  rw [List.map_reverse, List.sum_reverse, hpops, List.sum_singleton, hpushes] at h
  exact h

theorem moves_arrayStore (kind : ArrayKind) :
    Moves ((Insn.arrayStore kind).verify pool thisClass allocation) (2 + kind.width) 0 := by
  cases hk : kind.element? with
  | some pair =>
    obtain ⟨element, classes⟩ := pair
    have hwidth : element.width = kind.width := by cases kind <;> cases hk <;> rfl
    have hverify : (Insn.arrayStore kind).verify pool thisClass allocation = (do
        popExactly element
        popExactly .integer
        ArrayKind.popArray classes) := by
      change ArrayKind.verifyStore kind = _
      unfold ArrayKind.verifyStore
      rw [hk]
    rw [hverify, ← hwidth, Nat.add_comm]
    exact (Shifts.bind (.popExactly element) fun _ => .bind (.popExactly .integer) fun _ =>
      shifts_popArray classes).moves
  | none =>
    cases kind with
    | reference => exact shifts_arrayStore.moves
    | _ => cases hk

theorem moves_newMultiArray (index : PoolIndex) (dimensions : UInt8) :
    Moves ((Insn.newMultiArray index dimensions).verify pool thisClass allocation) dimensions.toNat 1 := by
  have counts : Shifts ((List.replicate dimensions.toNat (.integer : EditType)).forM popExactly)
      (List.replicate dimensions.toNat 1) [] := by
    have h := Shifts.forM Shifts.popExactly (List.replicate dimensions.toNat .integer)
    rw [List.map_replicate] at h
    exact h
  have shifts : Shifts ((Insn.newMultiArray index dimensions).verify pool thisClass allocation)
      (List.replicate dimensions.toNat 1 ++ []) [1] :=
    .bind counts fun _ => .bind shifts_classTypeAt fun type => .push (.object type.className)
  have hmoves := shifts.moves
  rw [List.append_nil, List.sum_replicate_nat, Nat.mul_one] at hmoves
  exact hmoves

theorem balanced_field {access : FieldAccess} {index : PoolIndex} :
    Balanced pool thisClass allocation (.field access index) := fun before after h => by
  have hverify : (Insn.field access index).verify pool thisClass allocation = access.verify pool index := rfl
  rw [hverify] at h
  unfold FieldAccess.verify at h
  cases hfield : pool.fieldRef index with
  | error problem =>
    rw [hfield] at h
    exact (stateT_throw_ne_ok.1 h).elim
  | ok field =>
    rw [hfield] at h
    dsimp only at h
    cases htype : FieldType.parse field.descriptor with
    | error problem =>
      rw [htype] at h
      exact (stateT_throw_ne_ok.1 h).elim
    | ok type =>
      rw [htype] at h
      have put : Shifts (popAssignable (EditType.ofFieldType type)) [type.width] [] :=
        EditType.width_ofFieldType type ▸ .popAssignable (EditType.ofFieldType_ne_top type)
      have owned : Shifts (popAssignable (.object field.owner)) [1] [] :=
        @Shifts.popAssignable (.object field.owner) nofun
      refine ⟨_, stackEffect_field hfield htype access, ?_⟩
      cases access with
      | getStatic => exact (Shifts.pushValue type).moves _ _ _ h
      | putStatic => exact put.moves _ _ _ h
      | getField => exact (Shifts.bind owned fun _ => .pushValue type).moves _ _ _ h
      | putField =>
        obtain ⟨below, hbefore, hafter⟩ := (Shifts.bind put fun _ => owned).moves _ _ _ h
        exact ⟨below, hbefore.trans (congrArg (· + below) (Nat.add_comm _ _)), hafter⟩

/-- What a call takes and leaves, counted in slots. -/
theorem sum_widths_call (descriptor : MethodDescriptor) (hasReceiver : Bool) :
    (descriptor.parameters.reverse.map FieldType.width ++ List.replicate hasReceiver.toNat 1).sum =
        descriptor.parameterSlots hasReceiver ∧
      (descriptor.returnType.map FieldType.width).toList.sum =
        (descriptor.returnType.map FieldType.width).getD 0 := by
  constructor
  · rw [List.sum_append, List.map_reverse, List.sum_reverse, MethodDescriptor.parameterSlots,
      ← List.sum_eq_foldr]
    cases hasReceiver <;> rfl
  · cases descriptor.returnType <;> rfl

theorem balanced_invoke {kind : InvokeKind} {index : PoolIndex} :
    Balanced pool thisClass allocation (.invoke kind index) := fun before after h => by
  have hverify : (Insn.invoke kind index).verify pool thisClass allocation =
      kind.verify pool thisClass index := rfl
  cases hmethod : pool.methodRef index with
  | error problem =>
    rw [hverify] at h
    unfold InvokeKind.verify at h
    rw [hmethod] at h
    exact (stateT_throw_ne_ok.1 h).elim
  | ok method =>
    cases hparse : MethodDescriptor.parse method.descriptor with
    | error problem =>
      rw [hverify] at h
      unfold InvokeKind.verify at h
      rw [hmethod] at h
      dsimp only at h
      rw [hparse] at h
      exact (stateT_throw_ne_ok.1 h).elim
    | ok descriptor =>
      have hmoves := (shifts_invoke hmethod hparse).moves before () after h
      rw [(sum_widths_call descriptor _).1, (sum_widths_call descriptor true).2] at hmoves
      exact ⟨_, stackEffect_invoke hmethod hparse, hmoves⟩

theorem balanced_invokeDynamic {index : PoolIndex} :
    Balanced pool thisClass allocation (.invokeDynamic index) := fun before after h => by
  unfold verify at h
  dsimp only at h
  cases hsite : pool.callSite index with
  | error problem =>
    rw [hsite] at h
    exact (stateT_throw_ne_ok.1 h).elim
  | ok site =>
    rw [hsite] at h
    dsimp only at h
    cases hparse : MethodDescriptor.parse site.2 with
    | error problem =>
      rw [hparse] at h
      exact (stateT_throw_ne_ok.1 h).elim
    | ok descriptor =>
      rw [hparse] at h
      have hmoves := ((shifts_popArguments descriptor).bind fun _ => shifts_pushReturn descriptor).moves
        before () after h
      rw [List.append_nil] at hmoves
      have hcount := sum_widths_call descriptor false
      rw [Bool.toNat_false, List.replicate_zero, List.append_nil] at hcount
      rw [hcount.1, hcount.2] at hmoves
      exact ⟨_, stackEffect_invokeDynamic hsite hparse, hmoves⟩

theorem balanced (insn : Insn) : Balanced pool thisClass allocation insn := fun before after h => by
  have moved : ∀ {pops pushes : Nat}, insn.stackEffect pool = .ok ⟨pops, pushes⟩ →
      Moves (insn.verify pool thisClass allocation) pops pushes →
      ∃ effect, insn.stackEffect pool = .ok effect ∧ ∃ below, before.stackSlots = effect.pops + below ∧
        after.stackSlots = effect.pushes + below := fun heffect hmoves => ⟨_, heffect, hmoves _ _ _ h⟩
  cases insn with
  | nop => exact moved rfl (Shifts.pure _).moves
  | constNull | constInt | constFloat | pushByte | pushShort | constLong | constDouble =>
    exact moved rfl (Shifts.push _).moves
  | loadConstant | loadWideConstant => exact moved rfl (shifts_loadOfWidth _ _).moves
  | load kind slot =>
    obtain ⟨hwidths, -, -⟩ := verify_load h
    exact ⟨_, rfl, _, (Nat.zero_add _).symm, by
      rw [EditFrame.stackSlots_eq, hwidths, List.sum_cons, EditFrame.stackSlots_eq]⟩
  | store kind slot =>
    obtain ⟨hwidths, -⟩ := verify_store h
    exact ⟨_, rfl, _, by rw [EditFrame.stackSlots_eq, hwidths, List.sum_cons, ← EditFrame.stackSlots_eq],
      (Nat.zero_add _).symm⟩
  | increment => 
    obtain ⟨rfl, -⟩ := verify_increment h
    exact ⟨_, rfl, _, (Nat.zero_add _).symm, (Nat.zero_add _).symm⟩
  | arrayLoad kind => exact moved rfl (shifts_arrayLoad kind).moves
  | arrayStore kind => exact moved rfl (moves_arrayStore kind)
  | stack op => exact moved rfl op.moves_verify
  | arithmetic op kind => exact moved rfl (moves_operate (by cases kind <;> rfl) (by cases kind <;> rfl))
  | negate kind => exact moved rfl (moves_operate (by cases kind <;> rfl) (by cases kind <;> rfl))
  | shift op ofLong => cases ofLong <;> exact moved rfl (moves_operate rfl rfl)
  | bitwise op ofLong => cases ofLong <;> exact moved rfl (moves_operate rfl rfl)
  | compareFloat ofDouble mode => cases ofDouble <;> exact moved rfl (moves_operate rfl rfl)
  | compareLong => exact moved rfl (moves_operate rfl rfl)
  | convert conversion => exact moved rfl (moves_operate (by cases conversion <;> rfl) (by cases conversion <;> rfl))
  | field access index => exact balanced_field before after h
  | invoke kind index => exact balanced_invoke before after h
  | invokeDynamic index => exact balanced_invokeDynamic before after h
  | new index =>
    cases allocation with
    | some label => exact moved rfl (Shifts.push _).moves
    | none => exact (stateT_throw_ne_ok.1 h).elim
  | newArray element => exact moved rfl (Shifts.bind (.popExactly .integer) fun _ => .push _).moves
  | newRefArray index => exact moved rfl (shifts_newRefArray index).moves
  | newMultiArray index dimensions => exact moved rfl (moves_newMultiArray index dimensions)
  | arrayLength => exact moved rfl shifts_arrayLength.moves
  | checkCast index => exact moved rfl (shifts_checkCast index).moves
  | instanceOf index => exact moved rfl (Shifts.bind .popReference fun _ => .push _).moves
  | monitorEnter | monitorExit => exact moved rfl Shifts.popReference.moves

/-- The slots that the instruction accesses are among the locals afterwards. -/
theorem slots_le_of_verify {insn : Insn} (whole : before.Whole)
    (h : insn.verify pool thisClass allocation before = .ok ((), after)) {slot : UInt16} {width : Nat}
    (haccess : insn.localAccess? = some (slot, width)) : slot.toNat + width ≤ after.locals.length := by
  cases insn with
  | load kind index =>
    cases haccess
    obtain ⟨-, hlocals, hpromised⟩ := verify_load h
    have hpositive : 0 < kind.width := by cases kind <;> decide
    have hlast := lt_of_mem_promises whole (hpromised (kind.width - 1) (by omega))
    rw [hlocals]
    omega
  | store kind index =>
    cases haccess
    obtain ⟨middle, type, -, -, hwidth, rfl⟩ := eq_setLocal_of_store h
    rw [length_setLocal, hwidth]
    exact Nat.le_max_right _ _
  | increment index amount =>
    cases haccess
    obtain ⟨rfl, hpromised⟩ := verify_increment h
    exact lt_of_mem_promises whole hpromised
  | _ => cases haccess

end Insn

namespace Branch

/-- A branch takes its operands and puts nothing on the stack. -/
theorem moves_verify {T : Type} (returnType : Option FieldType) (branch : Branch T) :
    Moves (branch.verify returnType) branch.pops 0 := by
  cases branch with
  | ifZero | tableSwitch | lookupSwitch => exact (Shifts.popExactly .integer).moves
  | ifInts comparison target => exact (shifts_ifInts comparison target).moves
  | ifRefs => exact (Shifts.bind .popReference fun _ => .popReference).moves
  | ifNull => exact Shifts.popReference.moves
  | goto => exact (Shifts.pure _).moves
  | «return» kind? =>
    cases kind? with
    | some kind => exact (shifts_return kind).moves
    | none => exact (Shifts.ite (.throw _) (.pure _)).moves
  | raise => exact (@Shifts.popAssignable (.object ClassName.throwable.text) nofun).moves

end Branch

/-- What the typing rules do to the stack is what the stack effects tell, for instructions and for branches. -/
theorem stackSlots_of_verify {T : Type} (pool : ConstantPool) (thisClass : String) (allocation : Option Label)
    (insn : Insn) (returnType : Option FieldType) (branch : Branch T) :
    (∀ before after : EditFrame, before.Whole →
      insn.verify pool thisClass allocation before = .ok ((), after) →
      ∃ effect, insn.stackEffect pool = .ok effect ∧ effect.pops ≤ before.stackSlots ∧
        after.stackSlots = before.stackSlots - effect.pops + effect.pushes ∧
        ∀ slot width, insn.localAccess? = some (slot, width) → slot.toNat + width ≤ after.locals.length) ∧
    ∀ before after : EditFrame, branch.verify returnType before = .ok ((), after) →
      branch.pops ≤ before.stackSlots ∧ after.stackSlots = before.stackSlots - branch.pops := by
  refine ⟨fun before after whole h => ?_, fun before after h => ?_⟩
  · obtain ⟨effect, heffect, below, hbefore, hafter⟩ := insn.balanced before after h
    exact ⟨effect, heffect, by omega, by omega, fun slot width haccess =>
      Insn.slots_le_of_verify whole h haccess⟩
  · obtain ⟨below, hbefore, hafter⟩ := branch.moves_verify returnType before () after h
    omega

/-- A long is loaded above an int, and two ints are compared. -/
theorem stackSlots_of_verify_load :
    let before : EditFrame := ⟨[.object "A", .long, .top], [.integer, .integer]⟩
    let loaded : EditFrame := { before with stack := .long :: before.stack }
    let compared : EditFrame := { before with stack := [] }
    before.Whole ∧ (Insn.load .long 1).verify .empty "A" none before = .ok ((), loaded) ∧
      (Branch.ifInts .lt ()).verify none before = .ok ((), compared) ∧
      (∃ effect, (Insn.load .long 1).stackEffect .empty = .ok effect ∧ effect.pops ≤ before.stackSlots ∧
        loaded.stackSlots = before.stackSlots - effect.pops + effect.pushes ∧
        ∀ slot width, (Insn.load .long 1).localAccess? = some (slot, width) →
          slot.toNat + width ≤ loaded.locals.length) ∧
      (Branch.ifInts .lt ()).pops ≤ before.stackSlots ∧
        compared.stackSlots = before.stackSlots - (Branch.ifInts .lt ()).pops := by
  intro before loaded compared
  have whole : before.Whole := fun slot type h hwide => by
    match slot with
    | 0 | 2 => cases h; cases hwide
    | 1 => rfl
    | _ + 3 => cases h
  have balanced := stackSlots_of_verify .empty "A" none (.load .long 1) none (.ifInts .lt ())
  exact ⟨whole, rfl, rfl, balanced.1 before loaded whole rfl, balanced.2 before compared rfl⟩

end Rules

end ClassWeave
