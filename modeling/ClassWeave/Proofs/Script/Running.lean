import ClassWeave.Patch.Strategy
import ClassWeave.Proofs.Code.Operations

/-!
Compiled scripts as runs of a builder. An expression leaves no label open, a condition only the one
it jumps to, and a statement none of those it makes.
-/

namespace ClassWeave

open Builder

namespace Compiler

variable {α β : Type} {targets others : List Label} {c c' : Compiler}

theorem lift_eq_ok {step : Building α} {a : α} :
    lift step c = .ok a c' ↔ ∃ B, step c.builder = .ok a B ∧ c' = { c with builder := B } := by
  unfold lift
  cases step c.builder with
  | ok b B => simp; grind
  | error problem B => simp

theorem lift_bind_eq_ok {step : Building α} {next : α → Compiling β} {b : β} :
    (lift step >>= next) c = .ok b c' ↔
      ∃ a B, step c.builder = .ok a B ∧ next a { c with builder := B } = .ok b c' := by
  rw [bind_eq_ok]
  constructor
  · rintro ⟨a, c₁, hstep, hnext⟩
    obtain ⟨B, hB, rfl⟩ := lift_eq_ok.1 hstep
    exact ⟨a, B, hB, hnext⟩
  · rintro ⟨a, B, hB, hnext⟩
    exact ⟨a, _, lift_eq_ok.2 ⟨B, hB, rfl⟩, hnext⟩

/-- Compiling runs the builder, and leaves open at most the targets, all of them handed out before. -/
def Emits (targets : List Label) (step : Compiling α) : Prop :=
  ∀ c a c', (∀ label ∈ targets, label.number < c.builder.labels.allocated) →
    step c = .ok a c' → Extends targets c.builder c'.builder

namespace Emits

theorem pure (a : α) : Emits targets (Pure.pure a : Compiling α) := fun c b c' _ h => by
  obtain ⟨-, rfl⟩ := pure_eq_ok.1 h
  exact .refl targets _

theorem throw (problem : PatchError) : Emits targets (throw problem : Compiling α) :=
  fun _ _ _ _ h => (throw_ne_ok.1 h).elim

theorem bind {step : Compiling α} {next : α → Compiling β} (hs : Emits targets step)
    (hn : ∀ a, Emits targets (next a)) : Emits targets (step >>= next) := fun c b c' known h => by
  obtain ⟨a, c₁, h₁, h₂⟩ := bind_eq_ok.1 h
  have first := hs c a c₁ known h₁
  exact first.trans (hn a c₁ b c' (fun l hl => first.allocated_lt (known l hl)) h₂)

theorem mono {step : Compiling α} (hsub : targets ⊆ others) (hs : Emits targets step) :
    Emits others step := fun c a c' known h =>
  (hs c a c' (fun l hl => known l (hsub hl)) h).mono hsub

theorem ite {p : Prop} [Decidable p] {a b : Compiling α} (ha : Emits targets a)
    (hb : Emits targets b) : Emits targets (if p then a else b) := by
  split
  · exact ha
  · exact hb

theorem get : Emits targets (get : Compiling Compiler) := fun c a c' _ h => by
  obtain ⟨-, rfl⟩ := get_eq_ok.1 h
  exact .refl targets _

theorem lift {step : Building α} (hs : Adds targets step) :
    Emits targets (liftM step : Compiling α) := fun c a c' known h => by
  obtain ⟨B, hB, rfl⟩ := lift_eq_ok.1 h
  exact hs c.builder a B known hB

/-- What uses no label extends a builder whatever the targets are. -/
theorem extends_of_nil (targets : List Label) {step : Compiling α} (hs : Emits [] step) {a : α}
    (h : step c = .ok a c') : Extends targets c.builder c'.builder :=
  (hs c a c' (by simp) h).mono (List.nil_subset targets)

theorem extends_of_one (targets : List Label) {label : Label} {step : Compiling α} (hs : Emits [label] step) {a : α}
    (known : label.number < c.builder.labels.allocated) (hmem : label ∈ targets)
    (h : step c = .ok a c') : Extends targets c.builder c'.builder :=
  (hs c a c' (List.forall_mem_singleton.2 known) h).mono (by simpa using hmem)

end Emits

theorem emits_shape : Emits targets shape := .bind .get fun _ => .pure _

theorem emits_lookUp (name : String) : Emits targets (lookUp name) :=
  .bind .get fun c => by
    split
    · exact .pure _
    · exact .throw _

theorem emits_argument (index : Nat) : Emits targets (argument index) :=
  .bind emits_shape fun shape => by
    split
    · exact .pure _
    · exact .throw _

theorem emits_fieldType (descriptor : String) : Emits targets (fieldType descriptor) := by
  unfold fieldType
  split
  · exact .pure _
  · exact .throw _

theorem emits_classType (name : String) : Emits targets (classType name) := by
  unfold classType
  split
  · exact .pure _
  · exact .throw _

theorem emits_required (expression : Expr) (type : Option FieldType) :
    Emits targets (required expression type) := by
  cases type with
  | some type => exact .pure _
  | none => exact .throw _

theorem emits_callDescriptor (owner name text : String) (count : Nat) :
    Emits targets (callDescriptor owner name text count) := by
  unfold callDescriptor
  split
  · exact .throw _
  · exact .ite (.pure _) (.throw _)

/-- The value of an expression is there, and dropped from view. -/
theorem Emits.discardRequired {step : Compiling (Option FieldType)} (hs : Emits targets step)
    (expression : Expr) {next : PUnit → Compiling β} (hn : ∀ u, Emits targets (next u)) :
    Emits targets (step >>= fun type => discard (required expression type) >>= next) :=
  .bind hs fun type => .bind (.bind (emits_required expression type) fun _ => .pure _) hn

mutual

theorem emits_expr (targets : List Label) : ∀ expression : Expr, Emits targets (expr expression)
  | .null => by
    rw [expr]
    exact .bind (.lift (.push (by simp))) fun _ => .pure _
  | .int value => by
    rw [expr]
    exact .bind (.lift (.constInt value)) fun _ => .pure _
  | .long value => by
    rw [expr]
    exact .bind (.lift (.constLong value)) fun _ => .pure _
  | .bool value => by
    rw [expr]
    exact .bind (.lift (.constInt _)) fun _ => .pure _
  | .string text => by
    rw [expr]
    exact .bind (.lift (.constString text)) fun _ => .pure _
  | .this => by
    rw [expr]
    refine .bind emits_shape fun shape => .ite (.bind (.throw _) fun _ => ?_) ?_
    all_goals exact .bind (.lift (.push (by simp))) fun _ => .bind (emits_classType _) fun _ => .pure _
  | .argument index => by
    rw [expr]
    exact .bind (emits_argument index) fun _ => .bind (.lift (.load _ _)) fun _ => .pure _
  | .variable name => by
    rw [expr]
    exact .bind (emits_lookUp name) fun _ => .bind (.lift (.load _ _)) fun _ => .pure _
  | .getField object field => by
    rw [expr]
    exact .discardRequired (emits_expr targets object) object fun _ =>
      .bind (.lift (.field _ _ _ _)) fun _ => .bind (emits_fieldType _) fun _ => .pure _
  | .getStatic field => by
    rw [expr]
    exact .bind (.lift (.field _ _ _ _)) fun _ => .bind (emits_fieldType _) fun _ => .pure _
  | .call kind owner name text receiver arguments => by
    rw [expr]
    refine .bind (emits_callDescriptor owner name text _) fun descriptor => ?_
    have invoked : Emits targets (do
        values arguments
        Builder.invoke kind.invokeKind owner name text
        return descriptor.returnType) :=
      .bind (emits_values targets arguments) fun _ => .bind (.lift (.invoke _ _ _ _)) fun _ => .pure _
    match receiver with
    | none =>
      cases kind with
      | static => exact invoked
      | _ => exact .bind (.throw _) fun _ => invoked
    | some receiver =>
      cases kind with
      | static => exact .bind (.throw _) fun _ => invoked
      | _ => exact .discardRequired (emits_expr targets receiver) receiver fun _ => invoked
  | .checkCast value target => by
    rw [expr]
    exact .discardRequired (emits_expr targets value) value fun _ =>
      .bind (.lift (.checkCast target)) fun _ => .bind (emits_classType _) fun _ => .pure _
  | .arrayLength array => by
    rw [expr]
    exact .discardRequired (emits_expr targets array) array fun _ =>
      .bind (.lift (.push (by simp))) fun _ => .pure _
  | .arrayElement array index => by
    rw [expr]
    refine .bind (emits_expr targets array) fun found => .bind (emits_required array found) fun type => ?_
    split
    · exact .throw _
    · exact .discardRequired (emits_expr targets index) index fun _ =>
        .bind (.lift (.push (by simp))) fun _ => .pure _
  | .objectArray element elements => by
    rw [expr]
    exact .bind (emits_classType element) fun _ => .bind (.lift (.constInt _)) fun _ =>
      .bind (.lift (.newRefArray element)) fun _ =>
        .bind (emits_storeElements targets 0 elements) fun _ => .pure _
  | .bitAnd a b => by
    rw [expr]
    exact .discardRequired (emits_expr targets a) a fun _ =>
      .discardRequired (emits_expr targets b) b fun _ =>
        .bind (.lift (.push (by simp))) fun _ => .pure _

theorem emits_values (targets : List Label) : ∀ arguments : List Expr,
    Emits targets (values arguments)
  | [] => by
    rw [values]
    exact .pure _
  | first :: rest => by
    rw [values]
    exact .discardRequired (emits_expr targets first) first fun _ => emits_values targets rest

theorem emits_storeElements (targets : List Label) : ∀ (position : Nat) (elements : List Expr),
    Emits targets (storeElements position elements)
  | position, [] => by
    rw [storeElements]
    exact .pure _
  | position, first :: rest => by
    rw [storeElements]
    exact .bind (.lift (.push (by simp))) fun _ => .bind (.lift (.constInt _)) fun _ =>
      .discardRequired (emits_expr targets first) first fun _ =>
        .bind (.lift (.push (by simp))) fun _ => emits_storeElements targets (position + 1) rest

end

theorem emits_value (expression : Expr) : Emits targets (value expression) :=
  .bind (emits_expr targets expression) fun type => emits_required expression type

theorem Emits.discardValue (expression : Expr) {next : PUnit → Compiling β}
    (hn : ∀ u, Emits targets (next u)) : Emits targets (discard (value expression) >>= next) :=
  .bind (.bind (emits_value expression) fun _ => .pure _) hn

theorem emits_gotoIfReachable (label : Label) : Emits [label] (gotoIfReachable label) :=
  .bind (.bind .get fun _ => .pure _) fun _ =>
    .ite (.lift (.pushBranch (List.Subset.refl _) rfl)) (.pure _)

theorem isReachable_bind_eq_ok {next : Bool → Compiling β} {b : β} :
    (isReachable >>= next) c = .ok b c' ↔ next c.builder.isReachable c = .ok b c' := Iff.rfl

theorem isJumpedTo_bind_eq_ok {label : Label} {next : Bool → Compiling β} {b : β} :
    (isJumpedTo label >>= next) c = .ok b c' ↔ next (c.builder.isJumpedTo label) c = .ok b c' :=
  Iff.rfl

theorem fresh_eq_ok (targets : List Label) {label : Label} (h : (liftM fresh : Compiling Label) c = .ok label c') :
    label.number < c'.builder.labels.allocated ∧ Extends targets c.builder c'.builder := by
  obtain ⟨B, hB, rfl⟩ := lift_eq_ok.1 h
  obtain ⟨rfl, rfl⟩ := Builder.fresh_eq_ok.1 hB
  exact ⟨Nat.lt_succ_self _, extends_fresh targets _⟩

theorem closes_place {label : Label} {u : Unit} (known : label.number < c.builder.labels.allocated)
    (h : (liftM (place label) : Compiling Unit) c = .ok u c') :
    Closes label c.builder c'.builder := by
  obtain ⟨B, hB, rfl⟩ := lift_eq_ok.1 h
  exact Builder.closes_place known hB

theorem closes_placeIfReachable {label : Label} {u : Unit}
    (known : label.number < c.builder.labels.allocated)
    (h : placeIfReachable label c = .ok u c') : Closes label c.builder c'.builder := by
  unfold placeIfReachable at h
  rw [isReachable_bind_eq_ok, isJumpedTo_bind_eq_ok] at h
  split at h
  · exact closes_place known h
  · next hn =>
    obtain ⟨-, rfl⟩ := pure_eq_ok.1 h
    refine ⟨.refl _, fun l hl => ⟨hl, ?_⟩⟩
    rintro rfl
    exact hn (Bool.or_eq_true _ _ ▸ .inr hl.1)

theorem emits_junction {neutral jumpIf : Bool} {target : Label} {isEmpty : Bool}
    {each : Compiling Unit} {lastOf : Label → Compiling Unit} (heach : Emits [target] each)
    (hlast : ∀ skip, Emits [skip, target] (lastOf skip)) :
    Emits [target] (junction neutral jumpIf target isEmpty each lastOf) := by
  unfold junction
  refine .ite (.ite (.lift (.pushBranch (List.Subset.refl _) rfl)) (.pure _)) (.ite heach ?_)
  intro c u c' known h
  obtain ⟨skip, c₁, h₁, h⟩ := bind_eq_ok.1 h
  obtain ⟨_, c₂, h₂, h₃⟩ := bind_eq_ok.1 h
  obtain ⟨hskip, made⟩ := fresh_eq_ok [target] h₁
  have known' := fun l hl => made.allocated_lt (known l hl)
  have jumped := hlast skip c₁ _ c₂ (List.forall_mem_cons.2 ⟨hskip, known'⟩) h₂
  exact made.trans (jumped.close (closes_placeIfReachable (jumped.allocated_lt hskip) h₃))

mutual

theorem emits_cond : ∀ (jumpIf : Bool) (target : Label) (condition : Cond),
    Emits [target] (cond jumpIf target condition)
  | jumpIf, target, .isNull operand => by
    rw [cond]
    exact .discardValue operand fun _ => .lift (.pushBranch (List.Subset.refl _) rfl)
  | jumpIf, target, .notNull operand => by
    rw [cond]
    exact .discardValue operand fun _ => .lift (.pushBranch (List.Subset.refl _) rfl)
  | jumpIf, target, .isTrue operand => by
    rw [cond]
    exact .discardValue operand fun _ => .lift (.pushBranch (List.Subset.refl _) rfl)
  | jumpIf, target, .isFalse operand => by
    rw [cond]
    exact .discardValue operand fun _ => .lift (.pushBranch (List.Subset.refl _) rfl)
  | jumpIf, target, .compare comparison a b => by
    rw [cond]
    exact .discardValue a fun _ => .discardValue b fun _ =>
      .lift (.pushBranch (List.Subset.refl _) rfl)
  | jumpIf, target, .not condition => by
    rw [cond]
    exact emits_cond (!jumpIf) target condition
  | jumpIf, target, .all conditions => by
    rw [cond]
    exact emits_junction (emits_each jumpIf target conditions)
      fun skip => emits_lastOf jumpIf target skip conditions
  | jumpIf, target, .any conditions => by
    rw [cond]
    exact emits_junction (emits_each jumpIf target conditions)
      fun skip => emits_lastOf jumpIf target skip conditions

theorem emits_each : ∀ (jumpIf : Bool) (target : Label) (conditions : List Cond),
    Emits [target] (each jumpIf target conditions)
  | jumpIf, target, [] => by
    rw [each]
    exact .pure _
  | jumpIf, target, first :: rest => by
    rw [each]
    exact .bind (emits_cond jumpIf target first) fun _ => emits_each jumpIf target rest

theorem emits_lastOf : ∀ (jumpIf : Bool) (target skip : Label) (conditions : List Cond),
    Emits [skip, target] (lastOf jumpIf target skip conditions)
  | jumpIf, target, skip, [] => by
    rw [lastOf]
    exact .pure _
  | jumpIf, target, skip, [last] => by
    rw [lastOf]
    exact (emits_cond jumpIf target last).mono (by simp)
  | jumpIf, target, skip, first :: second :: rest => by
    rw [lastOf]
    · exact .bind ((emits_cond (!jumpIf) skip first).mono (by simp)) fun _ =>
        emits_lastOf jumpIf target skip (second :: rest)
    · simp

end

theorem emits_condValue (condition : Cond) : Emits targets (condValue condition) := by
  intro c u c' known h
  obtain ⟨zero, c₁, h₁, h⟩ := bind_eq_ok.1 h
  obtain ⟨join, c₂, h₂, h⟩ := bind_eq_ok.1 h
  obtain ⟨_, c₃, h₃, h⟩ := bind_eq_ok.1 h
  obtain ⟨hzero, made⟩ := fresh_eq_ok (zero :: join :: targets) h₁
  obtain ⟨hjoin, made'⟩ := fresh_eq_ok (zero :: join :: targets) h₂
  have hzero := made'.allocated_lt hzero
  have jumped := (emits_cond false zero condition).extends_of_one
    (zero :: join :: targets) hzero (by simp) h₃
  have emitted := (made.trans made').trans jumped
  have hzero := jumped.allocated_lt hzero
  have hjoin := jumped.allocated_lt hjoin
  -- The rest places both labels, wherever control has got to.
  have closed : ∀ d, Extends (zero :: join :: targets) c.builder d.builder →
      zero.number < d.builder.labels.allocated → join.number < d.builder.labels.allocated →
      (do
        if ← isJumpedTo zero then
          place zero
          Builder.constInt 0
        placeIfReachable join : Compiling Unit) d = .ok u c' →
      Extends targets c.builder c'.builder := by
    intro d hd hz hj h
    rw [isJumpedTo_bind_eq_ok] at h
    split at h
    · obtain ⟨_, d₁, hp, h⟩ := bind_eq_ok.1 h
      obtain ⟨_, d₂, hi, h⟩ := bind_eq_ok.1 h
      have placed := closes_place hz hp
      have pushed := Emits.extends_of_nil (join :: targets) (.lift (.constInt 0)) hi
      have hj := pushed.allocated_lt (placed.allocated_lt hj)
      exact ((hd.close placed).trans pushed).close (closes_placeIfReachable hj h)
    · next hn =>
      have unused : Closes zero d.builder d.builder :=
        ⟨.refl _, fun l hl => ⟨hl, fun e => hn (e ▸ hl.1)⟩⟩
      exact (hd.close unused).close (closes_placeIfReachable hj h)
  rw [isReachable_bind_eq_ok] at h
  split at h
  · obtain ⟨_, c₄, h₄, h⟩ := bind_eq_ok.1 h
    obtain ⟨_, c₅, h₅, h⟩ := bind_eq_ok.1 h
    have pushed := Emits.extends_of_nil (zero :: join :: targets) (.lift (.constInt 1)) h₄
    have jumped' := Emits.extends_of_one (zero :: join :: targets)
      (.lift (.pushBranch (by simp [Branch.jumpTargets]) rfl)) (pushed.allocated_lt hjoin) (by simp) h₅
    have more := pushed.trans jumped'
    exact closed c₅ (emitted.trans more) (more.allocated_lt hzero) (more.allocated_lt hjoin) h
  · exact closed c₃ emitted hzero hjoin h

theorem emits_allocate (type : FieldType) : Emits targets (allocate type) := by
  intro c slot c' known h
  unfold allocate at h
  rw [get_bind_eq_ok] at h
  simp only at h
  split at h
  · exact (throw_bind_ne_ok.1 h).elim
  · rw [set_bind_eq_ok] at h
    obtain ⟨-, rfl⟩ := pure_eq_ok.1 h
    exact .refl targets _

theorem emits_declare (name : String) (slot : UInt16) (type : FieldType) :
    Emits targets (declare name slot type) := fun c u c' known h => by
  rw [modify_eq_ok.1 h]
  exact .refl targets _

theorem emits_bind (name : String) (type : FieldType) : Emits targets (bind name type) :=
  .bind (emits_allocate type) fun _ => .bind (.lift (.store _ _)) fun _ => emits_declare _ _ _

/-- Once the step has ended, the label is placed. -/
def Places (label : Label) (step : Compiling α) : Prop :=
  ∀ c a c', step c = .ok a c' → c'.builder.isPlaced label = true

theorem Places.bind {label : Label} {step : Compiling α} {next : α → Compiling β}
    (hn : ∀ a, Places label (next a)) : Places label (step >>= next) := fun c b c' h => by
  obtain ⟨a, c₁, -, h⟩ := bind_eq_ok.1 h
  exact hn a c₁ b c' h

theorem places_place (label : Label) :
    Places label (liftM (place label) : Compiling Unit) := fun c u c' h => by
  obtain ⟨B, hB, rfl⟩ := lift_eq_ok.1 h
  obtain ⟨-, frame, -, rfl⟩ := place_eq_ok hB
  rw [isPlaced_iff, placed_nodes]
  exact List.mem_cons_self

theorem emits_place {label : Label} (hmem : label ∈ targets) :
    Emits targets (liftM (place label) : Compiling Unit) := fun _ _ _ known h =>
  (closes_place (known label hmem) h).extends targets

theorem emits_allOf (result : String) (array : Expr) (element : String) (test : Cond) :
    Emits targets (allOf result array element test) := by
  refine .bind (emits_value array) fun arrayType => ?_
  split
  · exact .throw _
  · refine .bind (emits_allocate _) fun arraySlot => .bind (.lift (.store _ _)) fun _ =>
      .bind (emits_allocate _) fun indexSlot => .bind (.lift (.constInt _)) fun _ =>
      .bind (.lift (.store _ _)) fun _ => .bind (emits_allocate _) fun resultSlot =>
      .bind (.lift (.constInt _)) fun _ => .bind (.lift (.store _ _)) fun _ =>
      .bind (emits_allocate _) fun elementSlot => .bind (emits_declare _ _ _) fun _ =>
      .bind (emits_declare _ _ _) fun _ => ?_
    intro c u c' known h
    obtain ⟨head, c₁, h₁, h⟩ := bind_eq_ok.1 h
    obtain ⟨exit, c₂, h₂, h⟩ := bind_eq_ok.1 h
    obtain ⟨_, c₃, h₃, h⟩ := bind_eq_ok.1 h
    obtain ⟨hhead, made⟩ := fresh_eq_ok (head :: exit :: targets) h₁
    obtain ⟨hexit, made'⟩ := fresh_eq_ok (head :: exit :: targets) h₂
    have started := closes_place (made'.allocated_lt hhead) h₃
    have hhead := started.allocated_lt (made'.allocated_lt hhead)
    have hexit := started.allocated_lt hexit
    have looped : Extends [head, exit] c₃.builder c'.builder := by
      refine (show Emits [head, exit] _ from ?_) c₃ u c' (by simp [hhead, hexit]) h
      exact .bind (.lift (.push (by simp))) fun _ => .bind (.lift (.push (by simp))) fun _ =>
        .bind (.lift (.push (by simp))) fun _ =>
        .bind (.lift (.pushBranch (by simp [Branch.jumpTargets]) rfl)) fun _ =>
        .bind (.lift (.push (by simp))) fun _ => .bind (.lift (.push (by simp))) fun _ =>
        .bind (.lift (.push (by simp))) fun _ => .bind (.lift (.store _ _)) fun _ =>
        .bind (.lift (.push (by simp))) fun _ => .bind (emits_condValue test) fun _ =>
        .bind (.lift (.push (by simp))) fun _ => .bind (.lift (.push (by simp))) fun _ =>
        .bind (.lift (.push (by simp))) fun _ =>
        .bind (.lift (.pushBranch (by simp [Branch.jumpTargets]) rfl)) fun _ => emits_place (by simp)
    have placedHead : c'.builder.isPlaced head = true :=
      looped.run.isPlaced (places_place head c₂ _ c₃ h₃)
    have placedExit : c'.builder.isPlaced exit = true := by
      refine (show Places exit _ from ?_) c₃ u c' h
      exact .bind fun _ => .bind fun _ => .bind fun _ => .bind fun _ => .bind fun _ =>
        .bind fun _ => .bind fun _ => .bind fun _ => .bind fun _ => .bind fun _ => .bind fun _ =>
        .bind fun _ => .bind fun _ => .bind fun _ => places_place exit
    have all : Extends (head :: exit :: targets) c.builder c'.builder :=
      ((made.trans made').trans (started.extends _)).trans (looped.mono (by simp))
    exact (all.close (closes_of_isPlaced placedHead)).close (closes_of_isPlaced placedExit)

theorem emits_leave (result : Option Expr) : Emits targets (leave result) := by
  refine .bind emits_shape fun shape => ?_
  extract_lets expected expectedText
  split
  · exact .ite (.bind (.throw _) fun _ => .lift .leave) (.lift .leave)
  · exact .bind (emits_value _) fun _ => .ite (.bind (.throw _) fun _ => .lift .leave) (.lift .leave)

/-- Behind a jump that is only made where control gets, control gets nowhere. -/
theorem gotoIfReachable_eq_ok {label : Label} {u : Unit} (h : gotoIfReachable label c = .ok u c') :
    c'.builder.frame = none ∧
      ∀ l ≠ label, c'.builder.labelFrames.find? l = c.builder.labelFrames.find? l := by
  unfold gotoIfReachable at h
  rw [isReachable_bind_eq_ok] at h
  split at h
  · obtain ⟨B, hB, rfl⟩ := lift_eq_ok.1 h
    obtain ⟨before, after, D, -, -, hj, rfl⟩ := pushBranch_eq_ok hB
    refine ⟨append_frame _ _ _, fun l hl => ?_⟩
    rw [append_labelFrames]
    exact hj.find?_of_notMem (by simpa [Branch.jumpTargets] using hl)
  · next hn =>
    obtain ⟨-, rfl⟩ := pure_eq_ok.1 h
    exact ⟨Option.not_isSome_iff_eq_none.1 hn, fun _ _ => rfl⟩

theorem emits_branch {condition : Cond} {whenTrue whenFalse : List Stmt} (positive : Emits [] (block whenTrue))
    (negative : Emits [] (block whenFalse)) : Emits [] (stmt (.branch condition whenTrue whenFalse)) := by
  rw [stmt]
  intro c u c' _ h
  obtain ⟨otherwise, c₁, h₁, h⟩ := bind_eq_ok.1 h
  obtain ⟨_, c₂, h₂, h⟩ := bind_eq_ok.1 h
  obtain ⟨_, c₃, h₃, h⟩ := bind_eq_ok.1 h
  obtain ⟨known, made⟩ := fresh_eq_ok [otherwise] h₁
  have tested := (emits_cond false otherwise condition).extends_of_one [otherwise]
    known List.mem_cons_self h₂
  have ran := positive.extends_of_nil [otherwise] h₃
  have emitted := (made.trans tested).trans ran
  have known := ran.allocated_lt (tested.allocated_lt known)
  split at h
  · exact emitted.close (closes_placeIfReachable known h)
  · obtain ⟨done, c₄, h₄, h⟩ := bind_eq_ok.1 h
    obtain ⟨_, c₅, h₅, h⟩ := bind_eq_ok.1 h
    obtain ⟨_, c₆, h₆, h⟩ := bind_eq_ok.1 h
    obtain ⟨_, c₇, h₇, h⟩ := bind_eq_ok.1 h
    obtain ⟨known', made'⟩ := fresh_eq_ok [otherwise, done] h₄
    have gone := (emits_gotoIfReachable done).extends_of_one [otherwise, done]
      known' (by simp) h₅
    have closed := closes_placeIfReachable (gone.allocated_lt (made'.allocated_lt known)) h₆
    have ran' := negative.extends_of_nil [done] h₇
    have emitted := (((emitted.mono (by simp)).trans made').trans gone).close closed
    have known' := ran'.allocated_lt (closed.allocated_lt (gone.allocated_lt known'))
    exact (emitted.trans ran').close (closes_placeIfReachable known' h)

theorem emits_loop {condition : Cond} {body : List Stmt} (inside : Emits [] (block body)) :
    Emits [] (stmt (.loop condition body)) := by
  rw [stmt]
  intro c u c' _ h
  obtain ⟨head, c₁, h₁, h⟩ := bind_eq_ok.1 h
  obtain ⟨exit, c₂, h₂, h⟩ := bind_eq_ok.1 h
  obtain ⟨_, c₃, h₃, h⟩ := bind_eq_ok.1 h
  obtain ⟨_, c₄, h₄, h⟩ := bind_eq_ok.1 h
  obtain ⟨_, c₅, h₅, h⟩ := bind_eq_ok.1 h
  obtain ⟨_, c₆, h₆, h⟩ := bind_eq_ok.1 h
  obtain ⟨hhead, made⟩ := fresh_eq_ok [head, exit] h₁
  obtain ⟨hexit, made'⟩ := fresh_eq_ok [head, exit] h₂
  have hhead := made'.allocated_lt hhead
  have started := closes_place hhead h₃
  have tested := (emits_cond false exit condition).extends_of_one [head, exit]
    (started.allocated_lt hexit) (by simp) h₄
  have ran := inside.extends_of_nil [head, exit] h₅
  have within := tested.trans ran
  have back := (emits_gotoIfReachable head).extends_of_one [head, exit]
    (within.allocated_lt (started.allocated_lt hhead)) (by simp) h₆
  have looped := within.trans back
  have emitted := ((made.trans made').trans (started.extends _)).trans looped
  have placed := looped.run.isPlaced (places_place head c₂ _ c₃ h₃)
  have hexit := looped.allocated_lt (started.allocated_lt hexit)
  exact (emitted.close (closes_of_isPlaced placed)).close (closes_placeIfReachable hexit h)

theorem emits_tryCatch {body handler : List Stmt} {catchType binding : Option String}
    (inside : Emits [] (block body)) (behind : Emits [] (block handler)) :
    Emits [] (stmt (.tryCatch body catchType binding handler)) := by
  rw [stmt]
  intro c u c' _ h
  split at h
  · exact (throw_bind_ne_ok.1 h).elim
  · obtain ⟨after, c₁, h₁, h⟩ := bind_eq_ok.1 h
    obtain ⟨start, B₂, hB₂, h⟩ := lift_bind_eq_ok.1 h
    obtain ⟨_, c₃, h₃, h⟩ := bind_eq_ok.1 h
    obtain ⟨⟨label, frame⟩, B₄, hB₄, h⟩ := lift_bind_eq_ok.1 h
    obtain ⟨_, c₅, h₅, h⟩ := bind_eq_ok.1 h
    obtain ⟨_, B₆, hB₆, h⟩ := lift_bind_eq_ok.1 h
    obtain ⟨hafter, made⟩ := fresh_eq_ok [after] h₁
    obtain ⟨opened, started⟩ := extends_beginTry [after] hB₂
    have ran := inside.extends_of_nil [after] h₃
    obtain ⟨closed, framed, hlabel, new⟩ :=
      extends_endTry [after] (ran.run.isPlaced started) hB₄
    have hafter := ran.allocated_lt (opened.allocated_lt hafter)
    have hne : label ≠ after := fun e => by rw [e] at new; omega
    have gone := (emits_gotoIfReachable after).extends_of_one [label, after]
      (closed.allocated_lt hafter) (by simp) h₅
    obtain ⟨unreachable, kept⟩ := gotoIfReachable_eq_ok h₅
    have handled := closes_placeWith (gone.allocated_lt hlabel) unreachable
      ((kept label hne).trans framed) hB₆
    have emitted := ((((made.trans opened).trans ran).mono (by simp)).trans closed).trans gone
    have emitted := emitted.close handled
    have hafter := handled.allocated_lt (gone.allocated_lt (closed.allocated_lt hafter))
    have closing : ∀ d : Compiler, Extends [after] B₆ d.builder →
        (do block handler; placeIfReachable after : Compiling Unit) d = .ok u c' →
        Extends [] c.builder c'.builder := by
      intro d hd h
      obtain ⟨_, d₁, hr, h⟩ := bind_eq_ok.1 h
      have ran := behind.extends_of_nil [after] hr
      have hafter := ran.allocated_lt (hd.allocated_lt hafter)
      exact ((emitted.trans hd).trans ran).close (closes_placeIfReachable hafter h)
    cases binding with
    | none =>
      obtain ⟨_, d, hd, h⟩ := bind_eq_ok.1 h
      exact closing d (Emits.extends_of_nil _ (.lift .pop) hd) h
    | some name =>
      cases catchType with
      | none =>
        obtain ⟨_, d, hd, h⟩ := bind_eq_ok.1 (pure_bind_eq_ok.1 h)
        exact closing d ((emits_bind _ _).extends_of_nil _ hd) h
      | some caught =>
        obtain ⟨type, d, hd, h⟩ := bind_eq_ok.1 h
        obtain ⟨_, d', hd', h⟩ := bind_eq_ok.1 h
        exact closing d' (((emits_classType _).extends_of_nil _ hd).trans
          ((emits_bind _ _).extends_of_nil _ hd')) h

mutual

theorem emits_stmt : ∀ statement : Stmt, Emits [] (stmt statement)
  | .declare name descriptor initial => by
    rw [stmt]
    exact .bind (emits_fieldType descriptor) fun type => .discardValue initial fun _ =>
      emits_bind name type
  | .assign name assigned => by
    rw [stmt]
    exact .bind (emits_lookUp name) fun _ => .discardValue assigned fun _ => .lift (.store _ _)
  | .setArgument index assigned => by
    rw [stmt]
    exact .bind (emits_argument index) fun _ => .discardValue assigned fun _ => .lift (.store _ _)
  | .eval expression => by
    rw [stmt]
    exact .bind (emits_expr [] expression) fun _ => .ite (.lift .pop) (.pure _)
  | .branch _ whenTrue whenFalse => emits_branch (emits_block whenTrue) (emits_block whenFalse)
  | .loop _ body => emits_loop (emits_block body)
  | .increment name amount => by
    rw [stmt]
    exact .bind (emits_lookUp name) fun _ =>
      .ite (.bind (.throw _) fun _ => .lift (.push (by simp))) (.lift (.push (by simp)))
  | .allOf result array element test => by
    rw [stmt]
    exact emits_allOf result array element test
  | .tryCatch body _ _ handler => emits_tryCatch (emits_block body) (emits_block handler)
  | .leave result => by
    rw [stmt]
    exact emits_leave result

theorem emits_block : ∀ statements : List Stmt, Emits [] (block statements)
  | [] => by
    rw [block]
    exact .pure _
  | first :: rest => by
    rw [block]
    exact .bind (emits_stmt first) fun _ => emits_block rest

end

end Compiler

end ClassWeave
