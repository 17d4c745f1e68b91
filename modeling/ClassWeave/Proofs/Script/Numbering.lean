import ClassWeave.Proofs.Script.Running

/-!
Labels of compiled code. A script is compiled with the labels that are handed out on the way: none of those
that have been handed out before are placed, jumped to, framed or protected.
-/

namespace ClassWeave

/-- A step that ends well keeps what holds. -/
def Keeps {ε σ α : Type} (holds : σ → Prop) (step : EStateM ε σ α) : Prop :=
  ∀ s a s', holds s → step s = .ok a s' → holds s'

namespace Keeps

variable {ε σ α β : Type} {holds : σ → Prop}

theorem pure (a : α) : Keeps holds (Pure.pure a : EStateM ε σ α) := fun _ _ _ hs h =>
  (pure_eq_ok.1 h).2 ▸ hs

theorem throw (problem : ε) : Keeps holds (throw problem : EStateM ε σ α) := fun _ _ _ _ h =>
  (throw_ne_ok.1 h).elim

theorem get : Keeps holds (get : EStateM ε σ σ) := fun _ _ _ hs h => (get_eq_ok.1 h).2 ▸ hs

theorem ite {p : Prop} [Decidable p] {a b : EStateM ε σ α} (ha : Keeps holds a) (hb : Keeps holds b) :
    Keeps holds (if p then a else b) := by
  split
  · exact ha
  · exact hb

/-- What goes on with a result may rely on what is known of it. -/
theorem andThen (known : α → Prop) {step : EStateM ε σ α} {next : α → EStateM ε σ β}
    (hs : ∀ s a s', holds s → step s = .ok a s' → holds s' ∧ known a)
    (hn : ∀ a, known a → Keeps holds (next a)) : Keeps holds (step >>= next) := by
  intro s b s' hholds h
  obtain ⟨a, t, hstep, hnext⟩ := bind_eq_ok.1 h
  have hfirst := hs s a t hholds hstep
  exact hn a hfirst.2 t b s' hfirst.1 hnext

theorem bind {step : EStateM ε σ α} {next : α → EStateM ε σ β} (hs : Keeps holds step)
    (hn : ∀ a, Keeps holds (next a)) : Keeps holds (step >>= next) :=
  .andThen (fun _ => True) (fun s a s' hholds h => ⟨hs s a s' hholds h, trivial⟩) fun a _ => hn a

end Keeps

/-- The labels a node is about. -/
def Node.mentioned : Node → List Label
  | .label l => [l]
  | .insn _ => []
  | .branch b => b.jumpTargets

namespace Builder

variable {B C : Builder} {floor : Nat} {label : Label} {frame : EditFrame}

/-- The code is about no label in front of a number. -/
structure Above (floor : Nat) (B : Builder) : Prop where
  allocated : floor ≤ B.labels.allocated
  nodes : ∀ node ∈ B.nodes, ∀ label ∈ node.mentioned, floor ≤ label.number
  frames : ∀ entry ∈ B.labelFrames, floor ≤ entry.1.number
  handlers : ∀ handler ∈ B.handlers,
    floor ≤ handler.start.number ∧ floor ≤ handler.stop.number ∧ floor ≤ handler.handler.number

namespace Above

theorem congr (h : B.Above floor) (labels : B.labels.allocated ≤ C.labels.allocated)
    (nodes : C.nodes = B.nodes) (frames : C.labelFrames = B.labelFrames)
    (handlers : C.handlers = B.handlers) : C.Above floor where
  allocated := Nat.le_trans h.allocated labels
  nodes := nodes ▸ h.nodes
  frames := frames ▸ h.frames
  handlers := handlers ▸ h.handlers

theorem withFrame (h : B.Above floor) (frame : Option EditFrame) : { B with frame := frame }.Above floor :=
  h.congr (Nat.le_refl _) rfl rfl rfl

theorem require (h : B.Above floor) (label : Label) : (B.require label).Above floor :=
  h.congr (Nat.le_of_eq (by rw [require_labels])) (require_nodes B label) (require_labelFrames B label)
    (require_handlers B label)

theorem setFrame (h : B.Above floor) (hl : floor ≤ label.number) (frame : EditFrame) :
    (B.setFrame label frame).Above floor where
  allocated := h.allocated
  nodes := h.nodes
  frames entry hm := by
    rcases FrameTable.mem_set hm with rfl | hm
    · exact hl
    · exact h.frames entry hm
  handlers := h.handlers

theorem append (h : B.Above floor) (node : Node) (hnode : ∀ label ∈ node.mentioned, floor ≤ label.number)
    (pending : Option Label) : (B.append node pending).Above floor where
  allocated := by
    rw [append_labels]
    exact h.allocated
  nodes := by
    rw [append_nodes]
    exact List.forall_mem_cons.2 ⟨hnode, h.nodes⟩
  frames := by
    rw [append_labelFrames]
    exact h.frames
  handlers := by
    rw [append_handlers]
    exact h.handlers

theorem appendLabel (h : B.Above floor) (hl : floor ≤ label.number) (pending : Option Label) :
    (B.append (.label label) pending).Above floor := by
  apply h.append
  intro found hm
  rw [List.mem_singleton.1 hm]
  exact hl

theorem placed (h : B.Above floor) (hl : floor ≤ label.number) (frame : EditFrame) :
    (B.placed label frame).Above floor := by
  have hframed : ((if B.isReachable then B else B.require label).setFrame label frame).Above floor := by
    apply setFrame _ hl
    split
    · exact h
    · exact h.require label
  exact (hframed.withFrame (some frame)).appendLabel hl _

theorem jumps {targets : List Label} (hj : Jumps frame targets B C) (h : B.Above floor)
    (ht : ∀ target ∈ targets, floor ≤ target.number) : C.Above floor := by
  induction hj with
  | nil => exact h
  | cons first others ih =>
    obtain ⟨hfirst, hothers⟩ := List.forall_mem_cons.1 ht
    apply ih _ hothers
    cases first with
    | first => exact (h.require _).setFrame hfirst _
    | again => exact (h.require _).setFrame hfirst _
    | back => exact h.require _

end Above

section Steps

variable {α : Type}

theorem keeps_interning (step : Interning α) : Keeps (Above floor) (interning step) := by
  intro B a C h hstep
  obtain ⟨pool, -, rfl⟩ := interning_eq_ok.1 hstep
  exact h.congr (Nat.le_refl _) rfl rfl rfl

theorem keeps_push {insn : Insn} (hnew : ∀ index, insn ≠ .new index) : Keeps (Above floor) (push insn) := by
  intro B u C h hstep
  obtain ⟨before, after, -, -, rfl⟩ := push_eq_ok hnew hstep
  exact (h.withFrame (some after)).append (.insn insn) (List.forall_mem_nil _) _

theorem keeps_pushBranch {branch : Branch Label} (ht : ∀ target ∈ branch.jumpTargets, floor ≤ target.number) :
    Keeps (Above floor) (pushBranch branch) := by
  intro B u C h hstep
  obtain ⟨before, after, D, -, -, hj, rfl⟩ := pushBranch_eq_ok hstep
  have hjumped : D.Above floor := .jumps hj (h.withFrame none) ht
  exact (hjumped.withFrame _).append (.branch branch) ht _

theorem keeps_place (hl : floor ≤ label.number) : Keeps (Above floor) (place label) := by
  intro B u C h hstep
  obtain ⟨-, frame, -, rfl⟩ := place_eq_ok hstep
  exact h.placed hl frame

theorem keeps_placeWith (hl : floor ≤ label.number) (frame : EditFrame) :
    Keeps (Above floor) (placeWith label frame) := by
  intro B u C h hstep
  obtain ⟨-, -, rfl⟩ := placeWith_eq_ok hstep
  have hframed := (h.require label).setFrame hl frame
  exact (hframed.withFrame (some frame)).appendLabel hl _

theorem above_fresh (h : B.Above floor) (hstep : fresh B = .ok label C) :
    C.Above floor ∧ floor ≤ label.number := by
  obtain ⟨rfl, rfl⟩ := fresh_eq_ok.1 hstep
  exact ⟨h.congr (Nat.le_succ _) rfl rfl rfl, h.allocated⟩

theorem above_beginTry (h : B.Above floor) (hstep : beginTry B = .ok label C) :
    C.Above floor ∧ floor ≤ label.number := by
  obtain ⟨rfl, current, frame, -, -, -, rfl⟩ := beginTry_eq_ok hstep
  have hfresh : { B with labels := B.labels.fresh.2 }.Above floor := h.congr (Nat.le_succ _) rfl rfl rfl
  exact ⟨(hfresh.placed h.allocated frame).congr (Nat.le_refl _) rfl rfl rfl, h.allocated⟩

theorem above_endTry {start : Label} {catchType : Option String} (h : B.Above floor)
    (hstart : floor ≤ start.number) (hstep : endTry start catchType B = .ok (label, frame) C) :
    C.Above floor ∧ floor ≤ label.number := by
  obtain ⟨D, known, outer, hstops, -, rfl, -, rfl⟩ := endTry_eq_ok hstep
  have hfresh : { B with labels := B.labels.fresh.2 }.Above floor := h.congr (Nat.le_succ _) rfl rfl rfl
  have hstopped : D.Above floor := by
    cases hstops with
    | reached => exact hfresh.placed h.allocated _
    | unreached => exact hfresh.appendLabel h.allocated _
  have hhandler : floor ≤ D.labels.fresh.1.number := hstopped.allocated
  have hleft : { D with regions := outer, labels := D.labels.fresh.2 }.Above floor :=
    hstopped.congr (Nat.le_succ _) rfl rfl rfl
  have hrequired := hleft.require D.labels.fresh.1
  constructor
  · apply Above.setFrame _ hhandler
    exact ⟨hrequired.allocated, hrequired.nodes, hrequired.frames,
      List.forall_mem_cons.2 ⟨⟨hstart, h.allocated, hhandler⟩, hstopped.handlers⟩⟩
  · exact hhandler

theorem keeps_constInt (value : Int32) : Keeps (Above floor) (constInt value) :=
  .ite (keeps_push (by simp)) <| .ite (keeps_push (by simp)) <| .ite (keeps_push (by simp)) <|
    .bind (keeps_interning _) fun _ => keeps_push (by simp)

theorem keeps_constLong (value : Int64) : Keeps (Above floor) (constLong value) :=
  .ite (keeps_push (by simp)) <| .ite (keeps_push (by simp)) <|
    .bind (keeps_interning _) fun _ => keeps_push (by simp)

theorem keeps_constString (text : String) : Keeps (Above floor) (constString text) :=
  .bind (keeps_interning _) fun _ => keeps_push (by simp)

theorem keeps_field (access : FieldAccess) (owner name descriptor : String) :
    Keeps (Above floor) (field access owner name descriptor) :=
  .bind (keeps_interning _) fun _ => keeps_push (by simp)

theorem keeps_invoke (kind : InvokeKind) (owner name descriptor : String) :
    Keeps (Above floor) (invoke kind owner name descriptor) := by
  refine .bind (keeps_interning _) fun _ => ?_
  split
  · split
    · exact .throw _
    · exact keeps_push (by simp)
  · exact keeps_push (by simp)

theorem keeps_checkCast (name : String) : Keeps (Above floor) (checkCast name) :=
  .bind (keeps_interning _) fun _ => keeps_push (by simp)

theorem keeps_newRefArray (element : String) : Keeps (Above floor) (newRefArray element) :=
  .bind (keeps_interning _) fun _ => keeps_push (by simp)

theorem keeps_load (slot : UInt16) (type : FieldType) : Keeps (Above floor) (load slot type) :=
  keeps_push (by simp)

theorem keeps_store (slot : UInt16) (type : FieldType) : Keeps (Above floor) (store slot type) :=
  keeps_push (by simp)

theorem keeps_pop : Keeps (Above floor) pop :=
  .bind .get fun _ => by
    split
    · exact keeps_push (by simp)
    · exact keeps_push (by simp)

theorem keeps_leave : Keeps (Above floor) leave :=
  .bind .get fun _ => keeps_pushBranch (by simp [Branch.returnFor, Branch.jumpTargets])

end Steps

end Builder

namespace Compiler

open Builder

variable {α β : Type} {floor : Nat} {label target : Label} {c c' : Compiler}

/-- The code made so far is about no label in front of a number. -/
def Above (floor : Nat) (c : Compiler) : Prop := c.builder.Above floor

theorem keeps_lift {step : Building α} (h : Keeps (Builder.Above floor) step) :
    Keeps (Above floor) (liftM step : Compiling α) := by
  intro c a c' habove hstep
  obtain ⟨B, hB, rfl⟩ := lift_eq_ok.1 hstep
  exact h c.builder a B habove hB

theorem keeps_fresh {next : Label → Compiling β} (h : ∀ label : Label, floor ≤ label.number →
    Keeps (Above floor) (next label)) : Keeps (Above floor) ((liftM fresh : Compiling Label) >>= next) := by
  refine .andThen (floor ≤ ·.number) (fun c label c' habove hstep => ?_) h
  obtain ⟨B, hB, rfl⟩ := lift_eq_ok.1 hstep
  exact above_fresh habove hB

theorem keeps_jump {branch : Branch Label} (h : branch.jumpTargets = [target])
    (ht : floor ≤ target.number) : Keeps (Above floor) (liftM (pushBranch branch) : Compiling Unit) :=
  keeps_lift (keeps_pushBranch (by rw [h]; exact List.forall_mem_singleton.2 ht))

theorem keeps_shape : Keeps (Above floor) shape := .bind .get fun _ => .pure _

theorem keeps_isReachable : Keeps (Above floor) isReachable := .bind .get fun _ => .pure _

theorem keeps_isJumpedTo (label : Label) : Keeps (Above floor) (isJumpedTo label) :=
  .bind .get fun _ => .pure _

theorem keeps_placeIfReachable (hl : floor ≤ label.number) : Keeps (Above floor) (placeIfReachable label) :=
  .bind keeps_isReachable fun _ => .bind (keeps_isJumpedTo label) fun _ =>
    .ite (keeps_lift (keeps_place hl)) (.pure _)

theorem keeps_gotoIfReachable (hl : floor ≤ label.number) : Keeps (Above floor) (gotoIfReachable label) :=
  .bind keeps_isReachable fun _ => .ite (keeps_jump rfl hl) (.pure _)

theorem keeps_lookUp (name : String) : Keeps (Above floor) (lookUp name) :=
  .bind .get fun _ => by
    split
    · exact .pure _
    · exact .throw _

theorem keeps_argument (index : Nat) : Keeps (Above floor) (argument index) :=
  .bind keeps_shape fun _ => by
    split
    · exact .pure _
    · exact .throw _

theorem keeps_fieldType (descriptor : String) : Keeps (Above floor) (fieldType descriptor) := by
  unfold fieldType
  split
  · exact .pure _
  · exact .throw _

theorem keeps_classType (name : String) : Keeps (Above floor) (classType name) := by
  unfold classType
  split
  · exact .pure _
  · exact .throw _

theorem keeps_required (expression : Expr) (type : Option FieldType) :
    Keeps (Above floor) (required expression type) := by
  cases type with
  | some type => exact .pure _
  | none => exact .throw _

theorem keeps_callDescriptor (owner name text : String) (count : Nat) :
    Keeps (Above floor) (callDescriptor owner name text count) := by
  unfold callDescriptor
  split
  · exact .throw _
  · exact .ite (.pure _) (.throw _)

theorem keeps_discardRequired {step : Compiling (Option FieldType)} (hs : Keeps (Above floor) step)
    (expression : Expr) {next : PUnit → Compiling β} (hn : ∀ u, Keeps (Above floor) (next u)) :
    Keeps (Above floor) (step >>= fun type => discard (required expression type) >>= next) :=
  .bind hs fun type => .bind (.bind (keeps_required expression type) fun _ => .pure _) hn

mutual

theorem keeps_expr (floor : Nat) : ∀ expression : Expr, Keeps (Above floor) (expr expression)
  | .null => by
    rw [expr]
    exact .bind (keeps_lift (keeps_push (by simp))) fun _ => .pure _
  | .int value => by
    rw [expr]
    exact .bind (keeps_lift (keeps_constInt value)) fun _ => .pure _
  | .long value => by
    rw [expr]
    exact .bind (keeps_lift (keeps_constLong value)) fun _ => .pure _
  | .bool value => by
    rw [expr]
    exact .bind (keeps_lift (keeps_constInt _)) fun _ => .pure _
  | .string text => by
    rw [expr]
    exact .bind (keeps_lift (keeps_constString text)) fun _ => .pure _
  | .this => by
    rw [expr]
    have loaded : Keeps (Above floor) (liftM (push (.load .reference 0)) : Compiling Unit) :=
      keeps_lift (keeps_push (by simp))
    refine .bind keeps_shape fun shape => .ite (.bind (.throw _) fun _ => ?_) ?_
    all_goals exact .bind loaded fun _ => .bind (keeps_classType _) fun _ => .pure _
  | .argument index => by
    rw [expr]
    exact .bind (keeps_argument index) fun _ => .bind (keeps_lift (keeps_load _ _)) fun _ => .pure _
  | .variable name => by
    rw [expr]
    exact .bind (keeps_lookUp name) fun _ => .bind (keeps_lift (keeps_load _ _)) fun _ => .pure _
  | .getField object field => by
    rw [expr]
    exact keeps_discardRequired (keeps_expr floor object) object fun _ =>
      .bind (keeps_lift (keeps_field _ _ _ _)) fun _ => .bind (keeps_fieldType _) fun _ => .pure _
  | .getStatic field => by
    rw [expr]
    exact .bind (keeps_lift (keeps_field _ _ _ _)) fun _ => .bind (keeps_fieldType _) fun _ => .pure _
  | .call kind owner name text receiver arguments => by
    rw [expr]
    refine .bind (keeps_callDescriptor owner name text _) fun descriptor => ?_
    have invoked : Keeps (Above floor) (do
        values arguments
        Builder.invoke kind.invokeKind owner name text
        return descriptor.returnType : Compiling _) :=
      .bind (keeps_values floor arguments) fun _ => .bind (keeps_lift (keeps_invoke _ _ _ _)) fun _ => .pure _
    match receiver with
    | none =>
      cases kind with
      | static => exact invoked
      | _ => exact .bind (.throw _) fun _ => invoked
    | some receiver =>
      cases kind with
      | static => exact .bind (.throw _) fun _ => invoked
      | _ => exact keeps_discardRequired (keeps_expr floor receiver) receiver fun _ => invoked
  | .checkCast value target => by
    rw [expr]
    exact keeps_discardRequired (keeps_expr floor value) value fun _ =>
      .bind (keeps_lift (keeps_checkCast target)) fun _ => .bind (keeps_classType _) fun _ => .pure _
  | .arrayLength array => by
    rw [expr]
    exact keeps_discardRequired (keeps_expr floor array) array fun _ =>
      .bind (keeps_lift (keeps_push (by simp))) fun _ => .pure _
  | .arrayElement array index => by
    rw [expr]
    refine .bind (keeps_expr floor array) fun found => .bind (keeps_required array found) fun type => ?_
    split
    · exact .throw _
    · exact keeps_discardRequired (keeps_expr floor index) index fun _ =>
        .bind (keeps_lift (keeps_push (by simp))) fun _ => .pure _
  | .objectArray element elements => by
    rw [expr]
    exact .bind (keeps_classType element) fun _ => .bind (keeps_lift (keeps_constInt _)) fun _ =>
      .bind (keeps_lift (keeps_newRefArray element)) fun _ =>
        .bind (keeps_storeElements floor 0 elements) fun _ => .pure _
  | .bitAnd a b => by
    rw [expr]
    exact keeps_discardRequired (keeps_expr floor a) a fun _ =>
      keeps_discardRequired (keeps_expr floor b) b fun _ =>
        .bind (keeps_lift (keeps_push (by simp))) fun _ => .pure _

theorem keeps_values (floor : Nat) : ∀ arguments : List Expr, Keeps (Above floor) (values arguments)
  | [] => by
    rw [values]
    exact .pure _
  | first :: rest => by
    rw [values]
    exact keeps_discardRequired (keeps_expr floor first) first fun _ => keeps_values floor rest

theorem keeps_storeElements (floor : Nat) : ∀ (position : Nat) (elements : List Expr),
    Keeps (Above floor) (storeElements position elements)
  | position, [] => by
    rw [storeElements]
    exact .pure _
  | position, first :: rest => by
    rw [storeElements]
    exact .bind (keeps_lift (keeps_push (by simp))) fun _ => .bind (keeps_lift (keeps_constInt _)) fun _ =>
      keeps_discardRequired (keeps_expr floor first) first fun _ =>
        .bind (keeps_lift (keeps_push (by simp))) fun _ => keeps_storeElements floor (position + 1) rest

end

theorem keeps_value (expression : Expr) : Keeps (Above floor) (value expression) :=
  .bind (keeps_expr floor expression) fun type => keeps_required expression type

theorem keeps_discardValue (expression : Expr) {next : PUnit → Compiling β}
    (hn : ∀ u, Keeps (Above floor) (next u)) : Keeps (Above floor) (discard (value expression) >>= next) :=
  .bind (.bind (keeps_value expression) fun _ => .pure _) hn

theorem keeps_junction {neutral jumpIf : Bool} {isEmpty : Bool} {each : Compiling Unit}
    {lastOf : Label → Compiling Unit} (ht : floor ≤ target.number) (heach : Keeps (Above floor) each)
    (hlast : ∀ skip : Label, floor ≤ skip.number → Keeps (Above floor) (lastOf skip)) :
    Keeps (Above floor) (junction neutral jumpIf target isEmpty each lastOf) := by
  have skipping : Keeps (Above floor) (do
      let skip ← fresh
      lastOf skip
      placeIfReachable skip : Compiling Unit) :=
    keeps_fresh fun skip hskip => .bind (hlast skip hskip) fun _ => keeps_placeIfReachable hskip
  exact .ite (.ite (keeps_jump rfl ht) (.pure _)) (.ite heach skipping)

mutual

theorem keeps_cond : ∀ (jumpIf : Bool) (target : Label) (condition : Cond), floor ≤ target.number →
    Keeps (Above floor) (cond jumpIf target condition)
  | jumpIf, target, .isNull operand, ht => by
    rw [cond]
    exact keeps_discardValue operand fun _ => keeps_jump rfl ht
  | jumpIf, target, .notNull operand, ht => by
    rw [cond]
    exact keeps_discardValue operand fun _ => keeps_jump rfl ht
  | jumpIf, target, .isTrue operand, ht => by
    rw [cond]
    exact keeps_discardValue operand fun _ => keeps_jump rfl ht
  | jumpIf, target, .isFalse operand, ht => by
    rw [cond]
    exact keeps_discardValue operand fun _ => keeps_jump rfl ht
  | jumpIf, target, .compare comparison a b, ht => by
    rw [cond]
    exact keeps_discardValue a fun _ => keeps_discardValue b fun _ => keeps_jump rfl ht
  | jumpIf, target, .not condition, ht => by
    rw [cond]
    exact keeps_cond (!jumpIf) target condition ht
  | jumpIf, target, .all conditions, ht => by
    rw [cond]
    exact keeps_junction ht (keeps_each jumpIf target conditions ht) fun skip hskip =>
      keeps_lastOf jumpIf target skip conditions ht hskip
  | jumpIf, target, .any conditions, ht => by
    rw [cond]
    exact keeps_junction ht (keeps_each jumpIf target conditions ht) fun skip hskip =>
      keeps_lastOf jumpIf target skip conditions ht hskip

theorem keeps_each : ∀ (jumpIf : Bool) (target : Label) (conditions : List Cond), floor ≤ target.number →
    Keeps (Above floor) (each jumpIf target conditions)
  | jumpIf, target, [], _ => by
    rw [each]
    exact .pure _
  | jumpIf, target, first :: rest, ht => by
    rw [each]
    exact .bind (keeps_cond jumpIf target first ht) fun _ => keeps_each jumpIf target rest ht

theorem keeps_lastOf : ∀ (jumpIf : Bool) (target skip : Label) (conditions : List Cond),
    floor ≤ target.number → floor ≤ skip.number → Keeps (Above floor) (lastOf jumpIf target skip conditions)
  | jumpIf, target, skip, [], _, _ => by
    rw [lastOf]
    exact .pure _
  | jumpIf, target, skip, [last], ht, _ => by
    rw [lastOf]
    exact keeps_cond jumpIf target last ht
  | jumpIf, target, skip, first :: second :: rest, ht, hskip => by
    rw [lastOf]
    · exact .bind (keeps_cond (!jumpIf) skip first hskip) fun _ =>
        keeps_lastOf jumpIf target skip (second :: rest) ht hskip
    · simp

end

theorem keeps_condValue (condition : Cond) : Keeps (Above floor) (condValue condition) := by
  refine keeps_fresh fun zero hzero => keeps_fresh fun join hjoin =>
    .bind (keeps_cond false zero condition hzero) fun _ => .bind keeps_isReachable fun _ => ?_
  have joined : Keeps (Above floor) (do
      if ← isJumpedTo zero then
        place zero
        Builder.constInt 0
      placeIfReachable join : Compiling Unit) :=
    .bind (keeps_isJumpedTo zero) fun _ => .ite (.bind (keeps_lift (keeps_place hzero)) fun _ =>
      .bind (keeps_lift (keeps_constInt 0)) fun _ => keeps_placeIfReachable hjoin) (keeps_placeIfReachable hjoin)
  exact .ite (.bind (keeps_lift (keeps_constInt 1)) fun _ => .bind (keeps_jump rfl hjoin) fun _ => joined) joined

theorem keeps_allocate (type : FieldType) : Keeps (Above floor) (allocate type) := by
  intro c slot c' habove h
  unfold allocate at h
  rw [get_bind_eq_ok] at h
  simp only at h
  split at h
  · exact (throw_bind_ne_ok.1 h).elim
  · rw [set_bind_eq_ok] at h
    obtain ⟨-, rfl⟩ := pure_eq_ok.1 h
    exact habove

theorem keeps_declare (name : String) (slot : UInt16) (type : FieldType) :
    Keeps (Above floor) (declare name slot type) := by
  intro c u c' habove h
  rw [modify_eq_ok.1 h]
  exact habove

theorem keeps_bind (name : String) (type : FieldType) : Keeps (Above floor) (bind name type) :=
  .bind (keeps_allocate type) fun _ => .bind (keeps_lift (keeps_store _ _)) fun _ => keeps_declare _ _ _

theorem keeps_allOf (result : String) (array : Expr) (element : String) (test : Cond) :
    Keeps (Above floor) (allOf result array element test) := by
  refine .bind (keeps_value array) fun arrayType => ?_
  split
  · exact .throw _
  · refine .bind (keeps_allocate _) fun arraySlot => .bind (keeps_lift (keeps_store _ _)) fun _ =>
      .bind (keeps_allocate _) fun indexSlot => .bind (keeps_lift (keeps_constInt _)) fun _ =>
      .bind (keeps_lift (keeps_store _ _)) fun _ => .bind (keeps_allocate _) fun resultSlot =>
      .bind (keeps_lift (keeps_constInt _)) fun _ => .bind (keeps_lift (keeps_store _ _)) fun _ =>
      .bind (keeps_allocate _) fun elementSlot => .bind (keeps_declare _ _ _) fun _ =>
      .bind (keeps_declare _ _ _) fun _ => keeps_fresh fun head hhead => keeps_fresh fun exit hexit => ?_
    -- The head of the loop, the test, and what is done with its value.
    exact .bind (keeps_lift (keeps_place hhead)) fun _ => .bind (keeps_lift (keeps_push (by simp))) fun _ =>
      .bind (keeps_lift (keeps_push (by simp))) fun _ => .bind (keeps_lift (keeps_push (by simp))) fun _ =>
      .bind (keeps_jump rfl hexit) fun _ => .bind (keeps_lift (keeps_push (by simp))) fun _ =>
      .bind (keeps_lift (keeps_push (by simp))) fun _ => .bind (keeps_lift (keeps_push (by simp))) fun _ =>
      .bind (keeps_lift (keeps_store _ _)) fun _ => .bind (keeps_lift (keeps_push (by simp))) fun _ =>
      .bind (keeps_condValue test) fun _ => .bind (keeps_lift (keeps_push (by simp))) fun _ =>
      .bind (keeps_lift (keeps_push (by simp))) fun _ => .bind (keeps_lift (keeps_push (by simp))) fun _ =>
      .bind (keeps_jump rfl hhead) fun _ => keeps_lift (keeps_place hexit)

theorem keeps_leave (result : Option Expr) : Keeps (Above floor) (leave result) := by
  have left : Keeps (Above floor) (liftM Builder.leave : Compiling Unit) := keeps_lift Builder.keeps_leave
  refine .bind keeps_shape fun shape => ?_
  extract_lets expected expectedText
  split
  · exact .ite (.bind (.throw _) fun _ => left) left
  · exact .bind (keeps_value _) fun _ => .ite (.bind (.throw _) fun _ => left) left

mutual

theorem keeps_stmt (floor : Nat) : ∀ statement : Stmt, Keeps (Above floor) (stmt statement)
  | .declare name descriptor initial => by
    rw [stmt]
    exact .bind (keeps_fieldType descriptor) fun type => keeps_discardValue initial fun _ =>
      keeps_bind name type
  | .assign name assigned => by
    rw [stmt]
    exact .bind (keeps_lookUp name) fun _ => keeps_discardValue assigned fun _ =>
      keeps_lift (keeps_store _ _)
  | .setArgument index assigned => by
    rw [stmt]
    exact .bind (keeps_argument index) fun _ => keeps_discardValue assigned fun _ =>
      keeps_lift (keeps_store _ _)
  | .eval expression => by
    rw [stmt]
    exact .bind (keeps_expr floor expression) fun _ => .ite (keeps_lift keeps_pop) (.pure _)
  | .branch condition whenTrue whenFalse => by
    rw [stmt]
    refine keeps_fresh fun otherwise hotherwise => .bind (keeps_cond false otherwise condition hotherwise)
      fun _ => .bind (keeps_block floor whenTrue) fun _ => .ite (keeps_placeIfReachable hotherwise) ?_
    exact keeps_fresh fun done hdone => .bind (keeps_gotoIfReachable hdone) fun _ =>
      .bind (keeps_placeIfReachable hotherwise) fun _ => .bind (keeps_block floor whenFalse) fun _ =>
        keeps_placeIfReachable hdone
  | .loop condition body => by
    rw [stmt]
    exact keeps_fresh fun head hhead => keeps_fresh fun exit hexit =>
      .bind (keeps_lift (keeps_place hhead)) fun _ => .bind (keeps_cond false exit condition hexit) fun _ =>
      .bind (keeps_block floor body) fun _ => .bind (keeps_gotoIfReachable hhead) fun _ =>
        keeps_placeIfReachable hexit
  | .increment name amount => by
    rw [stmt]
    have incremented (slot : UInt16) :
        Keeps (Above floor) (liftM (push (.increment slot amount)) : Compiling Unit) :=
      keeps_lift (keeps_push (by simp))
    exact .bind (keeps_lookUp name) fun _ => .ite (.bind (.throw _) fun _ => incremented _) (incremented _)
  | .allOf result array element test => by
    rw [stmt]
    exact keeps_allOf result array element test
  | .tryCatch body catchType binding handler => by
    rw [stmt]
    have caught (after : Label) (hafter : floor ≤ after.number) : Keeps (Above floor) (do
        block handler
        placeIfReachable after : Compiling Unit) :=
      .bind (keeps_block floor handler) fun _ => keeps_placeIfReachable hafter
    have started (after : Label) (hafter : floor ≤ after.number) : Keeps (Above floor) (do
        let start ← Builder.beginTry
        block body
        let (label, frame) ← Builder.endTry start catchType
        gotoIfReachable after
        Builder.placeWith label frame
        match binding with
        | none => Builder.pop
        | some name =>
          let type ← match catchType with
            | some caught => classType caught
            | none => pure (.object .throwable)
          bind name type
        block handler
        placeIfReachable after : Compiling Unit) := by
      refine .andThen (floor ≤ ·.number) (fun c start c' habove h => ?_) fun start hstart => ?_
      · obtain ⟨B, hB, rfl⟩ := lift_eq_ok.1 h
        exact above_beginTry habove hB
      · refine .bind (keeps_block floor body) fun _ =>
          .andThen (floor ≤ ·.1.number) (fun c ended c' habove h => ?_) fun ended hended => ?_
        · obtain ⟨B, hB, rfl⟩ := lift_eq_ok.1 h
          exact above_endTry habove hstart hB
        · refine .bind (keeps_gotoIfReachable hafter) fun _ =>
            .bind (keeps_lift (keeps_placeWith hended ended.2)) fun _ => ?_
          cases binding with
          | none => exact .bind (keeps_lift keeps_pop) fun _ => caught after hafter
          | some name =>
            cases catchType with
            | none => exact .bind (.pure _) fun _ => .bind (keeps_bind _ _) fun _ => caught after hafter
            | some found =>
              exact .bind (keeps_classType found) fun _ => .bind (keeps_bind _ _) fun _ => caught after hafter
    exact .ite (.bind (.throw _) fun _ => keeps_fresh started) (keeps_fresh started)
  | .leave result => by
    rw [stmt]
    exact keeps_leave result

theorem keeps_block (floor : Nat) : ∀ statements : List Stmt, Keeps (Above floor) (block statements)
  | [] => by
    rw [block]
    exact .pure _
  | first :: rest => by
    rw [block]
    exact .bind (keeps_stmt floor first) fun _ => keeps_block floor rest

end

end Compiler

open Compiler Builder

namespace PrologueGuard

/-- The code of guards is about the label where it resumes and those handed out on the way. -/
theorem keeps_chain {floor : Nat} {resume : Label} (entry : EditFrame) (hresume : floor ≤ resume.number) :
    ∀ guards : List Guard, Keeps (Compiler.Above floor) (chain entry resume guards)
  | [] => .pure _
  | [guard] => .bind (keeps_cond false resume guard.condition hresume) fun _ =>
      .bind (keeps_block floor guard.tail) fun _ => keeps_gotoIfReachable hresume
  | guard :: second :: rest => keeps_fresh fun next hnext =>
      .bind (keeps_cond false next guard.condition hnext) fun _ =>
      .bind (keeps_block floor guard.tail) fun _ => .bind (keeps_gotoIfReachable hresume) fun _ =>
      .bind (keeps_isJumpedTo next) fun _ => .ite (.bind (keeps_lift (keeps_placeWith hnext entry)) fun _ =>
        keeps_chain entry hresume (second :: rest)) (.pure _)

end PrologueGuard

theorem Builder.above_start (pool : ConstantPool) (labels : LabelSupply) (shape : MethodShape)
    (entry : EditFrame) : (start pool labels shape entry).Above labels.allocated :=
  ⟨Nat.le_refl _, List.forall_mem_nil _, List.forall_mem_nil _, List.forall_mem_nil _⟩

end ClassWeave
