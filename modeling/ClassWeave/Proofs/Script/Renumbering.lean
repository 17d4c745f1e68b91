import ClassWeave.Proofs.Code.Canonical
import ClassWeave.Proofs.Script.Settling

/-!
Labels moved up. Which labels a script gets depends on how many have been handed out before, and nothing else does:
compiled with later labels it gives the same code, with its labels moved up by as much. The canonical form of code
is that of the code with its labels moved up.
-/

namespace ClassWeave

def Label.moveUp (distance : Nat) (label : Label) : Label := ⟨label.number + distance⟩

theorem Label.moveUp_inj {distance : Nat} {label other : Label} :
    label.moveUp distance = other.moveUp distance ↔ label = other := by
  obtain ⟨n⟩ := label
  obtain ⟨m⟩ := other
  simp [moveUp]

def Node.moveUp (distance : Nat) : Node → Node
  | .label found => .label (found.moveUp distance)
  | .insn found => .insn found
  | .branch found => .branch (found.map (·.moveUp distance))

def Handler.moveUp (distance : Nat) (handler : Handler) : Handler :=
  ⟨handler.start.moveUp distance, handler.stop.moveUp distance, handler.handler.moveUp distance, handler.catchType⟩

/-- The frames stay, at other labels. -/
def FrameTable.moveUp (distance : Nat) (frames : FrameTable) : FrameTable :=
  frames.map fun entry => (entry.1.moveUp distance, entry.2)

namespace FrameTable

variable {distance : Nat}

theorem find?_moveUp (frames : FrameTable) (label : Label) :
    (frames.moveUp distance).find? (label.moveUp distance) = frames.find? label := by
  unfold moveUp
  induction frames with
  | nil => rfl
  | cons entry rest ih => simp only [List.map_cons, find?_cons, ih, Label.moveUp_inj]

theorem set_moveUp (frames : FrameTable) (label : Label) (frame : EditFrame) :
    (frames.moveUp distance).set (label.moveUp distance) frame = (frames.set label frame).moveUp distance := by
  unfold moveUp
  induction frames with
  | nil => rfl
  | cons entry rest ih =>
    obtain ⟨other, existing⟩ := entry
    have hlt : (label.moveUp distance).number < (other.moveUp distance).number ↔ label.number < other.number :=
      Nat.add_lt_add_iff_right
    simp only [List.map_cons, set, hlt, Label.moveUp_inj]
    split
    · rfl
    · split
      · rfl
      · rw [List.map_cons, ih]

end FrameTable

namespace Branch

variable {T U : Type}

theorem jumpTargets_map (f : T → U) (branch : Branch T) : (branch.map f).jumpTargets = branch.jumpTargets.map f := by
  cases branch with
  | tableSwitch => simp [map_tableSwitch, jumpTargets]
  | lookupSwitch => simp [map_lookupSwitch, jumpTargets]
  | _ => rfl

theorem fallsThrough_map (f : T → U) (branch : Branch T) : (branch.map f).fallsThrough = branch.fallsThrough := by
  cases branch <;> rfl

theorem verify_map (f : T → U) (branch : Branch T) (returnType : Option FieldType) :
    (branch.map f).verify returnType = branch.verify returnType := by
  cases branch with
  | «return» kind => cases kind <;> rfl
  | _ => rfl

theorem map_map {V : Type} (g : U → V) (f : T → U) (branch : Branch T) :
    (branch.map f).map g = branch.map (g ∘ f) := by
  cases branch with
  | tableSwitch => simp [map_tableSwitch]
  | lookupSwitch => simp [map_lookupSwitch]
  | _ => rfl

end Branch

namespace CanonicalNode

variable {distance : Nat}

theorem get?_positionsOf_moveUp (nodes : List Node) (label : Label) :
    (positionsOf (nodes.map (Node.moveUp distance))).get? (label.moveUp distance).number =
      (positionsOf nodes).get? label.number := by
  have counted : ∀ nodes : List Node, (Node.instructions (nodes.map (Node.moveUp distance))).length =
      (Node.instructions nodes).length := by
    intro nodes
    unfold Node.instructions
    rw [List.filter_map, List.length_map]
    congr 2
    funext node
    cases node <;> rfl
  induction nodes using List.reverseRecOn with
  | nil => rfl
  | append_singleton nodes node ih =>
    rw [List.map_append, List.map_singleton]
    cases node with
    | label other =>
      rw [Node.moveUp, positionsOf_label, positionsOf_label, NatMap.get?_set, NatMap.get?_set, ih, counted]
      simp only [Label.moveUp, Nat.add_right_cancel_iff]
    | insn insn => rw [positionsOf_plain _ rfl, positionsOf_plain _ rfl, ih]
    | branch branch => rw [positionsOf_plain _ rfl, positionsOf_plain _ rfl, ih]

/-- The form does not tell labels by their numbers. -/
theorem ofNodes_moveUp (nodes : List Node) : ofNodes (nodes.map (Node.moveUp distance)) = ofNodes nodes := by
  rw [ofNodes_eq, ofNodes_eq, List.filterMap_map]
  congr 1
  funext node
  cases node with
  | label label => rfl
  | insn insn => rfl
  | branch branch =>
    simp only [Function.comp_apply, Node.moveUp, formOf, Branch.map_map]
    congr 3
    funext label
    exact get?_positionsOf_moveUp nodes label

end CanonicalNode

/-- Where a step ends well, another does on the moved state, with the moved result. -/
def Carries {ε σ α β : Type} (move : σ → σ) (value : α → β) (step : EStateM ε σ α)
    (other : EStateM ε σ β) : Prop :=
  ∀ s a t, step s = .ok a t → other (move s) = .ok (value a) (move t)

namespace Carries

variable {ε σ α β γ δ : Type} {move : σ → σ} {value : α → β}

theorem pure (a : α) : Carries move value (Pure.pure a : EStateM ε σ α) (Pure.pure (value a)) := fun s b t h => by
  obtain ⟨rfl, rfl⟩ := pure_eq_ok.1 h
  rfl

theorem throw {problem : ε} {other : EStateM ε σ β} :
    Carries move value (MonadExcept.throw problem : EStateM ε σ α) other := fun _ _ _ h => (throw_ne_ok.1 h).elim

/-- Nothing behind a refusal is run. -/
theorem refuse {problem : ε} {next : γ → EStateM ε σ α} {other : EStateM ε σ β} :
    Carries move value (MonadExcept.throw problem >>= next) other := fun _ _ _ h => (throw_bind_ne_ok.1 h).elim

theorem bind {result : γ → δ} {step : EStateM ε σ α} {other : EStateM ε σ β} {next : α → EStateM ε σ γ}
    {more : β → EStateM ε σ δ} (hs : Carries move value step other)
    (hn : ∀ a, Carries move result (next a) (more (value a))) :
    Carries move result (step >>= next) (other >>= more) := fun s c u h => by
  obtain ⟨a, t, ha, hc⟩ := bind_eq_ok.1 h
  exact bind_eq_ok.2 ⟨value a, move t, hs s a t ha, hn a t c u hc⟩

theorem get {next : σ → EStateM ε σ α} {more : σ → EStateM ε σ β}
    (hn : ∀ s, Carries move value (next s) (more (move s))) :
    Carries move value (MonadState.get >>= next) (MonadState.get >>= more) := fun s a t h => hn s s a t h

theorem set (s : σ) : Carries move id (MonadStateOf.set s : EStateM ε σ PUnit) (MonadStateOf.set (move s)) :=
  fun _ u t h => by
    rw [set_eq_ok.1 h]
    rfl

theorem modify {f g : σ → σ} (h : ∀ s, g (move s) = move (f s)) :
    Carries move id (MonadState.modifyGet fun s => (PUnit.unit, f s) : EStateM ε σ PUnit)
      (MonadState.modifyGet fun s => (PUnit.unit, g s)) := fun s u t hf => by
  rw [modify_eq_ok.1 hf, ← h]
  rfl

theorem ite {p q : Prop} [Decidable p] [Decidable q] (hpq : q ↔ p) {a b : EStateM ε σ α} {c d : EStateM ε σ β}
    (ha : Carries move value a c) (hb : Carries move value b d) :
    Carries move value (if p then a else b) (if q then c else d) := by
  by_cases hp : p
  · rwa [if_pos hp, if_pos (hpq.2 hp)]
  · rwa [if_neg hp, if_neg (hp ∘ hpq.1)]

theorem forM {step : γ → EStateM ε σ PUnit} {other : δ → EStateM ε σ PUnit} {f : γ → δ}
    (h : ∀ c, Carries move id (step c) (other (f c))) (items : List γ) :
    Carries move id (items.forM step) ((items.map f).forM other) := by
  induction items with
  | nil => exact .pure _
  | cons item rest ih => exact .bind (h item) fun _ => ih

theorem forIn {step other : γ → δ → EStateM ε σ (ForInStep δ)}
    (h : ∀ c d, Carries move id (step c d) (other c d)) (items : List γ) (start : δ) :
    Carries move id (ForIn.forIn items start step) (ForIn.forIn items start other) := by
  induction items generalizing start with
  | nil => exact .pure start
  | cons item rest ih =>
    rw [List.forIn_cons, List.forIn_cons]
    refine .bind (h item start) fun result => ?_
    cases result with
    | done d => exact .pure d
    | yield d => exact ih d

end Carries

namespace Builder

/-- All labels moved up, and what is handed out next as well. -/
def moveUp (distance : Nat) (B : Builder) : Builder :=
  { B with
    labels := ⟨B.labels.allocated + distance⟩
    nodes := B.nodes.map (Node.moveUp distance)
    labelFrames := B.labelFrames.moveUp distance
    needsFrame := B.needsFrame.map (·.moveUp distance)
    pending := B.pending.map (·.moveUp distance)
    handlers := B.handlers.map (·.moveUp distance) }

variable {distance : Nat} (B : Builder) (label : Label)

theorem isPlaced_moveUp : (B.moveUp distance).isPlaced (label.moveUp distance) = B.isPlaced label := by
  rw [Bool.eq_iff_iff, isPlaced_iff, isPlaced_iff]
  change _ ∈ B.nodes.map (Node.moveUp distance) ↔ _
  rw [List.mem_map]
  constructor
  · rintro ⟨node, hm, he⟩
    cases node with
    | label other =>
      obtain rfl := Label.moveUp_inj.1 (Node.label.inj he)
      exact hm
    | insn insn => cases he
    | branch branch => cases he
  · exact fun hm => ⟨_, hm, rfl⟩

theorem append_moveUp (node : Node) (pending : Option Label) :
    (B.moveUp distance).append (node.moveUp distance) (pending.map (·.moveUp distance)) =
      (B.append node pending).moveUp distance := by
  unfold append observe moveUp
  cases B.frame <;> rfl

theorem require_moveUp :
    (B.moveUp distance).require (label.moveUp distance) = (B.require label).moveUp distance := by
  have hneeds : (B.moveUp distance).needsFrame.contains (label.moveUp distance) = B.needsFrame.contains label := by
    rw [Bool.eq_iff_iff, List.contains_iff_mem, List.contains_iff_mem]
    change _ ∈ B.needsFrame.map _ ↔ _
    rw [List.mem_map]
    simp only [Label.moveUp_inj, exists_eq_right]
  unfold require
  rw [hneeds]
  split <;> rfl

theorem setFrame_moveUp (frame : EditFrame) :
    (B.moveUp distance).setFrame (label.moveUp distance) frame = (B.setFrame label frame).moveUp distance := by
  have hset : (B.moveUp distance).labelFrames.set (label.moveUp distance) frame =
      (B.labelFrames.set label frame).moveUp distance := FrameTable.set_moveUp ..
  unfold setFrame
  rw [hset]
  rfl

theorem placed_moveUp (frame : EditFrame) :
    (B.moveUp distance).placed (label.moveUp distance) frame = (B.placed label frame).moveUp distance := by
  have hreach : (B.moveUp distance).isReachable = B.isReachable := rfl
  unfold placed
  rw [hreach, require_moveUp]
  cases B.isReachable with
  | true =>
    have hset := @setFrame_moveUp distance B label frame
    simp only [if_true, hset]
    exact append_moveUp { B.setFrame label frame with frame := some frame } (.label label) (some label)
  | false =>
    have hset := @setFrame_moveUp distance (B.require label) label frame
    simp only [Bool.false_eq_true, if_false, hset]
    exact append_moveUp { (B.require label).setFrame label frame with frame := some frame } (.label label) (some label)

theorem carries_fresh : Carries (moveUp distance) (Label.moveUp distance) fresh fresh := by
  intro B label C h
  obtain ⟨rfl, rfl⟩ := fresh_eq_ok.1 h
  refine fresh_eq_ok.2 ⟨rfl, ?_⟩
  simp only [moveUp, LabelSupply.fresh]
  congr 2
  omega

theorem carries_interning {α : Type} (step : Interning α) :
    Carries (moveUp distance) id (interning step) (interning step) := by
  intro B a C h
  obtain ⟨pool, hpool, rfl⟩ := interning_eq_ok.1 h
  exact interning_eq_ok.2 ⟨pool, hpool, rfl⟩

theorem carries_push {insn : Insn} (hnew : ∀ index, insn ≠ .new index) :
    Carries (moveUp distance) id (push insn) (push insn) := by
  intro B u C h
  obtain ⟨before, after, hframe, hverify, rfl⟩ := push_eq_ok hnew h
  have hunlabelled : insn.verify B.pool B.shape.thisClass (B.pending.map (·.moveUp distance)) before =
      .ok ((), after) := by
    rw [← hverify]
    cases insn with
    | new index => exact absurd rfl (hnew index)
    | _ => rfl
  have hpush := @push_ok (B.moveUp distance) insn before after hnew hframe hunlabelled
  rw [hpush, ← append_moveUp]
  rfl

theorem carries_jumpTo (target : Label) (frame : EditFrame) :
    Carries (moveUp distance) id (jumpTo target frame) (jumpTo (target.moveUp distance) frame) := by
  refine .bind (.modify fun B => require_moveUp B target) fun _ => .get fun B => ?_
  have hfind : (B.moveUp distance).labelFrames.find? (target.moveUp distance) = B.labelFrames.find? target :=
    FrameTable.find?_moveUp _ _
  rw [hfind, isPlaced_moveUp]
  have set_frame (frame : EditFrame) : Carries (moveUp distance) id (set (B.setFrame target frame) : Building Unit)
      (set ((B.moveUp distance).setFrame (target.moveUp distance) frame)) := by
    rw [setFrame_moveUp]
    exact .set _
  cases B.labelFrames.find? target with
  | none => exact .ite .rfl .refuse (set_frame frame)
  | some expected =>
    refine .ite .rfl (.ite .rfl (.pure _) .throw) ?_
    cases expected.merge frame with
    | none => exact .throw
    | some merged => exact set_frame merged

theorem carries_place : Carries (moveUp distance) id (place label) (place (label.moveUp distance)) := by
  refine .get fun B => ?_
  rw [isPlaced_moveUp]
  refine .ite .rfl .refuse ?_
  have set_placed (frame : EditFrame) : Carries (moveUp distance) id (set (B.placed label frame) : Building Unit)
      (set ((B.moveUp distance).placed (label.moveUp distance) frame)) := by
    rw [placed_moveUp]
    exact .set _
  have hframe : (B.moveUp distance).frame = B.frame := rfl
  have hfind : (B.moveUp distance).labelFrames.find? (label.moveUp distance) = B.labelFrames.find? label :=
    FrameTable.find?_moveUp _ _
  rw [hframe, hfind]
  cases B.frame with
  | none =>
    cases B.labelFrames.find? label with
    | none => exact .refuse
    | some jumped => exact .bind (.pure _) set_placed
  | some current =>
    cases B.labelFrames.find? label with
    | none => exact .bind (.pure _) set_placed
    | some jumped =>
      dsimp only
      cases jumped.merge current with
      | none => exact .refuse
      | some merged => exact .bind (.pure _) set_placed

theorem carries_placeKnown :
    Carries (moveUp distance) id (placeKnown label) (placeKnown (label.moveUp distance)) := by
  refine .get fun B => ?_
  rw [isPlaced_moveUp]
  refine .ite .rfl .refuse ?_
  have happend := @append_moveUp distance B (.label label) (some label)
  rw [Node.moveUp, Option.map_some] at happend
  rw [happend]
  exact .set _

theorem carries_placeWith (frame : EditFrame) :
    Carries (moveUp distance) id (placeWith label frame) (placeWith (label.moveUp distance) frame) := by
  refine .get fun B => ?_
  have hfind : (B.moveUp distance).labelFrames.find? (label.moveUp distance) = B.labelFrames.find? label :=
    FrameTable.find?_moveUp _ _
  rw [hfind]
  refine .bind (.forIn (fun arriving _ => .ite .rfl (.pure _) .refuse) _ _) fun _ => ?_
  have hset := @setFrame_moveUp distance (B.require label) label frame
  rw [require_moveUp]
  simp only [hset]
  exact .bind (.set _) fun _ => carries_placeKnown label

theorem carries_pushBranch (branch : Branch Label) :
    Carries (moveUp distance) id (pushBranch branch) (pushBranch (branch.map (·.moveUp distance))) := by
  refine .get fun B => ?_
  have hframe : (B.moveUp distance).frame = B.frame := rfl
  rw [hframe]
  cases B.frame with
  | none => exact .throw
  | some frame =>
    refine .bind (.set { B with frame := none }) fun _ => ?_
    have hshape : (B.moveUp distance).shape = B.shape := rfl
    rw [hshape, Branch.verify_map, Branch.jumpTargets_map, Branch.fallsThrough_map]
    cases branch.verify B.shape.returnType frame with
    | error cause => exact .throw
    | ok result =>
      obtain ⟨⟨⟩, after⟩ := result
      exact .bind (.forM (fun target => carries_jumpTo target after) _) fun _ => .modify fun C =>
        append_moveUp { C with frame := if branch.fallsThrough then some after else none } (.branch branch) none

theorem carries_beginTry : Carries (moveUp distance) (Label.moveUp distance) beginTry beginTry := by
  refine .get fun B => ?_
  have hframe : (B.moveUp distance).frame = B.frame := rfl
  rw [hframe]
  cases B.frame with
  | none => exact .throw
  | some frame =>
    exact .bind carries_fresh fun label => .bind (carries_place label) fun _ => .bind (.modify fun _ => rfl) fun _ =>
      .pure label

/-- The label moved up, with the same frame. -/
def moveEntry (distance : Nat) (entry : Label × EditFrame) : Label × EditFrame := (entry.1.moveUp distance, entry.2)

theorem carries_closeRegion (start stop : Label) (catchType : Option String) :
    Carries (moveUp distance) (moveEntry distance) (closeRegion start stop catchType)
      (closeRegion (start.moveUp distance) (stop.moveUp distance) catchType) := by
  refine .get fun B => ?_
  have hregions : (B.moveUp distance).regions = B.regions := rfl
  rw [hregions]
  cases B.regions with
  | nil => exact .throw
  | cons known outer =>
    have added (handler : Handler) :
        Carries (moveUp distance) id (addHandler handler) (addHandler (handler.moveUp distance)) := by
      refine .modify fun C => ?_
      have hrequire := @require_moveUp distance C handler.handler
      simp only [Handler.moveUp, hrequire]
      rfl
    exact .bind (.modify fun _ => rfl) fun _ => .bind carries_fresh fun handler =>
      .bind (added ⟨start, stop, handler, catchType⟩) fun _ =>
      .bind (.modify fun C => setFrame_moveUp C handler _) fun _ => .pure (handler, _)

theorem carries_endTry (start : Label) (catchType : Option String) :
    Carries (moveUp distance) (moveEntry distance) (endTry start catchType)
      (endTry (start.moveUp distance) catchType) :=
  .bind carries_fresh fun stop => .get fun _ => .ite .rfl
    (.bind (carries_place stop) fun _ => carries_closeRegion start stop catchType)
    (.bind (carries_placeKnown stop) fun _ => carries_closeRegion start stop catchType)

theorem carries_pop : Carries (moveUp distance) id pop pop := by
  refine .get fun B => ?_
  have hframe : (B.moveUp distance).frame = B.frame := rfl
  rw [hframe]
  split
  · exact carries_push (by simp)
  · exact carries_push (by simp)

theorem carries_leave : Carries (moveUp distance) id leave leave :=
  .get fun B => carries_pushBranch (.returnFor B.shape.returnType)

theorem composes_carries : Composes fun _ step => Carries (ε := ClassError) (moveUp distance) id step step where
  pure := .pure
  throw _ := .throw
  bind := .bind
  intern _ _ := carries_interning _
  push _ operates := carries_push (Insn.ne_new (Insn.isScripted_of_isOperation operates))

end Builder

namespace Compiler

open Builder

def moveUp (distance : Nat) (c : Compiler) : Compiler := { c with builder := c.builder.moveUp distance }

variable {distance : Nat} {α β : Type}

theorem carries_lift {value : α → β} {step : Building α} {other : Building β}
    (h : Carries (Builder.moveUp distance) value step other) :
    Carries (moveUp distance) value (liftM step : Compiling α) (liftM other : Compiling β) := by
  intro c a d hstep
  obtain ⟨B, hB, rfl⟩ := lift_eq_ok.1 hstep
  exact lift_eq_ok.2 ⟨_, h _ _ _ hB, rfl⟩

theorem composesExpr_carries : ComposesExpr (fun _ _ => True)
    (fun _ step => Carries (ε := ClassError) (Builder.moveUp distance) id step step)
    fun _ step => Carries (ε := PatchError) (moveUp distance) id step step where
  building := Builder.composes_carries
  lift := carries_lift
  pure := .pure
  throw _ := .throw
  bind := .bind
  shape := .get fun c => .pure c.builder.shape
  argument index _ _ hn := by
    have found : Carries (moveUp distance) id (argument index) (argument index) := by
      refine .get fun c => ?_
      have hshape : (c.moveUp distance).builder.shape = c.builder.shape := rfl
      rw [hshape]
      cases c.builder.shape.parameterSlot? index with
      | some found => exact .pure _
      | none => exact .throw
    exact .bind found fun v => hn v.1 v.2 trivial
  lookUp name _ _ hn := by
    have found : Carries (moveUp distance) id (lookUp name) (lookUp name) := by
      refine .get fun c => ?_
      have hscope : (c.moveUp distance).scope = c.scope := rfl
      rw [hscope]
      cases c.scope.lookup name with
      | some found => exact .pure _
      | none => exact .throw
    exact .bind found fun v => hn v.1 v.2 trivial

theorem carries_isReachable : Carries (moveUp distance) id isReachable isReachable :=
  .get fun c => .pure c.builder.isReachable

theorem carries_isJumpedTo (label : Label) :
    Carries (moveUp distance) id (isJumpedTo label) (isJumpedTo (label.moveUp distance)) := by
  refine .get fun c => ?_
  have hjumped : (c.moveUp distance).builder.isJumpedTo (label.moveUp distance) = c.builder.isJumpedTo label :=
    congrArg Option.isSome (FrameTable.find?_moveUp ..)
  rw [hjumped]
  exact .pure _

theorem carries_placeIfReachable (label : Label) :
    Carries (moveUp distance) id (placeIfReachable label) (placeIfReachable (label.moveUp distance)) :=
  .bind carries_isReachable fun _ => .bind (carries_isJumpedTo label) fun _ =>
    .ite .rfl (carries_lift (carries_place label)) (.pure _)

theorem carries_gotoIfReachable (label : Label) :
    Carries (moveUp distance) id (gotoIfReachable label) (gotoIfReachable (label.moveUp distance)) :=
  .bind carries_isReachable fun _ => .ite .rfl (carries_lift (carries_pushBranch (.goto label))) (.pure _)

theorem carries_value (expression : Expr) : Carries (moveUp distance) id (value expression) (value expression) :=
  .bind (composesExpr_carries.expr expression) fun type => composesExpr_carries.required expression type

theorem carries_discardValue (expression : Expr) :
    Carries (moveUp distance) id (discard (value expression)) (discard (value expression)) :=
  .bind (carries_value expression) fun _ => .pure _

theorem carries_jump (branch : Branch Label) : Carries (moveUp distance) id
    (liftM (Builder.pushBranch branch) : Compiling Unit)
    (liftM (Builder.pushBranch (branch.map (·.moveUp distance)))) :=
  carries_lift (carries_pushBranch branch)

theorem carries_freshLabel : Carries (moveUp distance) (Label.moveUp distance)
    (liftM Builder.fresh : Compiling Label) (liftM Builder.fresh) := carries_lift carries_fresh

theorem carries_junction {neutral jumpIf : Bool} {target : Label} {isEmpty : Bool} {each each' : Compiling Unit}
    {lastOf lastOf' : Label → Compiling Unit} (heach : Carries (moveUp distance) id each each')
    (hlast : ∀ skip : Label, Carries (moveUp distance) id (lastOf skip) (lastOf' (skip.moveUp distance))) :
    Carries (moveUp distance) id (junction neutral jumpIf target isEmpty each lastOf)
      (junction neutral jumpIf (target.moveUp distance) isEmpty each' lastOf') :=
  .ite .rfl (.ite .rfl (carries_jump (.goto target)) (.pure _)) <| .ite .rfl heach <|
    .bind carries_freshLabel fun skip => .bind (hlast skip) fun _ => carries_placeIfReachable skip

mutual

theorem carries_cond : ∀ (jumpIf : Bool) (target : Label) (condition : Cond),
    Carries (moveUp distance) id (cond jumpIf target condition) (cond jumpIf (target.moveUp distance) condition)
  | jumpIf, target, .isNull operand => by
    rw [cond, cond]
    exact .bind (carries_discardValue operand) fun _ => carries_jump (.ifNull _ target)
  | jumpIf, target, .notNull operand => by
    rw [cond, cond]
    exact .bind (carries_discardValue operand) fun _ => carries_jump (.ifNull _ target)
  | jumpIf, target, .isTrue operand => by
    rw [cond, cond]
    exact .bind (carries_discardValue operand) fun _ => carries_jump (.ifZero _ target)
  | jumpIf, target, .isFalse operand => by
    rw [cond, cond]
    exact .bind (carries_discardValue operand) fun _ => carries_jump (.ifZero _ target)
  | jumpIf, target, .compare comparison a b => by
    rw [cond, cond]
    exact .bind (carries_discardValue a) fun _ => .bind (carries_discardValue b) fun _ =>
      carries_jump (.ifInts _ target)
  | jumpIf, target, .not condition => by
    rw [cond, cond]
    exact carries_cond (!jumpIf) target condition
  | jumpIf, target, .all conditions => by
    rw [cond, cond]
    exact carries_junction (carries_each jumpIf target conditions) fun skip =>
      carries_lastOf jumpIf target skip conditions
  | jumpIf, target, .any conditions => by
    rw [cond, cond]
    exact carries_junction (carries_each jumpIf target conditions) fun skip =>
      carries_lastOf jumpIf target skip conditions

theorem carries_each : ∀ (jumpIf : Bool) (target : Label) (conditions : List Cond),
    Carries (moveUp distance) id (each jumpIf target conditions) (each jumpIf (target.moveUp distance) conditions)
  | jumpIf, target, [] => by
    rw [each, each]
    exact .pure _
  | jumpIf, target, first :: rest => by
    rw [each, each]
    exact .bind (carries_cond jumpIf target first) fun _ => carries_each jumpIf target rest

theorem carries_lastOf : ∀ (jumpIf : Bool) (target skip : Label) (conditions : List Cond),
    Carries (moveUp distance) id (lastOf jumpIf target skip conditions)
      (lastOf jumpIf (target.moveUp distance) (skip.moveUp distance) conditions)
  | jumpIf, target, skip, [] => by
    rw [lastOf, lastOf]
    exact .pure _
  | jumpIf, target, skip, [last] => by
    rw [lastOf, lastOf]
    exact carries_cond jumpIf target last
  | jumpIf, target, skip, first :: second :: rest => by
    have skipping (target skip : Label) : lastOf jumpIf target skip (first :: second :: rest) = (do
        cond (!jumpIf) skip first
        lastOf jumpIf target skip (second :: rest)) := by
      rw [lastOf]
      simp
    rw [skipping, skipping]
    exact .bind (carries_cond (!jumpIf) skip first) fun _ => carries_lastOf jumpIf target skip (second :: rest)

end

theorem carries_condValue (condition : Cond) :
    Carries (moveUp distance) id (condValue condition) (condValue condition) := by
  refine .bind carries_freshLabel fun zero => .bind carries_freshLabel fun join =>
    .bind (carries_cond false zero condition) fun _ => .bind carries_isReachable fun _ => ?_
  have counted (value : Int32) : Carries (moveUp distance) id (liftM (Builder.constInt value) : Compiling Unit)
      (liftM (Builder.constInt value)) := carries_lift (Builder.composes_carries.constInt value)
  have joined : Carries (moveUp distance) id (do
      if ← isJumpedTo zero then
        Builder.place zero
        Builder.constInt 0
      placeIfReachable join : Compiling Unit) (do
      if ← isJumpedTo (zero.moveUp distance) then
        Builder.place (zero.moveUp distance)
        Builder.constInt 0
      placeIfReachable (join.moveUp distance)) :=
    .bind (carries_isJumpedTo zero) fun _ => .ite .rfl (.bind (carries_lift (carries_place zero)) fun _ =>
      .bind (counted 0) fun _ => carries_placeIfReachable join) (carries_placeIfReachable join)
  exact .ite .rfl (.bind (counted 1) fun _ => .bind (carries_jump (.goto join)) fun _ => joined) joined

theorem carries_allocate (type : FieldType) : Carries (moveUp distance) id (allocate type) (allocate type) :=
  .get fun c => .ite .rfl .refuse (.bind (.set { c with nextLocal := _ }) fun _ => .pure c.nextLocal)

theorem carries_declare (name : String) (slot : UInt16) (type : FieldType) :
    Carries (moveUp distance) id (declare name slot type) (declare name slot type) := .modify fun _ => rfl

theorem carries_store (slot : UInt16) (type : FieldType) : Carries (moveUp distance) id
    (liftM (Builder.store slot type) : Compiling Unit) (liftM (Builder.store slot type)) :=
  carries_lift (carries_push nofun)

theorem carries_bind (name : String) (type : FieldType) :
    Carries (moveUp distance) id (Compiler.bind name type) (Compiler.bind name type) :=
  .bind (carries_allocate type) fun slot => .bind (carries_store slot type) fun _ => carries_declare name slot type

theorem carries_allOf (result : String) (array : Expr) (element : String) (test : Cond) :
    Carries (moveUp distance) id (allOf result array element test) (allOf result array element test) := by
  have pushed {insn : Insn} (operates : insn.isOperation = true) : Carries (moveUp distance) id
      (liftM (Builder.push insn) : Compiling Unit) (liftM (Builder.push insn)) :=
    composesExpr_carries.push insn operates
  have counted (value : Int32) : Carries (moveUp distance) id (liftM (Builder.constInt value) : Compiling Unit)
      (liftM (Builder.constInt value)) := carries_lift (Builder.composes_carries.constInt value)
  refine .bind (carries_value array) fun arrayType => ?_
  dsimp only [id]
  split
  · exact .throw
  · refine .bind (carries_allocate _) fun arraySlot => .bind (carries_store arraySlot _) fun _ =>
      .bind (carries_allocate _) fun indexSlot => .bind (counted _) fun _ => .bind (carries_store indexSlot _) fun _ =>
      .bind (carries_allocate _) fun resultSlot => .bind (counted _) fun _ =>
      .bind (carries_store resultSlot _) fun _ => .bind (carries_allocate _) fun elementSlot =>
      .bind (carries_declare _ _ _) fun _ => .bind (carries_declare _ _ _) fun _ =>
      .bind carries_freshLabel fun head => .bind carries_freshLabel fun exit => ?_
    -- The head of the loop, the test, and what is done with its value.
    exact .bind (carries_lift (carries_place head)) fun _ => .bind (pushed rfl) fun _ => .bind (pushed rfl) fun _ =>
      .bind (pushed rfl) fun _ => .bind (carries_jump (.ifInts .ge exit)) fun _ => .bind (pushed rfl) fun _ =>
      .bind (pushed rfl) fun _ => .bind (pushed rfl) fun _ => .bind (carries_store elementSlot _) fun _ =>
      .bind (pushed rfl) fun _ => .bind (carries_condValue test) fun _ => .bind (pushed rfl) fun _ =>
      .bind (carries_store resultSlot .boolean) fun _ => .bind (pushed rfl) fun _ =>
      .bind (carries_jump (.goto head)) fun _ => carries_lift (carries_place exit)

theorem carries_return (result : Option Expr) : Carries (moveUp distance) id (leave result) (leave result) := by
  have left : Carries (moveUp distance) id (liftM Builder.leave : Compiling Unit) (liftM Builder.leave) :=
    carries_lift carries_leave
  refine .bind composesExpr_carries.shape fun shape => ?_
  extract_lets expected expectedText
  cases result with
  | none => exact .ite .rfl .refuse left
  | some result => exact .bind (carries_value result) fun _ => .ite .rfl .refuse left

theorem carries_caught (catchType binding : Option String) :
    Carries (moveUp distance) id (caught catchType binding) (caught catchType binding) := by
  cases binding with
  | none => exact carries_lift carries_pop
  | some name =>
    cases catchType with
    | none => exact .bind (.pure _) fun _ => carries_bind _ _
    | some found => exact .bind (composesExpr_carries.classType found) fun _ => carries_bind _ _

theorem carries_handling (start after : Label) (catchType binding : Option String) :
    Carries (moveUp distance) id (handling start after catchType binding)
      (handling (start.moveUp distance) (after.moveUp distance) catchType binding) :=
  .bind (carries_lift (carries_endTry start catchType)) fun ended => .bind (carries_gotoIfReachable after) fun _ =>
    .bind (carries_lift (carries_placeWith ended.1 ended.2)) fun _ => carries_caught catchType binding

mutual

theorem carries_stmt : ∀ statement : Stmt, Carries (moveUp distance) id (stmt statement) (stmt statement)
  | .declare name descriptor initial => by
    rw [stmt]
    exact .bind (composesExpr_carries.fieldType descriptor) fun type => .bind (carries_discardValue initial) fun _ =>
      carries_bind name type
  | .assign name assigned => by
    rw [stmt]
    exact composesExpr_carries.lookUp name fun slot type _ => .bind (carries_discardValue assigned) fun _ =>
      carries_store slot type
  | .setArgument index assigned => by
    rw [stmt]
    exact composesExpr_carries.argument index fun slot type _ => .bind (carries_discardValue assigned) fun _ =>
      carries_store slot type
  | .eval expression => by
    rw [stmt]
    exact .bind (composesExpr_carries.expr expression) fun _ => .ite .rfl (carries_lift carries_pop) (.pure _)
  | .branch condition whenTrue whenFalse => by
    rw [stmt]
    exact .bind carries_freshLabel fun otherwise => .bind (carries_cond false otherwise condition) fun _ =>
      .bind (carries_block whenTrue) fun _ => .ite .rfl (carries_placeIfReachable otherwise) <|
      .bind carries_freshLabel fun done => .bind (carries_gotoIfReachable done) fun _ =>
      .bind (carries_placeIfReachable otherwise) fun _ => .bind (carries_block whenFalse) fun _ =>
        carries_placeIfReachable done
  | .loop condition body => by
    rw [stmt]
    exact .bind carries_freshLabel fun head => .bind carries_freshLabel fun exit =>
      .bind (carries_lift (carries_place head)) fun _ => .bind (carries_cond false exit condition) fun _ =>
      .bind (carries_block body) fun _ => .bind (carries_gotoIfReachable head) fun _ =>
        carries_placeIfReachable exit
  | .increment name amount => by
    rw [stmt]
    exact composesExpr_carries.lookUp name fun _ _ _ => .ite .rfl .refuse (composesExpr_carries.push _ rfl)
  | .allOf result array element test => by
    rw [stmt]
    exact carries_allOf result array element test
  | .tryCatch body catchType binding handler => by
    rw [stmt_tryCatch]
    exact .ite .rfl .refuse <| .bind carries_freshLabel fun after => .bind (carries_lift carries_beginTry) fun start =>
      .bind (carries_block body) fun _ => .bind (carries_handling start after catchType binding) fun _ =>
      .bind (carries_block handler) fun _ => carries_placeIfReachable after
  | .leave result => by
    rw [stmt]
    exact carries_return result

theorem carries_block : ∀ statements : List Stmt, Carries (moveUp distance) id (block statements) (block statements)
  | [] => by
    rw [block]
    exact .pure _
  | first :: rest => by
    rw [block]
    exact .bind (carries_stmt first) fun _ => carries_block rest

end

end Compiler

end ClassWeave
