import ClassWeave.Proofs.Frame.Typing
import ClassWeave.Proofs.Patch.Heights
import ClassWeave.Proofs.Pool.Settled
import ClassWeave.Proofs.Script.Compiled
import ClassWeave.Proofs.Script.Composing

/-!
Compiling again. Code reaches the pool only to intern constants and to look them up, so a script that is
compiled on a pool with all the constants it got gives the same code, and gets no more of them.
-/

namespace ClassWeave

variable {ε σ α β : Type}

/-- A result with another state. -/
def withState (f : σ → σ) : EStateM.Result ε σ α → EStateM.Result ε σ α
  | .ok a s => .ok a (f s)
  | .error problem s => .error problem (f s)

/-- The pool in a state, which can be put in place of another. -/
structure PoolIn (σ : Type) where
  pool : σ → ConstantPool
  on : σ → ConstantPool → σ
  on_pool : ∀ s, on s (pool s) = s
  pool_on : ∀ s p, pool (on s p) = p

namespace PoolIn

variable (site : PoolIn σ)

/-- The step only adds constants, and again on a pool that holds them it does the same and adds none. -/
def Settles (step : EStateM ε σ α) : Prop :=
  ∀ s a t, step s = .ok a t → site.pool s ≤ site.pool t ∧
    ∀ r, site.pool t ≤ r → step (site.on s r) = .ok a (site.on t r)

/-- On another pool the second step does what the first does. -/
def Mirrors (r : ConstantPool) (step other : EStateM ε σ α) : Prop :=
  ∀ s, other (site.on s r) = withState (site.on · r) (step s)

variable {site}

namespace Settles

theorem pure (a : α) : site.Settles (Pure.pure a : EStateM ε σ α) := fun s b t h => by
  obtain ⟨rfl, rfl⟩ := pure_eq_ok.1 h
  exact ⟨ConstantPool.le_refl _, fun _ _ => rfl⟩

theorem throw (problem : ε) : site.Settles (throw problem : EStateM ε σ α) := fun _ _ _ h =>
  (throw_ne_ok.1 h).elim

theorem bind {step : EStateM ε σ α} {next : α → EStateM ε σ β} (hs : site.Settles step)
    (hn : ∀ a, site.Settles (next a)) : site.Settles (step >>= next) := fun s b u h => by
  obtain ⟨a, t, ha, hb⟩ := bind_eq_ok.1 h
  obtain ⟨hst, again⟩ := hs s a t ha
  obtain ⟨htu, again'⟩ := hn a t b u hb
  exact ⟨ConstantPool.le_trans hst htu, fun r hur =>
    bind_eq_ok.2 ⟨a, site.on t r, again r (ConstantPool.le_trans htu hur), again' r hur⟩⟩

/-- What is done with a state that was read does not depend on its pool. -/
theorem get {next : σ → EStateM ε σ β} (hn : ∀ s, site.Settles (next s))
    (hsame : ∀ s r, next (site.on s r) = next s) : site.Settles (MonadState.get >>= next) := fun s b t h => by
  obtain ⟨hst, again⟩ := hn s s b t h
  refine ⟨hst, fun r hr => ?_⟩
  rw [get_bind_eq_ok, hsame]
  exact again r hr

/-- A step that does not look at the pool leaves it alone. -/
theorem of_mirrors {step : EStateM ε σ α} (h : ∀ r, site.Mirrors r step step) : site.Settles step :=
  fun s a t hst => by
    have onto (r : ConstantPool) : step (site.on s r) = .ok a (site.on t r) := by
      rw [h r s, hst]
      rfl
    have hsame : t = site.on t (site.pool s) := by
      have hself := onto (site.pool s)
      rw [site.on_pool, hst] at hself
      exact (EStateM.Result.ok.inj hself).2
    refine ⟨?_, fun r _ => onto r⟩
    rw [hsame, site.pool_on]
    exact ConstantPool.le_refl _

end Settles

namespace Mirrors

variable {r : ConstantPool}

theorem pure (a : α) : site.Mirrors r (Pure.pure a : EStateM ε σ α) (Pure.pure a) := fun _ => rfl

theorem throw (problem : ε) :
    site.Mirrors r (MonadExcept.throw problem : EStateM ε σ α) (MonadExcept.throw problem) := fun _ => rfl

/-- Nothing behind a refusal is run. -/
theorem refuse {problem : ε} {next more : α → EStateM ε σ β} :
    site.Mirrors r (MonadExcept.throw problem >>= next) (MonadExcept.throw problem >>= more) := fun _ => rfl

theorem set (s : σ) : site.Mirrors r (set s : EStateM ε σ PUnit) (set (site.on s r)) := fun _ => rfl

theorem modify {f : σ → σ} (h : ∀ s, f (site.on s r) = site.on (f s) r) :
    site.Mirrors r (modify f : EStateM ε σ PUnit) (modify f) := fun s =>
  congrArg (EStateM.Result.ok PUnit.unit) (h s)

theorem bind {step other : EStateM ε σ α} {next more : α → EStateM ε σ β} (hs : site.Mirrors r step other)
    (hn : ∀ a, site.Mirrors r (next a) (more a)) : site.Mirrors r (step >>= next) (other >>= more) := by
  intro s
  have hfirst := hs s
  change EStateM.bind other more (site.on s r) = withState _ (EStateM.bind step next s)
  unfold EStateM.bind
  rw [hfirst]
  cases step s with
  | ok a t => exact hn a t
  | error problem t => rfl

/-- What is read differs in the pool. -/
theorem get {next more : σ → EStateM ε σ β} (hn : ∀ s, site.Mirrors r (next s) (more (site.on s r))) :
    site.Mirrors r (MonadState.get >>= next) (MonadState.get >>= more) := fun s => hn s s

theorem ite {p : Prop} [Decidable p] {a b c d : EStateM ε σ α} (ha : site.Mirrors r a c)
    (hb : site.Mirrors r b d) : site.Mirrors r (if p then a else b) (if p then c else d) := by
  split
  · exact ha
  · exact hb

theorem forM {step : β → EStateM ε σ PUnit} (h : ∀ b, site.Mirrors r (step b) (step b)) (items : List β) :
    site.Mirrors r (items.forM step) (items.forM step) := by
  induction items with
  | nil => exact .pure _
  | cons item rest ih =>
    change site.Mirrors r (step item >>= fun _ => rest.forM step) (step item >>= fun _ => rest.forM step)
    exact .bind (h item) fun _ => ih

theorem forIn {γ : Type} {step : β → γ → EStateM ε σ (ForInStep γ)}
    (h : ∀ b c, site.Mirrors r (step b c) (step b c)) (items : List β) (start : γ) :
    site.Mirrors r (forIn items start step) (forIn items start step) := by
  induction items generalizing start with
  | nil => exact .pure start
  | cons item rest ih =>
    rw [List.forIn_cons]
    refine .bind (h item start) fun result => ?_
    cases result with
    | done c => exact .pure c
    | yield c => exact ih c

end Mirrors

end PoolIn

namespace Builder

def pooled : PoolIn Builder where
  pool := pool
  on B r := { B with pool := r }
  on_pool _ := rfl
  pool_on _ _ := rfl

variable {r : ConstantPool} (B : Builder) (label : Label)

theorem append_on (node : Node) (pending : Option Label) :
    (pooled.on B r).append node pending = pooled.on (B.append node pending) r := by
  unfold append observe pooled
  cases B.frame <;> rfl

theorem require_on : (pooled.on B r).require label = pooled.on (B.require label) r := by
  unfold require pooled
  by_cases h : B.needsFrame.contains label <;> simp only [h, if_true, Bool.false_eq_true, if_false]

theorem mirrors_fresh : pooled.Mirrors r fresh fresh := fun _ => rfl

theorem mirrors_jumpTo (target : Label) (frame : EditFrame) :
    pooled.Mirrors r (jumpTo target frame) (jumpTo target frame) := by
  refine .bind (.modify fun B => require_on B target) fun _ => .get fun B => ?_
  have hlabels : (pooled.on B r).labelFrames = B.labelFrames := rfl
  rw [hlabels]
  cases B.labelFrames.find? target with
  | none => exact .ite (.bind (.throw _) fun _ => .set _) (.set _)
  | some expected =>
    refine .ite (.ite (.pure _) (.throw _)) ?_
    cases expected.merge frame with
    | none => exact .throw _
    | some merged => exact .set _

theorem placed_on (frame : EditFrame) :
    (pooled.on B r).placed label frame = pooled.on (B.placed label frame) r := by
  have hreach : (pooled.on B r).isReachable = B.isReachable := rfl
  unfold placed
  rw [hreach, require_on]
  cases B.isReachable with
  | true => exact append_on { B.setFrame label frame with frame := some frame } _ _
  | false => exact append_on { (B.require label).setFrame label frame with frame := some frame } _ _

theorem mirrors_place : pooled.Mirrors r (place label) (place label) := by
  refine .get fun B => .ite .refuse ?_
  have set_placed (frame : EditFrame) : pooled.Mirrors r (set (B.placed label frame) : Building Unit)
      (set ((pooled.on B r).placed label frame)) := by
    rw [placed_on]
    exact .set _
  have hframe : (pooled.on B r).frame = B.frame := rfl
  have hlabels : (pooled.on B r).labelFrames = B.labelFrames := rfl
  rw [hframe, hlabels]
  cases B.frame with
  | none =>
    cases B.labelFrames.find? label with
    | none => exact .refuse
    | some jumped => exact .bind (.pure _) set_placed
  | some current =>
    cases B.labelFrames.find? label with
    | none => exact .bind (.pure _) set_placed
    | some jumped =>
      dsimp only
      cases jumped.merge current with
      | none => exact .refuse
      | some merged => exact .bind (.pure _) set_placed

theorem mirrors_placeKnown : pooled.Mirrors r (placeKnown label) (placeKnown label) := by
  refine .get fun B => .ite .refuse ?_
  rw [append_on]
  exact .set _

theorem mirrors_placeWith (frame : EditFrame) :
    pooled.Mirrors r (placeWith label frame) (placeWith label frame) := by
  refine .get fun B => .bind (.forIn (fun arriving _ => ?_) _ _) fun _ => ?_
  · exact .ite (.pure _) (.bind (.throw _) fun _ => .pure _)
  · rw [require_on]
    exact .bind (.set _) fun _ => mirrors_placeKnown label

theorem mirrors_pushBranch (branch : Branch Label) :
    pooled.Mirrors r (pushBranch branch) (pushBranch branch) := by
  refine .get fun B => ?_
  have hframe : (pooled.on B r).frame = B.frame := rfl
  rw [hframe]
  cases B.frame with
  | none => exact .throw _
  | some frame =>
    refine .bind (.set _) fun _ => ?_
    have hreturn : (pooled.on B r).shape = B.shape := rfl
    rw [hreturn]
    cases branch.verify B.shape.returnType frame with
    | error cause => exact .throw _
    | ok result =>
      obtain ⟨⟨⟩, after⟩ := result
      exact .bind (.forM (fun target => mirrors_jumpTo target after) _) fun _ =>
        .modify fun C =>
          append_on { C with frame := if branch.fallsThrough then some after else none } _ _

theorem mirrors_beginTry : pooled.Mirrors r beginTry beginTry := by
  refine .get fun B => ?_
  have hframe : (pooled.on B r).frame = B.frame := rfl
  rw [hframe]
  cases B.frame with
  | none => exact .throw _
  | some frame =>
    exact .bind mirrors_fresh fun _ => .bind (mirrors_place _) fun _ => .bind (.modify fun _ => rfl) fun _ =>
      .pure _

theorem mirrors_closeRegion (start stop : Label) (catchType : Option String) :
    pooled.Mirrors r (closeRegion start stop catchType) (closeRegion start stop catchType) := by
  refine .get fun B => ?_
  have hregions : (pooled.on B r).regions = B.regions := rfl
  rw [hregions]
  cases B.regions with
  | nil => exact .throw _
  | cons known outer =>
    have added (handler : Handler) : pooled.Mirrors r (addHandler handler) (addHandler handler) := by
      refine .modify fun C => ?_
      rw [require_on]
      rfl
    exact .bind (.modify fun _ => rfl) fun _ => .bind mirrors_fresh fun _ => .bind (added _) fun _ =>
      .bind (.modify fun _ => rfl) fun _ => .pure _

theorem mirrors_endTry (start : Label) (catchType : Option String) :
    pooled.Mirrors r (endTry start catchType) (endTry start catchType) :=
  .bind mirrors_fresh fun stop => .get fun _ => .ite
    (.bind (mirrors_place stop) fun _ => mirrors_closeRegion start stop catchType)
    (.bind (mirrors_placeKnown stop) fun _ => mirrors_closeRegion start stop catchType)

theorem settles_interning {step : Interning α} (h : Settled step) : pooled.Settles (interning step) := by
  intro B a C hstep
  obtain ⟨pool, hpool, rfl⟩ := interning_eq_ok.1 hstep
  obtain ⟨hle, again⟩ := h _ _ _ hpool
  exact ⟨hle, fun r hr => interning_eq_ok.2 ⟨r, again r hr, rfl⟩⟩

theorem push_ok {B : Builder} {insn : Insn} {before after : EditFrame} (hnew : ∀ index, insn ≠ .new index)
    (hframe : B.frame = some before)
    (hverify : insn.verify B.pool B.shape.thisClass B.pending before = .ok ((), after)) :
    push insn B = .ok () ({ B with frame := some after }.append (.insn insn) none) := by
  refine bind_eq_ok.2 ⟨B.pending, B, ?_, ?_⟩
  · cases insn with
    | new index => exact absurd rfl (hnew index)
    | _ => rfl
  · rw [get_bind_eq_ok, hframe]
    dsimp only
    rw [hverify]
    rfl

/-- The typing rules look up what was interned. -/
theorem settles_push {insn : Insn} (hnew : ∀ index, insn ≠ .new index) : pooled.Settles (push insn) := by
  intro B u C hpush
  obtain ⟨before, after, hframe, hverify, rfl⟩ := push_eq_ok hnew hpush
  have hpool : ({ B with frame := some after }.append (.insn insn) none).pool = B.pool := append_pool _ _ _
  refine ⟨hpool ▸ ConstantPool.le_refl _, fun r hr => ?_⟩
  rw [← append_on { B with frame := some after }]
  exact push_ok hnew hframe (Insn.verify_of_le (hpool ▸ hr) hverify)

theorem settles_pop : pooled.Settles pop := by
  refine .get (fun B => ?_) fun _ _ => rfl
  split
  · exact settles_push (by simp)
  · exact settles_push (by simp)

theorem settles_leave : pooled.Settles leave :=
  .of_mirrors fun _ => .get fun B => mirrors_pushBranch (.returnFor B.shape.returnType)

theorem composes_settles : Composes fun _ => pooled.Settles (ε := ClassError) where
  pure := .pure
  throw := .throw
  bind := .bind
  intern constant _ := settles_interning (ConstantPool.settled_intern constant)
  push _ operates := settles_push (Insn.ne_new (Insn.isScripted_of_isOperation operates))

end Builder

namespace Compiler

open Builder

def pooled : PoolIn Compiler where
  pool c := c.builder.pool
  on c r := { c with builder := Builder.pooled.on c.builder r }
  on_pool _ := rfl
  pool_on _ _ := rfl

variable {r : ConstantPool}

theorem settles_lift {step : Building α} (h : Builder.pooled.Settles step) :
    pooled.Settles (liftM step : Compiling α) := by
  intro c a d hstep
  obtain ⟨B, hB, rfl⟩ := lift_eq_ok.1 hstep
  obtain ⟨hle, again⟩ := h _ _ _ hB
  exact ⟨hle, fun r hr => lift_eq_ok.2 ⟨_, again r hr, rfl⟩⟩

theorem composesOpen_settles :
    ComposesOpen (fun _ _ => True) (fun _ => Builder.pooled.Settles (ε := ClassError))
      fun _ => pooled.Settles (ε := PatchError) where
  building := Builder.composes_settles
  lift := settles_lift
  pure := .pure
  throw := .throw
  bind := .bind
  shape := .of_mirrors fun _ => .get fun _ => .pure _
  argument index _ _ hn := by
    refine .bind (.of_mirrors fun r => .get fun c => ?_) fun v => hn v.1 v.2 trivial
    have hshape : (pooled.on c r).builder.shape = c.builder.shape := rfl
    rw [hshape]
    cases c.builder.shape.parameterSlot? index with
    | some found => exact .pure _
    | none => exact .throw _
  lookUp name _ _ hn := by
    refine .bind (.of_mirrors fun r => .get fun c => ?_) fun v => hn v.1 v.2 trivial
    have hscope : (pooled.on c r).scope = c.scope := rfl
    rw [hscope]
    cases c.scope.lookup name with
    | some found => exact .pure _
    | none => exact .throw _
  store slot type _ := settles_push nofun
  fresh := .of_mirrors fun _ => mirrors_fresh
  place label := .of_mirrors fun _ => mirrors_place label
  pushBranch branch := .of_mirrors fun _ => mirrors_pushBranch branch
  beginTry := .of_mirrors fun _ => mirrors_beginTry
  pop := settles_pop
  returning := settles_leave
  isReachable := .of_mirrors fun _ => .get fun _ => .pure _
  isJumpedTo label := .of_mirrors fun _ => .get fun _ => .pure _
  allocate type _ _ hn := .bind (.of_mirrors fun _ => .get fun _ => .ite .refuse (.bind (.set _) fun _ => .pure _))
    fun slot => hn slot trivial
  declare name slot type _ := .of_mirrors fun _ => .modify fun _ => rfl

theorem composes_settles :
    Composes (fun _ _ => True) (fun _ => Builder.pooled.Settles (ε := ClassError))
      fun _ => pooled.Settles (ε := PatchError) where
  toComposesOpen := composesOpen_settles
  handling := composesOpen_settles.handling
    (fun start catchType => .of_mirrors fun _ => mirrors_endTry start catchType)
    fun label frame => .of_mirrors fun _ => mirrors_placeWith label frame

end Compiler

end ClassWeave
