import ClassWeave.Proofs.Script.Guarding

/-!
The exception table of compiled code. Every try statement that is compiled leaves a row for its class, and
nothing that is compiled later takes a row away.
-/

namespace ClassWeave

open Builder Compiler

/-- There is a row for a class, or for everything. -/
def Handler.Lists (handlers : List Handler) (catchType : Option String) : Prop :=
  ∃ handler ∈ handlers, handler.catchType = catchType

theorem Handler.Lists.mono {handlers others : List Handler} {catchType : Option String}
    (h : Lists handlers catchType) (hsub : handlers ⊆ others) : Lists others catchType := by
  obtain ⟨handler, hm, hcatch⟩ := h
  exact ⟨handler, hsub hm, hcatch⟩

namespace Compiler

variable {c c' : Compiler} {u : Unit} {label : Label} {catchType binding : Option String}
  {body handler statements : List Stmt}

theorem handlers_gotoIfReachable (h : gotoIfReachable label c = .ok u c') :
    c'.builder.handlers = c.builder.handlers := by
  unfold gotoIfReachable at h
  rw [isReachable_bind_eq_ok] at h
  split at h
  · obtain ⟨B, hB, rfl⟩ := lift_eq_ok.1 h
    obtain ⟨before, after, D, -, -, jumps, rfl⟩ := pushBranch_eq_ok hB
    rw [append_handlers]
    exact jumps.handlers_eq
  · obtain ⟨-, rfl⟩ := pure_eq_ok.1 h
    rfl

theorem handlers_placeIfReachable (h : placeIfReachable label c = .ok u c') :
    c'.builder.handlers = c.builder.handlers := by
  unfold placeIfReachable at h
  rw [isReachable_bind_eq_ok, isJumpedTo_bind_eq_ok] at h
  split at h
  · obtain ⟨B, hB, rfl⟩ := lift_eq_ok.1 h
    obtain ⟨-, frame, -, rfl⟩ := place_eq_ok hB
    exact placed_handlers _ _ _
  · obtain ⟨-, rfl⟩ := pure_eq_ok.1 h
    rfl

/-- The region of a try statement gets its row when it is closed. -/
theorem lists_of_tryCatch (h : stmt (.tryCatch body catchType binding handler) c = .ok u c') :
    Handler.Lists c'.builder.handlers catchType := by
  rw [stmt] at h
  split at h
  · exact (throw_bind_ne_ok.1 h).elim
  obtain ⟨after, c₁, h₁, h⟩ := bind_eq_ok.1 h
  obtain ⟨start, c₂, h₂, h⟩ := bind_eq_ok.1 h
  obtain ⟨_, c₃, h₃, h⟩ := bind_eq_ok.1 h
  obtain ⟨⟨label, frame⟩, B₄, hB₄, h⟩ := lift_bind_eq_ok.1 h
  obtain ⟨_, c₅, h₅, h⟩ := bind_eq_ok.1 h
  obtain ⟨_, B₆, hB₆, h⟩ := lift_bind_eq_ok.1 h
  obtain ⟨stop, known, -, exited⟩ := exits_of_endTry hB₄
  have hclosed : Handler.Lists B₄.handlers catchType := by
    rw [exited.handlers]
    exact ⟨_, List.mem_cons_self, rfl⟩
  have hplaced : B₆.handlers = B₄.handlers := by
    obtain ⟨-, -, rfl⟩ := placeWith_eq_ok hB₆
    rw [append_handlers]
    exact (require_handlers _ _).trans (handlers_gotoIfReachable h₅)
  -- The code of the handler comes behind the region.
  have behind : ∀ d : Compiler, B₆.handlers <:+ d.builder.handlers →
      (do block handler; placeIfReachable after : Compiling Unit) d = .ok u c' →
      Handler.Lists c'.builder.handlers catchType := by
    intro d hd h
    obtain ⟨_, d', hblock, h⟩ := bind_eq_ok.1 h
    have hhandler := ((emits_block handler).extends_of_nil [] hblock).run.handlers_suffix
    rw [handlers_placeIfReachable h]
    exact (hplaced ▸ hclosed).mono (hd.trans hhandler).subset
  cases binding with
  | none =>
    obtain ⟨_, d, hpop, h⟩ := bind_eq_ok.1 h
    exact behind d (Emits.extends_of_nil [] (.lift .pop) hpop).run.handlers_suffix h
  | some name =>
    cases catchType with
    | none =>
      obtain ⟨_, d, hbind, h⟩ := bind_eq_ok.1 (pure_bind_eq_ok.1 h)
      exact behind d ((emits_bind _ _).extends_of_nil [] hbind).run.handlers_suffix h
    | some caught =>
      obtain ⟨type, d, htype, h⟩ := bind_eq_ok.1 h
      obtain ⟨_, d', hbind, h⟩ := bind_eq_ok.1 h
      have hfirst := ((emits_classType caught).extends_of_nil [] htype).run.handlers_suffix
      have hsecond := ((emits_bind name type).extends_of_nil [] hbind).run.handlers_suffix
      exact behind d' (hfirst.trans hsecond) h

theorem lists_of_block (hm : .tryCatch body catchType binding handler ∈ statements)
    (h : block statements c = .ok u c') : Handler.Lists c'.builder.handlers catchType := by
  induction statements generalizing c with
  | nil => cases hm
  | cons first rest ih =>
    rw [block] at h
    obtain ⟨_, c₁, hfirst, hrest⟩ := bind_eq_ok.1 h
    rcases List.mem_cons.1 hm with rfl | hm
    · have hsuffix := ((emits_block rest).extends_of_nil [] hrest).run.handlers_suffix
      exact (lists_of_tryCatch hfirst).mono hsuffix.subset
    · exact ih hm hrest

end Compiler

namespace PrologueGuard

variable {body handler : List Stmt} {catchType binding : Option String}

/-- The first guard is always compiled, and so its try statements are listed. -/
theorem lists_of_chain {entry : EditFrame} {resume : Label} {guard : Guard} {rest : List Guard} {c c' : Compiler}
    {u : Unit} (hm : .tryCatch body catchType binding handler ∈ guard.tail)
    (known : resume.number < c.builder.labels.allocated) (h : chain entry resume (guard :: rest) c = .ok u c') :
    Handler.Lists c'.builder.handlers catchType := by
  cases rest with
  | nil =>
    obtain ⟨_, c₁, hcond, h⟩ := bind_eq_ok.1 h
    obtain ⟨_, c₂, hblock, hgoto⟩ := bind_eq_ok.1 h
    rw [handlers_gotoIfReachable hgoto]
    exact lists_of_block hm hblock
  | cons second rest =>
    obtain ⟨next, c₁, hnext, h⟩ := bind_eq_ok.1 h
    obtain ⟨hlt, hfresh⟩ := fresh_eq_ok [next, resume] hnext
    obtain ⟨_, c₂, hcond, h⟩ := bind_eq_ok.1 h
    obtain ⟨_, c₃, hblock, h⟩ := bind_eq_ok.1 h
    obtain ⟨_, c₄, hgoto, h⟩ := bind_eq_ok.1 h
    have hlists : Handler.Lists c₄.builder.handlers catchType := by
      rw [handlers_gotoIfReachable hgoto]
      exact lists_of_block hm hblock
    rw [isJumpedTo_bind_eq_ok] at h
    split at h
    · obtain ⟨_, B, hB, h⟩ := lift_bind_eq_ok.1 h
      have tested := (emits_cond false next guard.condition).extends_of_one [next, resume] hlt
        List.mem_cons_self hcond
      have taken := (emits_block guard.tail).extends_of_nil [next, resume] hblock
      have front := (hfresh.trans tested).trans taken
      have gone := (emits_gotoIfReachable resume).extends_of_one [next, resume] (front.allocated_lt known)
        (List.mem_cons_of_mem _ List.mem_cons_self) hgoto
      have hnext₄ := gone.allocated_lt (taken.allocated_lt (tested.allocated_lt hlt))
      obtain ⟨placed, -⟩ := grows_placeWith [resume] hnext₄ hB
      have known' := Nat.lt_of_lt_of_le ((front.trans gone).allocated_lt known) placed.labels
      have later := grows_chain known' h
      exact hlists.mono (placed.handlers.trans later.handlers).subset
    · obtain ⟨-, rfl⟩ := pure_eq_ok.1 h
      exact hlists

theorem lists_of_code {guard : Guard} {rest : List Guard} {old : MethodBody} {code : Fragment}
    {labels : LabelSupply} {pool pool' : ConstantPool} (hm : .tryCatch body catchType binding handler ∈ guard.tail)
    (h : PrologueGuard.code ⟨guard :: rest⟩ old pool = .ok (code, labels) pool') :
    Handler.Lists code.handlers catchType := by
  obtain ⟨resume, opened, chained, builder, built, rfl, rfl⟩ := built_of_code h
  obtain ⟨known, -⟩ := fresh_eq_ok [] built.opens
  have hchained := lists_of_chain hm known built.chains
  have hgrown := grows_chain known built.chains
  obtain ⟨hends, -⟩ := grows_placeWith [resume] (Nat.lt_of_lt_of_le known hgrown.labels) built.ends
  obtain ⟨row, hrow, hcatch⟩ := hchained.mono hends.handlers.subset
  exact ⟨row, List.mem_reverse.2 hrow, hcatch⟩

end PrologueGuard

end ClassWeave
