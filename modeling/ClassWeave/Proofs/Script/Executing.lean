import ClassWeave.Proofs.Script.Ending

/-!
The code of statements runs as the statements do.
-/

namespace ClassWeave

open Evaluating Compiler Builder

variable {M : Machine} {host : Host} {c c₁ c' d d' : Compiler} {u : Unit}

namespace Compiler

theorem allocate_eq_ok {type : FieldType} {slot : UInt16} (h : allocate type c = .ok slot c') :
    slot = c.nextLocal ∧ ∃ next : UInt16, next.toNat = c.nextLocal.toNat + type.width ∧
      c' = { c with nextLocal := next } := by
  unfold allocate at h
  rw [get_bind_eq_ok] at h
  dsimp only at h
  split at h
  · exact (throw_bind_ne_ok.1 h).elim
  · next hle =>
    cases h
    exact ⟨rfl, _, ConstantPool.toNat_ofNat_of_lt (by omega), rfl⟩

/-- A variable gets slots behind those given out before. -/
theorem goes_declare {name : String} {slot : UInt16} {type : FieldType}
    (run : Run c.builder c'.builder) (balanced : Balanced c.builder c'.builder)
    (handlers : c'.builder.handlers = c.builder.handlers)
    (scope : c'.scope = (name, slot, type) :: c.scope) (hslot : c.nextLocal.toNat ≤ slot.toNat)
    (hnext : slot.toNat + type.width ≤ c'.nextLocal.toNat) : Goes c c' := by
  have slots : c'.slots = c.slots ++ [(slot, type)] := by
    unfold Compiler.slots
    rw [scope, List.reverse_cons, List.map_append]
    rfl
  refine ⟨⟨run.nodes_suffix, run.handlers_suffix, run.pool_le, run.shape_eq, scope ▸ List.suffix_cons _ _,
    fun packed => ⟨?_, ?_, ?_, ?_⟩, ?_, ?_, ?_⟩, run, balanced⟩
  · rw [slots, List.pairwise_append]
    refine ⟨packed.ascending, List.pairwise_singleton _ _, fun v hv w hw => ?_⟩
    rw [List.mem_singleton.1 hw]
    exact (packed.below v hv).trans hslot
  · intro v hv
    rw [run.shape_eq]
    rcases List.mem_append.1 (slots ▸ hv) with hv | hv
    · exact packed.above v hv
    · rw [List.mem_singleton.1 hv]
      exact packed.next.trans hslot
  · intro v hv
    rcases List.mem_append.1 (slots ▸ hv) with hv | hv
    · have := packed.below v hv
      omega
    · rw [List.mem_singleton.1 hv]
      exact hnext
  · rw [run.shape_eq]
    have := packed.next
    omega
  · omega
  · intro number v hn hv
    rw [slots, List.getElem?_append_right (by rwa [length_slots])] at hv
    rw [List.mem_singleton.1 (List.mem_of_getElem? hv)]
    exact hslot
  · exact fun handler hm => .inl (handlers ▸ hm)

/-- The slots of the variable declared last. -/
theorem getElem?_slots_length {name : String} {found : UInt16 × FieldType} {rest}
    (h : c.scope = (name, found) :: rest) : c.slots[rest.length]? = some found := by
  unfold Compiler.slots
  rw [h, List.reverse_cons, List.map_append,
    List.getElem?_append_right (by rw [List.length_map, List.length_reverse]), List.length_map,
    List.length_reverse, Nat.sub_self]
  rfl

end Compiler

namespace Host

/-- The code takes a value from the stack and keeps it. -/
structure Saves (M : Machine) (host : Host) (c c' : Compiler) (width : Nat)
    (change : List M.Slot → Store M → Store M) : Prop where
  goes : Goes c c'
  takes : c.builder.Takes [width]
  runs : host.Contains c' → ∀ store (locals : Locals M) values, host.Matches store locals →
    c.builder.Arrives [width] locals.filled → values.length = width → ∀ world, ∃ locals',
      host.program.Reaches ⟨c.position, locals, values, world⟩ ⟨c'.position, locals', [], world⟩ ∧
        host.Matches (change values store) locals' ∧ c'.builder.Arrives [] locals'.filled

/-- Code for statements behind which other names are declared. -/
structure Follows (M : Machine) (host : Host) (c c' : Compiler) (names : Scope)
    (meaning : Nat → Store M → World M → Ending M) : Prop where
  goes : Goes c c'
  names : c'.names = names
  runs : host.Contains c' → ∀ fuel store locals, host.Matches store locals →
    c.builder.Arrives [] locals.filled → ∀ world,
      host.Ends c c' fuel ⟨c.position, locals, [], world⟩ (meaning fuel store world)

section Saving

variable {B : Builder} {slot : UInt16} {type : FieldType} {locals : Locals M} {store : Store M}

theorem saves_store {change : List M.Slot → Store M → Store M}
    (h : Builder.store slot type c.builder = .ok u B)
    (hm : host.Contains { c with builder := B } → ∀ (store : Store M) locals values,
      host.Matches store locals → values.length = type.width →
        host.Matches (change values store) (locals.write slot.toNat values)) :
    Saves M host c { c with builder := B } type.width change where
  goes := (stays_push (by simp) h).goes
  takes := width_kindOf type ▸ takes_store h
  runs contains store locals values hmatches ha hlength world := by
    rw [← width_kindOf] at ha hlength
    obtain ⟨hreaches, ha'⟩ := reaches_store [] world contains h hlength ha
    rw [List.append_nil] at hreaches
    exact ⟨_, hreaches, hm contains store locals values hmatches (hlength.trans (width_kindOf type)), ha'⟩

theorem saves_bind {name : String} (h : Compiler.bind name type c = .ok u c') :
    c'.names = (name, type) :: c.names ∧
      Saves M host c c' type.width fun values store => store.setVariable c.names.length values := by
  obtain ⟨slot, c₁, h₁, h⟩ := bind_eq_ok.1 h
  obtain ⟨w, B, hB, h⟩ := lift_bind_eq_ok.1 h
  obtain ⟨rfl, next, hnext, rfl⟩ := allocate_eq_ok h₁
  replace hB : Builder.store c.nextLocal type c.builder = .ok w B := hB
  cases h
  have stays := stays_push (by simp) hB
  have declares : Goes { c with builder := B } ⟨B, (name, c.nextLocal, type) :: c.scope, next⟩ :=
    goes_declare (.refl _) (.refl _) rfl rfl le_rfl hnext.symm.le
  refine ⟨rfl, stays.goes.trans declares, width_kindOf type ▸ takes_store hB, ?_⟩
  intro contains store locals values hm ha hlength world
  have hslot := contains.getElem?_slots (getElem?_slots_length rfl)
  rw [← length_names] at hslot
  have saves := @saves_store M host c w B c.nextLocal type
    (fun values store => store.setVariable c.names.length values) hB
    fun _ store locals values hm hlength => hm.setVariable hslot hlength
  exact saves.runs (contains.of_goes declares) store locals values hm ha hlength world

end Saving

namespace Follows

variable {names names' : Scope} {first second : Nat → Store M → World M → Ending M}

theorem congr (h : Follows M host c c' names first)
    (heq : ∀ fuel store world, first fuel store world = second fuel store world) :
    Follows M host c c' names second := by
  rw [show second = first from funext fun fuel => funext fun store => funext fun world =>
    (heq fuel store world).symm]
  exact h

theorem nothing (c : Compiler) :
    Follows M host c c c.names fun _ (store : Store M) world => .next store world where
  goes := .refl c
  names := rfl
  runs _ _ _ locals hm ha _ := ⟨locals, .refl _, hm, ha⟩

/-- Statements run one after another. -/
theorem andThen (h : Follows M host c c₁ names first) (h' : Follows M host c₁ c' names' second) :
    Follows M host c c' names' fun fuel store world => (first fuel store world).andThen (second fuel) where
  goes := h.goes.trans h'.goes
  names := h'.names
  runs contains fuel store locals hm ha world := by
    refine (h.runs (contains.of_goes h'.goes) fuel store locals hm ha world).andThen (.refl _) h'.goes
      contains fun store world locals hm ha => ?_
    have hends := h'.runs contains fuel store locals hm ha world
    exact hends.widen h.goes.run

end Follows

section Simple

variable {e : Expr}

/-- The value of an expression is kept. -/
theorem follows_saves {type : Option FieldType} {width : Nat} {change : List M.Slot → Store M → Store M}
    (fine : Fine c.builder) (htype : type.isSome = true) (evaluates : Evaluates M host c c₁ e type)
    (saves : Saves M host c₁ c' width change) :
    Follows M host c c' c'.names fun _ store world =>
      Ending.ofEval (e.eval c.builder.shape c.names store) store world
        fun values world => .next (change values store) world where
  goes := evaluates.2.stays.goes.trans saves.goes
  names := rfl
  runs contains fuel store locals hm ha world := by
    obtain ⟨type, rfl⟩ := Option.isSome_iff_exists.1 htype
    have computes := evaluates.value.2.retake saves.takes rfl
    refine .ofEval (.refl _) computes.stays saves.goes fine contains hm ha
      (computes.runs (contains.of_goes saves.goes) store locals hm ha [] [] world rfl)
      fun values position stack world' hgoal => ?_
    obtain ⟨rfl, rfl, hlength⟩ := hgoal
    rw [List.append_nil]
    exact saves.runs contains store locals values hm (computes.arrives [] _ ha) hlength world'

theorem follows_eval (fine : Fine c.builder) (h : stmt (.eval e) c = .ok u c') :
    Follows M host c c' c.names (Stmt.exec c.builder.shape · c.names (.eval e)) := by
  rw [stmt] at h
  obtain ⟨type, c₁, h₁, h⟩ := bind_eq_ok.1 h
  have evaluates := evaluates_expr M host e h₁
  cases type with
  | none =>
    obtain ⟨-, rfl⟩ := pure_eq_ok.1 h
    refine ⟨evaluates.2.stays.goes, evaluates.2.stays.names,
      fun contains fuel store locals hm ha world => ?_⟩
    rw [Stmt.exec]
    refine .ofEval (.refl _) evaluates.2.stays (.refl _) fine contains hm ha
      (evaluates.2.runs contains store locals hm ha [] [] world rfl)
      fun values position stack world' hgoal => ?_
    obtain ⟨rfl, rfl, hlength⟩ := hgoal
    rw [List.length_eq_zero_iff.1 hlength]
    exact ⟨locals, .refl _, hm, evaluates.2.arrives [] _ ha⟩
  | some type =>
    obtain ⟨B, hB, rfl⟩ := lift_eq_ok.1 h
    obtain ⟨op, hpush, hpop⟩ := pop_eq_ok hB
    obtain ⟨-, computes⟩ := evaluates.value
    have behind := stays_push (by simp) hpush
    refine ⟨(computes.stays.trans behind).goes, (computes.stays.trans behind).names,
      fun contains fuel store locals hm ha world => ?_⟩
    rw [Stmt.exec]
    refine .ofEval (.refl _) computes.stays behind.goes fine contains hm ha
      (computes.runs (contains.of_goes behind.goes) store locals hm ha [] [] world rfl)
      fun values position stack world' hgoal => ?_
    obtain ⟨rfl, rfl, hlength⟩ := hgoal
    obtain ⟨ha', hrearrange⟩ := hpop _ _ (computes.arrives [] _ ha)
    have hrun := hrearrange values [] (hlength.trans (Nat.add_zero _))
    exact ⟨locals, reaches_insn contains (by simp) hpush (by rw [Insn.run, hrun]), hm, ha'⟩

theorem follows_declare {name descriptor : String} (fine : Fine c.builder)
    (h : stmt (.declare name descriptor e) c = .ok u c') :
    Follows M host c c' (Stmt.namesAfter c.builder.shape c.names (.declare name descriptor e))
      (Stmt.exec c.builder.shape · c.names (.declare name descriptor e)) := by
  rw [stmt] at h
  obtain ⟨type, c₁, h₁, hnext⟩ := bind_eq_ok.1 h
  obtain ⟨htype, rfl⟩ := fieldType_eq_ok h₁
  obtain ⟨found, c₂, h₂, hbind⟩ := value_bind_eq_ok hnext
  have evaluates := evaluates_expr M host e h₂
  obtain ⟨names, saves⟩ := @saves_bind M host c₂ c' u type name hbind
  rw [evaluates.2.stays.names] at names saves
  have follows := follows_saves fine rfl evaluates saves
  refine ⟨follows.goes, ?_, fun contains fuel store locals hm ha world => ?_⟩
  · rw [names, Stmt.namesAfter, htype]
    rfl
  · rw [Stmt.exec]
    exact follows.runs contains fuel store locals hm ha world

theorem follows_assign {name : String} (fine : Fine c.builder)
    (h : stmt (.assign name e) c = .ok u c') :
    Follows M host c c' c.names (Stmt.exec c.builder.shape · c.names (.assign name e)) := by
  rw [stmt] at h
  obtain ⟨found, c₁, h₁, hnext⟩ := bind_eq_ok.1 h
  obtain ⟨rfl, number, hfind, hslot⟩ := lookUp_eq_ok h₁
  obtain ⟨type, c₂, h₂, hlast⟩ := value_bind_eq_ok hnext
  have evaluates := evaluates_expr M host e h₂
  obtain ⟨B, hB, rfl⟩ := lift_eq_ok.1 hlast
  have saves := @saves_store M host c₂ u B found.1 found.2
    (fun values store => store.setVariable number values) hB
    fun contains store locals values hm hlength => hm.setVariable
      (contains.getElem?_slots (evaluates.2.stays.slots ▸ hslot)) hlength
  have follows := follows_saves fine rfl evaluates saves
  refine ⟨follows.goes, evaluates.2.stays.names, fun contains fuel store locals hm ha world => ?_⟩
  rw [Stmt.exec, hfind]
  exact follows.runs contains fuel store locals hm ha world

theorem follows_setArgument {index : Nat} (fine : Fine c.builder)
    (h : stmt (.setArgument index e) c = .ok u c') :
    Follows M host c c' c.names (Stmt.exec c.builder.shape · c.names (.setArgument index e)) := by
  rw [stmt] at h
  obtain ⟨found, c₁, h₁, hnext⟩ := bind_eq_ok.1 h
  obtain ⟨hslot, rfl⟩ := argument_eq_ok h₁
  obtain ⟨type, c₂, h₂, hlast⟩ := value_bind_eq_ok hnext
  have evaluates := evaluates_expr M host e h₂
  obtain ⟨B, hB, rfl⟩ := lift_eq_ok.1 hlast
  replace hB : Builder.store found.1 found.2 c₂.builder = .ok u B := hB
  have shape := (evaluates.2.stays.trans (stays_push (by simp) hB)).run.shape_eq
  have saves := @saves_store M host c₂ u B found.1 found.2
    (fun values store => store.setArgument index values) hB
    fun contains store locals values hm hlength =>
      hm.setArgument (contains.shape.symm.trans shape ▸ hslot) hlength
  have follows := follows_saves fine rfl evaluates saves
  refine ⟨follows.goes, evaluates.2.stays.names, fun contains fuel store locals hm ha world => ?_⟩
  rw [Stmt.exec]
  exact follows.runs contains fuel store locals hm ha world

theorem follows_increment {name : String} {amount : Int16}
    (h : stmt (.increment name amount) c = .ok u c') :
    Follows M host c c' c.names (Stmt.exec c.builder.shape · c.names (.increment name amount)) := by
  rw [stmt] at h
  obtain ⟨⟨slot, type⟩, c₁, h₁, hnext⟩ := bind_eq_ok.1 h
  obtain ⟨rfl, number, hfind, hslot⟩ := lookUp_eq_ok h₁
  dsimp only at hnext
  split at hnext
  · exact (throw_bind_ne_ok.1 hnext).elim
  · next hkind =>
    obtain ⟨B, hB, rfl⟩ := lift_eq_ok.1 hnext
    have stays := stays_push (by simp) hB
    refine ⟨stays.goes, stays.names, fun contains fuel store locals hm ha world => ?_⟩
    obtain ⟨value, hvalue⟩ := exists_increment hB ha
    have hslot := contains.getElem?_slots (stays.slots ▸ hslot)
    have hwidth : type.width = 1 := by
      rw [← width_kindOf, not_not.1 hkind]
      rfl
    have hbinding : store.bindings number = some [value] := by
      rw [← hm.bindings number slot type hslot, hwidth, Locals.read_one, hvalue]
      rfl
    obtain ⟨hreaches, ha'⟩ := reaches_increment [] world contains hB hvalue ha
    rw [Stmt.exec, hfind]
    dsimp only
    rw [hbinding]
    exact ⟨_, hreaches, hm.setVariable hslot hwidth.symm, ha'⟩

theorem follows_leave {result : Option Expr} (fine : Fine c.builder)
    (h : stmt (.leave result) c = .ok u c') :
    Follows M host c c' c.names (Stmt.exec c.builder.shape · c.names (.leave result)) := by
  rw [stmt] at h
  unfold Compiler.leave at h
  rw [shape_bind_eq_ok] at h
  cases result with
  | none =>
    dsimp only at h
    split at h
    · exact (throw_bind_ne_ok.1 h).elim
    · next hnone =>
      obtain ⟨B, hB, rfl⟩ := lift_eq_ok.1 h
      replace hB : pushBranch (.returnFor c.builder.shape.returnType) c.builder = .ok u B := hB
      rw [Option.not_isSome_iff_eq_none.1 hnone] at hB
      have stays := stays_pushBranch (List.forall_mem_nil _) rfl hB
      refine ⟨stays.goes, stays.names, fun contains fuel store locals hm ha world => ?_⟩
      rw [Stmt.exec]
      refine ⟨1, Program.after_one.trans ?_⟩
      rw [Program.step, contains.move_branch (nodes_pushBranch hB)]
      rfl
  | some e =>
    obtain ⟨found, c₁, h₁, hnext⟩ := bind_eq_ok.1 h
    dsimp only at hnext
    split at hnext
    · exact (throw_bind_ne_ok.1 hnext).elim
    · next hkind =>
      obtain ⟨B, hB, rfl⟩ := lift_eq_ok.1 hnext
      have evaluates := evaluates_expr M host e (value_eq_ok h₁)
      obtain ⟨-, computes⟩ := evaluates.value
      replace hB : pushBranch (.returnFor c₁.builder.shape.returnType) c₁.builder = .ok u B := hB
      unfold Branch.returnFor at hB
      rw [computes.stays.run.shape_eq, not_not.1 hkind] at hB
      have stays := stays_pushBranch (List.forall_mem_nil _) rfl hB
      refine ⟨(computes.stays.trans stays).goes, (computes.stays.trans stays).names,
        fun contains fuel store locals hm ha world => ?_⟩
      rw [Stmt.exec]
      refine .ofEval (.refl _) computes.stays stays.goes fine contains hm ha
        (computes.runs (contains.of_goes stays.goes) store locals hm ha [] [] world rfl)
        fun values position stack world' hgoal => ?_
      obtain ⟨rfl, rfl, hlength⟩ := hgoal
      replace hlength : values.length = (SlotKind.ofFieldType found).width :=
        hlength.trans (width_kindOf found).symm
      refine ⟨1, Program.after_one.trans ?_⟩
      rw [Program.step, contains.move_branch (nodes_pushBranch hB), Branch.run,
        if_pos (by rw [List.length_append]; omega), List.take_left' hlength]

end Simple

/-- The code of any block of the statements follows them. -/
def FollowsAll (M : Machine) (host : Host) (statements : List Stmt) : Prop :=
  ∀ {c c' : Compiler} {u : Unit}, Fine c.builder → c.Packed → block statements c = .ok u c' →
    Follows M host c c' (Stmt.namesAfterAll c.builder.shape c.names statements)
      (Stmt.execAll c.builder.shape · c.names statements)

section Control

variable {condition : Cond}

/-- Behind its code a test has succeeded; where it has not, control is at the label. -/
theorem Tests.ends {meaning : Store M → Evaluating M Bool} {label : Label} {steps : Nat} {store : Store M}
    {locals : Locals M} {world : World M} {next : Bool → World M → Ending M}
    (tests : Tests M host d d' false label [] meaning) (ahead : Run c.builder d.builder)
    (behind : Goes d' c') (fine : Fine d.builder) (contains : host.Contains c')
    (hm : host.Matches store locals) (ha : d.builder.Arrives [] locals.filled)
    (hnext : ∀ world, d'.builder.Arrives [] locals.filled →
      host.Ends c c' steps ⟨d'.position, locals, [], world⟩ (next true world))
    (hlabel : ∀ position world, host.Gets d' (some label) locals.filled position →
      host.Ends c c' steps ⟨position, locals, [], world⟩ (next false world)) :
    host.Ends c c' steps ⟨d.position, locals, [], world⟩
      (Ending.ofEval (meaning store) store world next) := by
  refine .ofEval ahead tests.stays behind fine contains hm ha
    (tests.runs (contains.of_goes behind) store locals hm ha [] world) fun holds position stack world' hgoal => ?_
  obtain ⟨rfl, hgoal⟩ := hgoal
  cases holds with
  | true =>
    obtain ⟨label?, hnone, hg⟩ := hgoal
    cases label? with
    | some label => exact absurd (hnone label rfl) List.not_mem_nil
    | none =>
      obtain ⟨rfl, ha'⟩ := hg
      exact hnext world' ha'
  | false => exact hlabel position world' hgoal

theorem follows_branch {whenTrue whenFalse : List Stmt} (positive : FollowsAll M host whenTrue)
    (negative : FollowsAll M host whenFalse) (fine : Fine c.builder) (packed : c.Packed)
    (h : stmt (.branch condition whenTrue whenFalse) c = .ok u c') :
    Follows M host c c' (Stmt.namesAfter c.builder.shape c.names (.branch condition whenTrue whenFalse))
      (Stmt.exec c.builder.shape · c.names (.branch condition whenTrue whenFalse)) := by
  rw [stmt] at h
  obtain ⟨otherwise, c₁, h₁, h⟩ := bind_eq_ok.1 h
  obtain ⟨_, c₂, h₂, h⟩ := bind_eq_ok.1 h
  obtain ⟨_, c₃, h₃, h⟩ := bind_eq_ok.1 h
  obtain ⟨made, known, hframe, hposition⟩ := stays_fresh h₁
  have fine₁ := made.run.fine fine
  have tests := tests_cond M host condition fine₁ known h₂
  have front := made.trans tests.stays
  have fine₂ := front.run.fine fine
  have one := positive fine₂ (front.packed packed) h₃
  have fine₃ := one.goes.run.fine fine₂
  have known₃ := (known.trans_le tests.stays.run.allocated_le).trans_le one.goes.run.allocated_le
  rw [made.run.shape_eq, made.names] at tests
  rw [front.run.shape_eq, front.names] at one
  split at h
  · next hempty =>
    have behind := stays_placeIfReachable known₃ h
    refine ⟨(front.goes.trans one.goes).trans behind.goes, ?_, fun contains fuel store locals hm ha world => ?_⟩
    · rw [behind.names, one.names, Stmt.namesAfter, List.isEmpty_iff.1 hempty, Stmt.namesAfterAll]
    rw [Stmt.exec, ← hposition]
    refine tests.ends made.run (one.goes.trans behind.goes) fine₁ contains hm (ha.of_eq hframe)
      (fun world' ha₂ => ?_) fun position world' hg => ?_
    · have hends := one.runs (contains.of_goes behind.goes) fuel store locals hm ha₂ world'
      exact hends.onward front.run behind.goes contains fun store world locals hm ha₃ =>
        .place_of_arrives contains h hm ha₃
    · rw [List.isEmpty_iff.1 hempty]
      exact .place_of_gets contains h hm (hg.later (one.goes.run.later fine₂))
  · obtain ⟨done, c₄, h₄, h⟩ := bind_eq_ok.1 h
    obtain ⟨_, c₅, h₅, h⟩ := bind_eq_ok.1 h
    obtain ⟨_, c₆, h₆, h⟩ := bind_eq_ok.1 h
    obtain ⟨_, c₇, h₇, h⟩ := bind_eq_ok.1 h
    obtain ⟨made', known', hframe', hposition'⟩ := stays_fresh h₄
    have gone := stays_gotoIfReachable known' h₅
    have known₅ := (known₃.trans_le made'.run.allocated_le).trans_le gone.run.allocated_le
    have placed := stays_placeIfReachable known₅ h₆
    have between := (made'.trans gone).trans placed
    have fine₄ := made'.run.fine fine₃
    have fine₅ := gone.run.fine fine₄
    have fine₆ := placed.run.fine fine₅
    have other := negative fine₆ (between.packed (one.goes.packed (front.packed packed))) h₇
    have known₇ := ((known'.trans_le gone.run.allocated_le).trans_le placed.run.allocated_le).trans_le
      other.goes.run.allocated_le
    have behind := stays_placeIfReachable known₇ h
    have fine₇ := other.goes.run.fine fine₆
    rw [between.run.shape_eq, between.names, one.names, one.goes.run.shape_eq, front.run.shape_eq] at other
    refine ⟨(((front.goes.trans one.goes).trans between.goes).trans other.goes).trans behind.goes, ?_,
      fun contains fuel store locals hm ha world => ?_⟩
    · rw [behind.names, other.names, Stmt.namesAfter]
    have contains₇ := contains.of_goes behind.goes
    have contains₆ := contains₇.of_goes other.goes
    have contains₅ := contains₆.of_goes placed.goes
    have contains₃ := contains₅.of_goes (made'.trans gone).goes
    rw [Stmt.exec, ← hposition]
    refine tests.ends made.run (((one.goes.trans between.goes).trans other.goes).trans behind.goes) fine₁
      contains hm (ha.of_eq hframe) (fun world' ha₂ => ?_) fun position world' hg => ?_
    · have hends := one.runs contains₃ fuel store locals hm ha₂ world'
      refine hends.onward front.run ((between.goes.trans other.goes).trans behind.goes) contains
        fun store world locals hm ha₃ => ?_
      rw [← hposition']
      obtain ⟨position, hreaches, hg⟩ := reaches_goto contains₅ h₅ (ha₃.of_eq hframe')
      have hg := (hg.later (placed.run.later fine₅)).later (other.goes.run.later fine₆)
      exact .after hreaches (.place_of_gets contains h hm hg)
    · have hg := (hg.later (one.goes.run.later fine₂)).later ((made'.trans gone).run.later fine₃)
      obtain ⟨hreaches, ha₆⟩ := reaches_placeIfReachable contains₆ h₆
        (fun l hl => (Option.some.inj hl).symm) hg
      have hends := other.runs contains₇ fuel store locals hm ha₆ world'
      refine .after hreaches (hends.onward ((front.run.trans one.goes.run).trans between.run) behind.goes
        contains fun store world locals hm ha₇ => .place_of_arrives contains h hm ha₇)

theorem follows_loop {body : List Stmt} (follows : FollowsAll M host body) (fine : Fine c.builder)
    (packed : c.Packed) (h : stmt (.loop condition body) c = .ok u c') :
    Follows M host c c' (Stmt.namesAfter c.builder.shape c.names (.loop condition body))
      (Stmt.exec c.builder.shape · c.names (.loop condition body)) := by
  rw [stmt] at h
  obtain ⟨head, c₁, h₁, h⟩ := bind_eq_ok.1 h
  obtain ⟨exit, c₂, h₂, h⟩ := bind_eq_ok.1 h
  obtain ⟨_, B, hB, h⟩ := lift_bind_eq_ok.1 h
  obtain ⟨_, c₄, h₄, h⟩ := bind_eq_ok.1 h
  obtain ⟨_, c₅, h₅, h⟩ := bind_eq_ok.1 h
  obtain ⟨_, c₆, h₆, hlast⟩ := bind_eq_ok.1 h
  obtain ⟨made₁, hhead, hframe₁, hposition₁⟩ := stays_fresh h₁
  obtain ⟨made₂, hexit, hframe₂, hposition₂⟩ := stays_fresh h₂
  have hhead₂ := hhead.trans_le made₂.run.allocated_le
  have placed := stays_place hhead₂ hB
  have made := made₁.trans made₂
  have front := made.trans placed
  have fine₃ := front.run.fine fine
  have hexit₃ := hexit.trans_le placed.run.allocated_le
  have tests := tests_cond M host condition fine₃ hexit₃ h₄
  have fine₄ := tests.stays.run.fine fine₃
  have ran := follows fine₄ ((front.trans tests.stays).packed packed) h₅
  have fine₅ := ran.goes.run.fine fine₄
  have within := tests.stays.run.trans ran.goes.run
  have gone := stays_gotoIfReachable
    ((hhead₂.trans_le placed.run.allocated_le).trans_le within.allocated_le) h₆
  have fine₆ := gone.run.fine fine₅
  have behind := stays_placeIfReachable
    ((hexit₃.trans_le within.allocated_le).trans_le gone.run.allocated_le) hlast
  rw [front.run.shape_eq, front.names] at tests
  rw [(front.trans tests.stays).run.shape_eq, (front.trans tests.stays).names] at ran
  have rest := ran.goes.trans (gone.goes.trans behind.goes)
  refine ⟨(front.trans tests.stays).goes.trans rest, ?_, fun contains fuel store locals hm ha world => ?_⟩
  · rw [behind.names, gone.names, ran.names, Stmt.namesAfter]
  have contains₆ := contains.of_goes behind.goes
  have contains₅ := contains₆.of_goes gone.goes
  have contains₃ := contains.of_goes (tests.stays.goes.trans rest)
  obtain ⟨hnodes, new⟩ := nodes_place hB
  have hstart := contains₃.position?_label hnodes new
  -- Whenever control is in front of the loop, the rounds still allowed are made from there.
  have rounds : ∀ k ≤ fuel, ∀ (store : Store M) (locals : Locals M) world, host.Matches store locals →
      B.Arrives [] locals.filled → host.Ends c c' k ⟨c₂.position, locals, [], world⟩
        (Ending.loop (fun store => condition.holds c.builder.shape c.names store)
          (Stmt.execAll c.builder.shape fuel c.names body) k store world) := by
    intro k
    induction k with
    | zero => exact fun _ _ _ world _ _ => ⟨0, _, le_rfl, rfl, rfl⟩
    | succ k ih =>
      intro hk store locals world hm ha₃
      have hstep := @Contains.step_label M host c₂ _ head contains₃ locals [] world hnodes
      rw [Ending.loop, Nat.add_comm k 1]
      refine .after_succ (Program.after_one.trans hstep) ?_
      refine tests.ends front.run rest fine₃ contains hm ha₃ (fun world' ha₄ => ?_) fun position world' hg => ?_
      · have hends := (ran.runs contains₅ fuel store locals hm ha₄ world').mono (Nat.le_of_succ_le hk)
        refine hends.andThen (front.trans tests.stays).run (gone.goes.trans behind.goes) contains
          fun store world locals hm ha₅ => ?_
        obtain ⟨position, hreaches, hposition, hl⟩ := reaches_goto contains₆ h₆ ha₅
        cases hposition.symm.trans hstart
        exact .after hreaches (ih (Nat.le_of_succ_le hk) store locals world hm
          (arrives_again hB ((within.trans gone.run).later fine₃) hl))
      · exact .place_of_gets contains hlast hm
          ((hg.later (ran.goes.run.later fine₄)).later (gone.run.later fine₅))
  rw [Stmt.exec_loop, ← hposition₁, ← hposition₂]
  refine rounds fuel le_rfl store locals world hm (arrives_of_place hB ?_)
  exact ha.of_eq (hframe₂.trans hframe₁)

end Control

section Catching

variable {start stop label : Label} {catchType : Option String} {known : List EditType}

/-- Code in a region of its own. -/
theorem goes_region (entered : Enters c.builder start d.builder) (inside : Goes d d')
    (exited : Exits d'.builder start stop label catchType known c'.builder)
    (run : Run d'.builder c'.builder) (scope : d.scope = c.scope) (nextLocal : d.nextLocal = c.nextLocal)
    (scope' : c'.scope = d'.scope) (nextLocal' : c'.nextLocal = d'.nextLocal) : Goes c c' where
  nodes := ((entered.run.trans inside.run).trans run).nodes_suffix
  handlers := ((entered.run.trans inside.run).trans run).handlers_suffix
  pool := ((entered.run.trans inside.run).trans run).pool_le
  shape := ((entered.run.trans inside.run).trans run).shape_eq
  run := (entered.run.trans inside.run).trans run
  balanced := by
    obtain ⟨first, outer, hregions, hfirst⟩ := entered.regions
    have hinside := inside.balanced
    have hlast := exited.regions
    unfold Builder.Balanced at hinside
    rw [hregions] at hinside
    cases hd : d'.builder.regions with
    | nil =>
      rw [hd] at hlast
      cases hlast
    | cons middle between =>
      rw [hd] at hinside hlast
      cases hinside with
      | cons _ hinside =>
      cases hlast with
      | cons _ hlast =>
      have outside : Balanced c.builder { d.builder with regions := outer } := hfirst
      have within : Balanced { d.builder with regions := outer } { d'.builder with regions := between } :=
        hinside
      exact (outside.trans within).trans hlast
  scope := by
    rw [scope', ← scope]
    exact inside.scope
  packed packed :=
    (inside.packed (packed.congr scope nextLocal entered.run.shape_eq)).congr scope' nextLocal' run.shape_eq
  nextLocal := by
    rw [nextLocal', ← nextLocal]
    exact inside.nextLocal
  fresh number v hn hv := by
    rw [← nextLocal]
    rw [Compiler.slots, scope'] at hv
    exact inside.fresh number v (scope ▸ hn) hv
  inner handler hm := by
    rw [exited.handlers] at hm
    rcases List.mem_cons.1 hm with rfl | hm
    · exact .inr entered.ahead
    · rcases inside.inner handler hm with hm | hnew
      · exact .inl (entered.handlers ▸ hm)
      · refine .inr (Bool.eq_false_iff.2 fun hp => ?_)
        rw [entered.run.isPlaced hp] at hnew
        cases hnew

section Region

variable (contains : host.Contains c') (entered : Enters c.builder start d.builder)
  (run : Run d.builder d'.builder) (exited : Exits d'.builder start stop label catchType known c'.builder)
include contains entered run exited

/-- The region is the code between its labels. -/
theorem covers_region {position : Nat} (hge : d.position ≤ position) (hlt : position < d'.position) :
    host.program.covers ⟨start, stop, label, catchType⟩ position = true := by
  obtain ⟨later, hlater⟩ := run.nodes_suffix
  have hstart : host.program.position? start = some c.position := by
    refine @Contains.position?_eq host c' start contains (.label stop :: later) c.builder.nodes ?_ ?_
    · rw [exited.nodes, ← hlater, entered.nodes]
      rfl
    · rw [← isPlaced_iff, entered.ahead]
      exact nofun
  have hstop : host.program.position? stop = some d'.position := by
    refine contains.position?_label exited.nodes ?_
    rw [← isPlaced_iff, exited.ahead]
    exact nofun
  have hposition : c.position ≤ d.position := position_le entered.run
  unfold Program.covers
  rw [hstart, hstop]
  exact Bool.and_eq_true_iff.2 ⟨decide_eq_true (hposition.trans hge), decide_eq_true hlt⟩

variable {exception : M.Slot} {store : Store M} {world : World M} {s : State M}
  (raises : host.Raises d d' exception store world s)
include raises

/-- The handler of the region is the first that may catch what is thrown there. -/
theorem handlerFor?_region (caught : M.catches catchType exception world = true) :
    host.program.handlerFor? s.position exception world = some ⟨start, stop, label, catchType⟩ := by
  obtain ⟨rest, hrest⟩ := contains.handlers
  have hinner : d'.builder.handlers.reverse.find? (fun handler =>
      host.program.covers handler s.position && M.catches handler.catchType exception world) = none := by
    refine List.find?_eq_none.2 fun handler hm hc => ?_
    obtain ⟨hcovers, hcatches⟩ := Bool.and_eq_true_iff.1 hc
    rw [raises.uncaught handler (List.mem_reverse.1 hm) hcovers] at hcatches
    cases hcatches
  unfold Program.handlerFor?
  rw [← hrest, exited.handlers, List.reverse_cons, List.append_assoc, List.find?_append, hinner,
    Option.none_or, List.singleton_append, List.find?_cons, covers_region contains entered run exited
      raises.ge raises.lt, caught]
  rfl

/-- An exception that the handler of the region catches gets to it. -/
theorem reaches_handler {position : Nat} (caught : M.catches catchType exception world = true)
    (hposition : host.program.position? label = some position) :
    host.program.Reaches s ⟨position, s.locals, [exception], world⟩ := by
  refine .step ?_
  rw [Program.step, raises.move]
  dsimp only
  rw [handlerFor?_region contains entered run exited raises caught]
  dsimp only
  rw [hposition]

omit contains run in
/-- An exception that the handler of the region does not catch leaves it. -/
theorem raises_region (uncaught : M.catches catchType exception world = false) :
    host.Raises c c' exception store world s where
  move := raises.move
  ge := (position_le entered.run).trans raises.ge
  lt := by
    have hposition : c'.position = d'.position + 1 := by rw [position, exited.nodes]; rfl
    have := raises.lt
    omega
  store := raises.store
  kept := by
    intro outer hm
    obtain ⟨before, hb, hsub⟩ := exists_left_of_mem exited.regions (List.mem_cons_of_mem known hm)
    exact hsub.trans (raises.kept before hb)
  uncaught handler hm hc := by
    rw [exited.handlers] at hm
    rcases List.mem_cons.1 hm with rfl | hm
    · exact uncaught
    · exact raises.uncaught handler hm hc

end Region

/-- What a handler does with the exception: it drops it, or keeps it under a name. -/
theorem saves_caught {binding : Option String} {next : Compiling Unit} {frame : EditFrame}
    (hf : c.builder.frame = some frame) (hw : frame.widths = [1])
    (h : (match binding with
      | none => liftM Builder.pop >>= fun _ => next
      | some name => (match catchType with
        | some caught => classType caught
        | none => pure (.object .throwable)) >>= fun type => Compiler.bind name type >>= fun _ => next) c =
      .ok u c') :
    ∃ c₁, next c₁ = .ok u c' ∧ c₁.names = c.names.catching catchType binding ∧
      Saves M host c c₁ 1 fun values store =>
        if binding.isSome then store.setVariable c.names.length values else store := by
  have takes : c.builder.Takes [1] := fun found hfound => by
    cases hf.symm.trans hfound
    exact ⟨[], hw⟩
  cases binding with
  | none =>
    obtain ⟨_, B, hB, hnext⟩ := lift_bind_eq_ok.1 h
    obtain ⟨op, hpush, hpop⟩ := pop_eq_ok hB
    have stays := stays_push (by simp) hpush
    refine ⟨_, hnext, stays.names, stays.goes, takes, ?_⟩
    intro contains store locals values hm ha hlength world
    obtain ⟨ha', hrearrange⟩ := hpop 1 locals.filled ha
    have hrun := hrearrange values [] hlength
    rw [List.append_nil] at hrun
    exact ⟨locals, reaches_insn contains (by simp) hpush (by rw [Insn.run, hrun]), hm, ha'⟩
  | some name =>
    obtain ⟨type, c₁, h₁, hnext⟩ := bind_eq_ok.1 h
    obtain ⟨_, c₂, h₂, hlast⟩ := bind_eq_ok.1 hnext
    have htype : c₁ = c ∧ c.names.catching catchType (some name) = (name, type) :: c.names := by
      cases catchType with
      | none =>
        obtain ⟨rfl, rfl⟩ := pure_eq_ok.1 h₁
        exact ⟨rfl, rfl⟩
      | some caught =>
        obtain ⟨htype, rfl⟩ := classType_eq_ok h₁
        refine ⟨rfl, ?_⟩
        unfold Scope.catching
        dsimp only
        rw [htype]
        rfl
    obtain ⟨rfl, htype⟩ := htype
    obtain ⟨names, saves⟩ := @saves_bind M host c₁ c₂ _ type name h₂
    refine ⟨c₂, hlast, names.trans htype.symm, ?_⟩
    · obtain ⟨rest, hrest⟩ := saves.takes frame hf
      rw [hw] at hrest
      rw [(List.cons.inj hrest).1]
      exact saves

theorem follows_tryCatch {body handler : List Stmt} {binding : Option String}
    (follows : FollowsAll M host body) (handles : FollowsAll M host handler) (fine : Fine c.builder)
    (packed : c.Packed) (h : stmt (.tryCatch body catchType binding handler) c = .ok u c') :
    Follows M host c c' (Stmt.namesAfter c.builder.shape c.names (.tryCatch body catchType binding handler))
      (Stmt.exec c.builder.shape · c.names (.tryCatch body catchType binding handler)) := by
  rw [stmt] at h
  split at h
  · exact (throw_bind_ne_ok.1 h).elim
  obtain ⟨after, c₁, h₁, h⟩ := bind_eq_ok.1 h
  obtain ⟨start, B₂, hB₂, h⟩ := lift_bind_eq_ok.1 h
  obtain ⟨_, c₃, h₃, h⟩ := bind_eq_ok.1 h
  obtain ⟨⟨label, frame⟩, B₄, hB₄, h⟩ := lift_bind_eq_ok.1 h
  obtain ⟨_, c₅, h₅, h⟩ := bind_eq_ok.1 h
  obtain ⟨_, B₆, hB₆, h⟩ := lift_bind_eq_ok.1 h
  obtain ⟨made, hafter, hframe, hposition⟩ := stays_fresh h₁
  have entered := enters_of_beginTry hB₂
  have started := (extends_beginTry [] hB₂).2
  have fine₁ := made.run.fine fine
  have fine₂ := entered.run.fine fine₁
  have packed₁ := made.packed packed
  have ran := follows (c := { c₁ with builder := B₂ }) fine₂
    (packed₁.congr rfl rfl entered.run.shape_eq) h₃
  obtain ⟨closed, hjumped, hlabel, hnew⟩ := extends_endTry [] (ran.goes.run.isPlaced started) hB₄
  obtain ⟨stop, known, rfl, exited⟩ := exits_of_endTry hB₄
  have region : Goes c₁ { c₃ with builder := B₄ } := goes_region entered ran.goes exited closed.run rfl rfl rfl rfl
  have hafter₂ := hafter.trans_le (entered.run.trans ran.goes.run).allocated_le
  have hafter₄ := hafter₂.trans_le closed.run.allocated_le
  have gone := stays_gotoIfReachable (c := { c₃ with builder := B₄ }) hafter₄ h₅
  obtain ⟨unreachable, kept⟩ := gotoIfReachable_eq_ok h₅
  have hne : label ≠ after := fun he => Nat.lt_irrefl _ (hafter₂.trans_le (he ▸ hnew))
  replace hjumped := (kept label hne).trans hjumped
  obtain ⟨ahead, rfl⟩ := place_of_placeWith unreachable hB₆
  have hlabel₅ := hlabel.trans_le gone.run.allocated_le
  have arrives : c₅.builder.arrival? label = some ⟨known, [caughtType catchType]⟩ := by
    unfold arrival?
    rw [unreachable, hjumped]
  have handled := stays_placed hlabel₅ ahead arrives
  obtain ⟨c₇, hlast, names₇, saves⟩ := @saves_caught M host
    { c₅ with builder := c₅.builder.placed label ⟨known, [caughtType catchType]⟩ } c' u catchType binding
    (do block handler; placeIfReachable after) _ (placed_frame _ _ _) rfl (by
      cases binding with
      | none => exact h
      | some name => cases catchType <;> exact h)
  obtain ⟨_, c₈, h₈, hend⟩ := bind_eq_ok.1 hlast
  have front := (((made.goes.trans region).trans gone.goes).trans handled.goes).trans saves.goes
  have caught := handles (front.run.fine fine) (front.packed packed) h₈
  have hafter₈ := ((hafter₄.trans_le gone.run.allocated_le).trans_le
    (handled.run.trans saves.goes.run).allocated_le).trans_le caught.goes.run.allocated_le
  have behind := stays_placeIfReachable hafter₈ hend
  have shape₂ : B₂.shape = c.builder.shape := entered.run.shape_eq.trans made.run.shape_eq
  rw [show B₂.shape = c.builder.shape from shape₂,
    show ({ c₁ with builder := B₂ } : Compiler).names = c.names from made.names] at ran
  have names₆ : c₅.names = Stmt.namesAfterAll c.builder.shape c.names body := gone.names.trans ran.names
  rw [front.run.shape_eq, names₇, show ({ c₅ with
    builder := c₅.builder.placed label ⟨known, [caughtType catchType]⟩ } : Compiler).names = c₅.names from rfl,
    names₆] at caught
  have rest := (gone.goes.trans (handled.goes.trans (saves.goes.trans (caught.goes.trans behind.goes))))
  refine ⟨(front.trans caught.goes).trans behind.goes, behind.names.trans caught.names,
    fun contains fuel store locals hm ha world => ?_⟩
  have contains₈ := contains.of_goes behind.goes
  have contains₇ := contains₈.of_goes caught.goes
  have contains₆ := contains₇.of_goes saves.goes
  have contains₅ := contains₆.of_goes handled.goes
  have contains₄ := contains₅.of_goes gone.goes
  have contains₃ := contains₄.of_run closed.run
  have contains₂ := contains₃.of_goes ran.goes
  have hends := ran.runs contains₃ fuel store locals hm (entered.arrives (ha.of_eq hframe)) world
  have fine₅ := ((closed.run.trans gone.run).fine (ran.goes.run.fine fine₂))
  rw [Stmt.exec_tryCatch, ← hposition]
  refine .after (contains₂.reaches_label (c := c₁) entered.nodes) ?_
  match Stmt.execAll c.builder.shape fuel c.names body store world, hends with
  | .left _ _, hends => exact hends
  | .running _, hends => exact hends
  | .stuck, hends => exact hends
  | .next store world, ⟨locals, hreaches, hm, ha₃⟩ =>
    obtain ⟨position, hgo, hg⟩ := @reaches_goto M host { c₃ with builder := B₄ } c₅ after _ locals [] world contains₅ h₅
      (exited.arrives ha₃)
    have hg := (hg.later (handled.run.later fine₅)).later
      ((saves.goes.run.trans caught.goes.run).later (handled.run.fine fine₅))
    exact .after ((hreaches.trans (contains₄.reaches_label (c := c₃) exited.nodes)).trans hgo)
      (.place_of_gets contains hend hm hg)
  | .thrown exception store world, ⟨t, hreaches, raises⟩ =>
    cases hc : M.catches catchType exception world with
    | false =>
      dsimp only
      rw [hc, if_neg Bool.false_ne_true]
      exact ⟨t, hreaches, (raises_region entered exited raises hc).widen made.run rest contains⟩
    | true =>
      dsimp only
      rw [hc, if_pos rfl]
      have hposition : host.program.position? label = some c₅.position := by
        refine contains₆.position?_label (placed_nodes _ _ _) ?_
        rw [← isPlaced_iff, ahead]
        exact nofun
      have hjump := reaches_handler contains₄ entered ran.goes.run exited raises hc hposition
      have ha₆ : (c₅.builder.placed label ⟨known, [caughtType catchType]⟩).Arrives [1] t.locals.filled :=
        ⟨_, [], placed_frame _ _ _, rfl, exited.promises_subset raises.kept⟩
      obtain ⟨locals', hkeep, hm', ha₇⟩ := saves.runs contains₇ store t.locals [exception] raises.store
        ha₆ rfl world
      have hhandled := caught.runs contains₈ fuel _ locals' hm' ha₇ world
      refine .after ((hreaches.trans hjump).trans
        ((contains₆.reaches_label (c := c₅) (placed_nodes _ _ _)).trans hkeep)) ?_
      rw [show ({ c₅ with
        builder := c₅.builder.placed label ⟨known, [caughtType catchType]⟩ } : Compiler).names = c₅.names from rfl,
        names₆] at hhandled
      exact hhandled.onward front.run behind.goes contains fun store world locals hm ha₈ =>
        .place_of_arrives contains hend hm ha₈

end Catching

end Host

end ClassWeave
