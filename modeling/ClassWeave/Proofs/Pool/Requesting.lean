import ClassWeave.Proofs.Class.Reachable

/-!
Requests for constants. A pool that was made empty or read, and then asked for constants any number of
times, answers a request by the index of a constant that resolves to what was asked for. It appends only
constants that it does not hold yet, and refuses only when it is full.
-/

namespace ClassWeave

namespace ConstantPool

/-- The pool was made empty or read, and then asked for constants. A request may fail and leave what it
appended on the way. -/
inductive Reachable : ConstantPool → Prop
  | empty : Reachable .empty
  | read {input rest : Bytes} {pool : ConstantPool} (h : ConstantPool.read input = .ok (pool, rest)) :
      Reachable pool
  | request {pool : ConstantPool} (h : Reachable pool) (request : ConstantRequest) :
      Reachable (stateAfter request.run pool)

/-- The constants of the first pool keep their places; those behind them are new and differ from each
other. -/
structure GrowsTo (p q : ConstantPool) : Prop where
  kept : ∀ index constant, p.get index = .ok constant → q.get index = .ok constant
  appended : ∃ appended, q.constants = p.constants ++ appended ∧ appended.Nodup ∧
    ∀ constant ∈ appended, constant ∉ p.constants

/-- The pool has no more slots than an index can tell, and one slot is empty behind each wide constant. -/
structure LaidOut (pool : ConstantPool) : Prop where
  size_le : pool.size ≤ 65535
  behind : ∀ i constant, pool.slots[i]? = some (some constant) → constant.isWide = true →
    pool.slots[i + 1]? = some none

variable {p q : ConstantPool}

theorem mem_constants {constant : Constant} :
    constant ∈ p.constants ↔ some constant ∈ p.slots.toList := by
  unfold constants
  simp [List.mem_filterMap]

theorem kept_appended (start : ConstantPool) : KeptByInterning fun pool =>
    ∃ appended, pool.constants = start.constants ++ appended ∧ appended.Nodup ∧
      ∀ constant ∈ appended, constant ∉ start.constants := by
  refine kept_of_push fun pool constant room _ hfind ⟨appended, hpool, hnodup, hnew⟩ => ?_
  have hout : constant ∉ pool.constants := fun hm => notMem_of_find? hfind (mem_constants.1 hm)
  rw [hpool, List.mem_append, not_or] at hout
  refine ⟨appended ++ [constant], ?_, ?_, ?_⟩
  · rw [constants_push, hpool, List.append_assoc]
  · refine List.nodup_append.2 ⟨hnodup, List.pairwise_singleton _ _, fun a ha b hb => ?_⟩
    rw [List.mem_singleton.1 hb]
    exact fun heq => hout.2 (heq ▸ ha)
  · intro other hm
    rcases List.mem_append.1 hm with hm | hm
    · exact hnew other hm
    · rw [List.mem_singleton.1 hm]
      exact hout.1

theorem growsTo_of_run (request : ConstantRequest) (pool : ConstantPool) :
    pool.GrowsTo (stateAfter request.run pool) where
  kept index constant hget :=
    get_of_le (request.leaves_run (kept_le pool) pool (ConstantPool.le_refl pool)) hget
  appended := request.leaves_run (kept_appended pool) pool ⟨[], by simp, List.nodup_nil, nofun⟩

/-- In slots made of constants, a wide one has an empty slot behind it. -/
theorem getElem?_flatMap_slots {constants : List Constant} {i : Nat} {constant : Constant}
    (h : (constants.flatMap Constant.slots)[i]? = some (some constant)) (wide : constant.isWide = true) :
    (constants.flatMap Constant.slots)[i + 1]? = some none := by
  induction constants generalizing i with
  | nil => simp at h
  | cons first rest ih =>
    rw [List.flatMap_cons] at h ⊢
    by_cases hi : i < first.slots.length
    · -- the constant itself is the first of its slots
      rw [List.getElem?_append_left hi] at h
      unfold Constant.slots at h hi ⊢
      cases hfirst : first.isWide with
      | true =>
        simp only [hfirst, if_true] at h hi ⊢
        match i, hi with
        | 0, _ => rfl
        | 1, _ => simp at h
      | false =>
        simp only [hfirst, Bool.false_eq_true, if_false] at h hi
        obtain rfl : i = 0 := by simpa using hi
        simp only [List.getElem?_cons_zero, Option.some.injEq] at h
        rw [h, wide] at hfirst
        cases hfirst
    · have hlater := @List.getElem?_append_right _ first.slots (rest.flatMap Constant.slots) i
        (Nat.le_of_not_lt hi)
      rw [hlater] at h
      rw [List.getElem?_append_right (by omega), Nat.sub_add_comm (Nat.le_of_not_lt hi)]
      exact ih h

theorem laidOut (pool : ConstantPool) : pool.LaidOut where
  size_le := pool.size_le
  behind i constant h wide := by
    rw [← Array.getElem?_toList, pool.layout] at h ⊢
    match i with
    | 0 => simp at h
    | i + 1 =>
      rw [List.getElem?_cons_succ] at h ⊢
      exact getElem?_flatMap_slots h wide

/-- The step fails only for a constant that has no room behind what it leaves. -/
def Overflows {α : Type} (step : Interning α) : Prop := ∀ pool problem after,
  step pool = .error problem after →
    ∃ constant, problem = .overflow constant after.size ∧ 65535 < after.size + constant.width

theorem Overflows.bind {α β : Type} {step : Interning α} {next : α → Interning β}
    (hs : Overflows step) (hn : ∀ a, Overflows (next a)) : Overflows (step >>= next) := by
  intro pool problem after h
  rcases bind_eq_error.1 h with h | ⟨a, between, -, h⟩
  · exact hs pool problem after h
  · exact hn a between problem after h

theorem overflows_intern (constant : Constant) : Overflows (intern constant) := by
  intro pool problem after h
  unfold intern at h
  cases hfind : pool.find? constant with
  | some index => simp [hfind] at h
  | none =>
    by_cases room : pool.size + constant.width ≤ 65535
    · simp [hfind, room] at h
    · simp only [hfind, room, dite_false, EStateM.Result.error.injEq] at h
      obtain ⟨rfl, rfl⟩ := h
      exact ⟨constant, rfl, Nat.lt_of_not_le room⟩

theorem overflows_internClass (name : String) : Overflows (internClass name) :=
  (overflows_intern _).bind fun _ => overflows_intern _

theorem overflows_internNameAndType (name descriptor : String) :
    Overflows (internNameAndType name descriptor) :=
  (overflows_intern _).bind fun _ => (overflows_intern _).bind fun _ => overflows_intern _

end ConstantPool

namespace ConstantRequest

open ConstantPool

/-- The index leads to what the request asks for. -/
def Resolves (pool : ConstantPool) (index : PoolIndex) : ConstantRequest → Prop
  | .utf8 text => pool.utf8 index = .ok text
  | .classRef name => pool.className index = .ok name
  | .string text => ∃ content, pool.get index = .ok (.string content) ∧ pool.utf8 content = .ok text
  | .integer value => pool.get index = .ok (.integer value)
  | .long value => pool.get index = .ok (.long value)
  | .nameAndType name descriptor => pool.nameAndType index = .ok (name, descriptor)
  | .field owner name descriptor => pool.fieldRef index = .ok ⟨owner, name, descriptor, false⟩
  | .method owner name descriptor ofInterface =>
    pool.methodRef index = .ok ⟨owner, name, descriptor, ofInterface⟩

theorem resolves_of_run {request : ConstantRequest} {pool after : ConstantPool} {index : PoolIndex}
    (h : request.run pool = .ok index after) : request.Resolves after index := by
  cases request with
  | utf8 text => exact utf8_of_internUtf8 h
  | classRef name => exact className_of_internClass h
  | string text =>
    obtain ⟨content, between, hcontent, h⟩ := bind_eq_ok.1 h
    exact ⟨content, get_of_intern h,
      utf8_of_le (settled_intern _ between index after h).1 (utf8_of_internUtf8 hcontent)⟩
  | integer value => exact get_of_intern h
  | long value => exact get_of_intern h
  | nameAndType name descriptor => exact nameAndType_of_internNameAndType h
  | field owner name descriptor => exact fieldRef_of_internField h
  | method owner name descriptor ofInterface => exact methodRef_of_internMethod h

theorem settled_run (request : ConstantRequest) : Settled request.run := by
  cases request with
  | utf8 text => exact ConstantPool.settled_internUtf8 text
  | classRef name => exact ConstantPool.settled_internClass name
  | string text => exact settled_internString text
  | integer value => exact settled_internInteger value
  | long value => exact settled_internLong value
  | nameAndType name descriptor => exact settled_internNameAndType name descriptor
  | field owner name descriptor => exact settled_internField owner name descriptor
  | method owner name descriptor ofInterface => exact settled_internMethod owner name descriptor ofInterface

theorem overflows_run (request : ConstantRequest) : Overflows request.run := by
  cases request with
  | utf8 text => exact overflows_intern _
  | classRef name => exact overflows_internClass name
  | string text => exact (overflows_intern _).bind fun _ => overflows_intern _
  | integer value => exact overflows_intern _
  | long value => exact overflows_intern _
  | nameAndType name descriptor => exact overflows_internNameAndType name descriptor
  | field owner name descriptor | method owner name descriptor ofInterface =>
    exact (overflows_internClass owner).bind fun _ =>
      (overflows_internNameAndType name descriptor).bind fun _ => overflows_intern _

end ConstantRequest

namespace ConstantPool

/-- A request leaves a pool of the same kind that has grown by new constants at most. The index it gives
leads to what was asked for, and asking again gives the same index and leaves the pool alone. It fails
only for want of room. -/
theorem answers_of_reachable {pool : ConstantPool} (h : pool.Reachable) (request : ConstantRequest) :
    (stateAfter request.run pool).Reachable ∧ pool.GrowsTo (stateAfter request.run pool) ∧
      pool.LaidOut ∧ (stateAfter request.run pool).LaidOut ∧
      match request.run pool with
      | .ok index after => request.Resolves after index ∧ request.run after = .ok index after
      | .error problem after =>
        ∃ constant, problem = .overflow constant after.size ∧ 65535 < after.size + constant.width := by
  refine ⟨h.request request, growsTo_of_run request pool, laidOut _, laidOut _, ?_⟩
  cases hrun : request.run pool with
  | ok index after =>
    have again := (request.settled_run pool index after hrun).2
    exact ⟨ConstantRequest.resolves_of_run hrun, again after (ConstantPool.le_refl after)⟩
  | error problem after => exact request.overflows_run pool problem after hrun

/-- A pool of two equal class constants whose name is not there. -/
def danglingBytes : Bytes := [0, 3, 7, 0, 3, 7, 0, 3]

/-- Asking for a class puts its name where the dangling constants point to, and then finds the first of
them. -/
theorem answers_dangling : ∃ pool, ConstantPool.read danglingBytes = .ok (pool, []) ∧
    pool.className ⟨1⟩ = .error (.missing ⟨3⟩) ∧ ∃ after,
      (ConstantRequest.classRef "a/B").run pool = .ok ⟨1⟩ after ∧ pool.GrowsTo after ∧ after.Reachable ∧
      after.className ⟨1⟩ = .ok "a/B" ∧ (ConstantRequest.classRef "a/B").run after = .ok ⟨1⟩ after := by
  have hread : (match ConstantPool.read danglingBytes with
      | .ok (pool, rest) => decide (rest = [] ∧ pool.className ⟨1⟩ = .error (.missing ⟨3⟩)) &&
        match (ConstantRequest.classRef "a/B").run pool with
        | .ok index _ => decide (index = ⟨1⟩)
        | .error _ _ => false
      | .error _ => false) = true := by decide +kernel
  cases hpool : ConstantPool.read danglingBytes with
  | error problem => simp [hpool] at hread
  | ok result =>
    obtain ⟨pool, rest⟩ := result
    simp only [hpool, Bool.and_eq_true, decide_eq_true_eq] at hread
    obtain ⟨⟨rfl, hmissing⟩, hanswer⟩ := hread
    obtain ⟨hreachable, hgrows, -, -, hrun⟩ := answers_of_reachable (.read hpool) (.classRef "a/B")
    cases hask : (ConstantRequest.classRef "a/B").run pool with
    | error problem after => simp [hask] at hanswer
    | ok index after =>
      simp only [hask, decide_eq_true_eq] at hanswer hrun
      subst hanswer
      rw [stateAfter_of_ok hask] at hreachable hgrows
      exact ⟨pool, rfl, hmissing, after, hask, hgrows, hreachable, hrun.1, hrun.2⟩

end ConstantPool

end ClassWeave
