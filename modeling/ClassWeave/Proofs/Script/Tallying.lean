import ClassWeave.Proofs.Script.Executing

/-!
The loop over the elements of an array. The array and the index are in slots that no variable has, so what
the test does to the variables leaves them alone.
-/

namespace ClassWeave

open Evaluating Compiler Builder Host

variable {M : Machine} {host : Host} {c c' : Compiler} {B C D : Builder} {u v : Unit}

namespace Compiler

/-- The loop behind the initial values. -/
def tallying (array index result element : UInt16) (type : FieldType) (test : Cond) : Compiling Unit := do
  let head ← fresh
  let exit ← fresh
  place head
  push (.load .int index)
  push (.load .reference array)
  push .arrayLength
  pushBranch (.ifInts .ge exit)
  push (.load .reference array)
  push (.load .int index)
  push (.arrayLoad (arrayKind type))
  Builder.store element type
  push (.load .int result)
  condValue test
  push (.bitwise .and false)
  push (.store .int result)
  push (.increment index 1)
  pushBranch (.goto head)
  place exit

/-- What is computed before the loop, and the slots that the loop is given. -/
theorem allOf_eq_ok {result element : String} {array : Expr} {test : Cond}
    (h : allOf result array element test c = .ok u c') :
    ∃ arrayType type c₁, expr array c = .ok (some arrayType) c₁ ∧ elementType? arrayType = some type ∧
      ∃ (slots : UInt16 × UInt16 × UInt16) (next : UInt16) (B₂ B₃ B₄ B₅ B₆ : Builder),
        slots.1.toNat = c₁.nextLocal.toNat + 1 ∧ slots.2.1.toNat = c₁.nextLocal.toNat + 2 ∧
          slots.2.2.toNat = c₁.nextLocal.toNat + 3 ∧
        next.toNat = c₁.nextLocal.toNat + 3 + type.width ∧
        Builder.store c₁.nextLocal arrayType c₁.builder = .ok () B₂ ∧ Builder.constInt 0 B₂ = .ok () B₃ ∧
        Builder.store slots.1 .int B₃ = .ok () B₄ ∧ Builder.constInt 1 B₄ = .ok () B₅ ∧
        Builder.store slots.2.1 .boolean B₅ = .ok () B₆ ∧
        tallying c₁.nextLocal slots.1 slots.2.1 slots.2.2 type test
          ⟨B₆, (element, slots.2.2, type) :: (result, slots.2.1, .boolean) :: c₁.scope, next⟩ = .ok u c' := by
  obtain ⟨arrayType, c₁, h₁, h⟩ := bind_eq_ok.1 h
  cases htype : elementType? arrayType with
  | none =>
    simp only [htype] at h
    exact (throw_ne_ok.1 h).elim
  | some type =>
    simp only [htype] at h
    have hwidth : arrayType.width = 1 := by
      cases arrayType with
      | base => cases htype
      | ref => rfl
    obtain ⟨_, d₁, ha₁, h⟩ := bind_eq_ok.1 h
    obtain ⟨rfl, _, hn₁, rfl⟩ := allocate_eq_ok ha₁
    obtain ⟨_, B₂, hB₂, h⟩ := lift_bind_eq_ok.1 h
    obtain ⟨indexSlot, d₃, ha₂, h⟩ := bind_eq_ok.1 h
    obtain ⟨rfl, _, hn₂, rfl⟩ := allocate_eq_ok ha₂
    obtain ⟨_, B₃, hB₃, h⟩ := lift_bind_eq_ok.1 h
    obtain ⟨_, B₄, hB₄, h⟩ := lift_bind_eq_ok.1 h
    obtain ⟨resultSlot, d₆, ha₃, h⟩ := bind_eq_ok.1 h
    obtain ⟨rfl, _, hn₃, rfl⟩ := allocate_eq_ok ha₃
    obtain ⟨_, B₅, hB₅, h⟩ := lift_bind_eq_ok.1 h
    obtain ⟨_, B₆, hB₆, h⟩ := lift_bind_eq_ok.1 h
    obtain ⟨elementSlot, d₉, ha₄, h⟩ := bind_eq_ok.1 h
    obtain ⟨rfl, next, hn₄, rfl⟩ := allocate_eq_ok ha₄
    exact ⟨arrayType, type, c₁, value_eq_ok h₁, htype, ⟨indexSlot, resultSlot, elementSlot⟩, next,
      B₂, B₃, B₄, B₅, B₆, by rw [hn₁, hwidth], by rw [hn₂, hn₁, hwidth]; rfl,
      by rw [hn₃, hn₂, hn₁, hwidth]; rfl, by rw [hn₄, hn₃, hn₂, hn₁, hwidth]; rfl,
      hB₂, hB₃, hB₄, hB₅, hB₆, h⟩

/-- The code of the loop, piece by piece. -/
theorem tallying_eq_ok {array index result element : UInt16} {type : FieldType} {test : Cond}
    (h : tallying array index result element type test c = .ok u c') :
    ∃ (head exit : Label) (c₂ c₁₃ : Compiler) (B₃ B₄ B₅ B₆ B₇ B₈ B₉ B₁₀ B₁₁ B₁₂ B₁₄ B₁₅ B₁₆ B₁₇ B₁₈ : Builder),
      (Stays c c₂ ∧ c₂.builder.frame = c.builder.frame ∧ c₂.position = c.position ∧
        head.number < c₂.builder.labels.allocated ∧ exit.number < c₂.builder.labels.allocated ∧
        place head c₂.builder = .ok () B₃) ∧
      (push (.load .int index) B₃ = .ok () B₄ ∧ push (.load .reference array) B₄ = .ok () B₅ ∧
        push .arrayLength B₅ = .ok () B₆ ∧ pushBranch (.ifInts .ge exit) B₆ = .ok () B₇) ∧
      (push (.load .reference array) B₇ = .ok () B₈ ∧ push (.load .int index) B₈ = .ok () B₉ ∧
        push (.arrayLoad (arrayKind type)) B₉ = .ok () B₁₀ ∧ Builder.store element type B₁₀ = .ok () B₁₁) ∧
      (push (.load .int result) B₁₁ = .ok () B₁₂ ∧ condValue test { c₂ with builder := B₁₂ } = .ok () c₁₃ ∧
        push (.bitwise .and false) c₁₃.builder = .ok () B₁₄ ∧ push (.store .int result) B₁₄ = .ok () B₁₅) ∧
      push (.increment index 1) B₁₅ = .ok () B₁₆ ∧ pushBranch (.goto head) B₁₆ = .ok () B₁₇ ∧
      place exit B₁₇ = .ok () B₁₈ ∧ c' = { c₁₃ with builder := B₁₈ } := by
  obtain ⟨head, c₁, h₁, h⟩ := bind_eq_ok.1 h
  obtain ⟨exit, c₂, h₂, h⟩ := bind_eq_ok.1 h
  obtain ⟨made₁, hhead, hframe₁, hposition₁⟩ := stays_fresh h₁
  obtain ⟨made₂, hexit, hframe₂, hposition₂⟩ := stays_fresh h₂
  obtain ⟨_, B₃, hB₃, h⟩ := lift_bind_eq_ok.1 h
  obtain ⟨_, B₄, hB₄, h⟩ := lift_bind_eq_ok.1 h
  obtain ⟨_, B₅, hB₅, h⟩ := lift_bind_eq_ok.1 h
  obtain ⟨_, B₆, hB₆, h⟩ := lift_bind_eq_ok.1 h
  obtain ⟨_, B₇, hB₇, h⟩ := lift_bind_eq_ok.1 h
  obtain ⟨_, B₈, hB₈, h⟩ := lift_bind_eq_ok.1 h
  obtain ⟨_, B₉, hB₉, h⟩ := lift_bind_eq_ok.1 h
  obtain ⟨_, B₁₀, hB₁₀, h⟩ := lift_bind_eq_ok.1 h
  obtain ⟨_, B₁₁, hB₁₁, h⟩ := lift_bind_eq_ok.1 h
  obtain ⟨_, B₁₂, hB₁₂, h⟩ := lift_bind_eq_ok.1 h
  obtain ⟨_, c₁₃, h₁₃, h⟩ := bind_eq_ok.1 h
  obtain ⟨_, B₁₄, hB₁₄, h⟩ := lift_bind_eq_ok.1 h
  obtain ⟨_, B₁₅, hB₁₅, h⟩ := lift_bind_eq_ok.1 h
  obtain ⟨_, B₁₆, hB₁₆, h⟩ := lift_bind_eq_ok.1 h
  obtain ⟨_, B₁₇, hB₁₇, h⟩ := lift_bind_eq_ok.1 h
  obtain ⟨B₁₈, hB₁₈, rfl⟩ := lift_eq_ok.1 h
  exact ⟨head, exit, c₂, c₁₃, B₃, B₄, B₅, B₆, B₇, B₈, B₉, B₁₀, B₁₁, B₁₂, B₁₄, B₁₅, B₁₆, B₁₇, B₁₈,
    ⟨made₁.trans made₂, hframe₂.trans hframe₁, hposition₂.trans hposition₁,
      hhead.trans_le made₂.run.allocated_le, hexit, hB₃⟩,
    ⟨hB₄, hB₅, hB₆, hB₇⟩, ⟨hB₈, hB₉, hB₁₀, hB₁₁⟩, ⟨hB₁₂, h₁₃, hB₁₄, hB₁₅⟩, hB₁₆, hB₁₇, hB₁₈, rfl⟩

end Compiler

namespace Host

/-- The slots of a loop over an array: one for the array and one for the index, that no variable has, and
those of the result and the element. -/
structure Tallies (host : Host) (array index result element : UInt16) (type : FieldType)
    (number : Nat) : Prop where
  free : host.Free array.toNat result.toNat
  index_eq : index.toNat = array.toNat + 1
  result_eq : result.toNat = array.toNat + 2
  element_eq : element.toNat = array.toNat + 3
  getElem?_result : host.slots[number]? = some (result, .boolean)
  getElem?_element : host.slots[number + 1]? = some (element, type)

/-- The array and the number of its elements that were looked at are in their slots. -/
structure Counts (array index : UInt16) (a : M.Slot) (position : Int32) (locals : Locals M) : Prop where
  array : locals array.toNat = some a
  index : locals index.toNat = some (M.int position)

section Rounds

variable {array index result element : UInt16} {type : FieldType} {number : Nat} {store : Store M}
  {locals : Locals M} {world : World M} {a i : M.Slot} {position : Int32}

namespace Tallies

variable (slots : host.Tallies array index result element type number)

include slots

theorem free_array : host.Free array.toNat (array.toNat + 1) :=
  ⟨slots.free.above, fun v hv => (slots.free.apart v hv).imp_right fun hle => by
    have hresult := slots.result_eq
    omega⟩

theorem free_index : host.Free index.toNat (index.toNat + 1) where
  above := by
    have habove := slots.free.above
    have hindex := slots.index_eq
    omega
  apart v hv := by
    have hindex := slots.index_eq
    have hresult := slots.result_eq
    exact (slots.free.apart v hv).imp (by omega) (by omega)

/-- What is written to a variable leaves them alone. -/
theorem counts_write {slot : Nat} (counts : Counts array index a position locals) (hslot : result.toNat ≤ slot)
    (values : List M.Slot) : Counts array index a position (locals.write slot values) := by
  have hindex := slots.index_eq
  have hresult := slots.result_eq
  exact ⟨(locals.write_of_apart values (.inl (by omega))).trans counts.array,
    (locals.write_of_apart values (.inl (by omega))).trans counts.index⟩

theorem counts_index (next : Int32) (harray : locals array.toNat = some a) :
    Counts array index a next (locals.write index.toNat [M.int next]) := by
  have hindex := slots.index_eq
  exact ⟨(locals.write_of_apart _ (.inl (by omega))).trans harray, locals.write_one _ _⟩

end Tallies

/-- Both of two slots are pushed. -/
theorem reaches_loads {kind kind' : SlotKind} {slot slot' : UInt16} {first second : M.Slot}
    (h₁ : push (.load kind slot) c.builder = .ok u B) (h₂ : push (.load kind' slot') B = .ok v C)
    (contains : host.Contains { c with builder := C }) (hfirst : locals slot.toNat = some first)
    (hsecond : locals slot'.toNat = some second) (hkind : kind.width = 1) (hkind' : kind'.width = 1)
    (ha : c.builder.Arrives [] locals.filled) :
    host.program.Reaches ⟨c.position, locals, [], world⟩
        ⟨({ c with builder := C } : Compiler).position, locals, [second, first], world⟩ ∧
      C.Arrives [1, 1] locals.filled := by
  have hread : locals.read slot.toNat kind.width = some [first] := by
    rw [hkind, Locals.read_one, hfirst]
    rfl
  have hread' : locals.read slot'.toNat kind'.width = some [second] := by
    rw [hkind', Locals.read_one, hsecond]
    rfl
  have contains₁ := contains.of_goes (c := { c with builder := B }) (stays_push (by simp) h₂).goes
  obtain ⟨hreaches, ha₁⟩ := reaches_load [] world contains₁ h₁ hread ha
  obtain ⟨hreaches', ha₂⟩ := reaches_load (c := { c with builder := B }) [first] world contains h₂ hread' ha₁
  rw [hkind, hkind'] at ha₂
  exact ⟨hreaches.trans hreaches', ha₂⟩

/-- The length of the array ends above the index. -/
theorem yields_length (h₁ : push (.load .int index) c.builder = .ok u B)
    (h₂ : push (.load .reference array) B = .ok v C) (h₃ : push .arrayLength C = .ok () D)
    (contains : host.Contains { c with builder := D }) (hm : host.Matches store locals)
    (harray : locals array.toNat = some a) (hindex : locals index.toNat = some i)
    (ha : c.builder.Arrives [] locals.filled) :
    host.program.Yields locals c.position ({ c with builder := D } : Compiler).position
      ⟨c.position, locals, [], world⟩ ((do narrow (← perform (.other .arrayLength) [a] 1)) world)
      fun length position stack => position = ({ c with builder := D } : Compiler).position ∧
        stack = [length, i] ∧ D.Arrives [1, 1] locals.filled := by
  obtain ⟨-, computes⟩ := @computes_arrayLength M host { c with builder := C } D () h₃
  have behind := computes.stays
  obtain ⟨hreaches, ha₂⟩ := @reaches_loads M host c B C u v locals world _ _ _ _ _ _ h₁ h₂
    (contains.of_goes behind.goes) hindex harray rfl rfl ha
  have front := position_le ((stays_push (c := c) (by simp) h₁).trans
    (stays_push (c := { c with builder := B }) (by simp) h₂)).run
  have hrun := (computes.runs contains store locals hm (@Arrives.weaken C _ [1] [1] ha₂) [a] [i] world rfl).mono
    front le_rfl fun _ _ _ hgoal => hgoal
  refine .after hreaches (hrun.bind fun values position stack world' _ hgoal => ?_)
  obtain ⟨rfl, rfl, hlength⟩ := hgoal
  obtain ⟨length, rfl⟩ := List.length_eq_one_iff.1 hlength
  exact .pure ⟨rfl, rfl, computes.arrives [1] _ ha₂⟩

/-- The element at the index is pushed. -/
theorem yields_element {kind : ArrayKind} (h₁ : push (.load .reference array) c.builder = .ok u B)
    (h₂ : push (.load .int index) B = .ok v C) (h₃ : push (.arrayLoad kind) C = .ok () D)
    (contains : host.Contains { c with builder := D }) (hm : host.Matches store locals)
    (harray : locals array.toNat = some a) (hindex : locals index.toNat = some i)
    (ha : c.builder.Arrives [] locals.filled) :
    host.program.Yields locals c.position ({ c with builder := D } : Compiler).position
      ⟨c.position, locals, [], world⟩ (perform (.other (.arrayLoad kind)) [i, a] kind.width world)
      fun values position stack => position = ({ c with builder := D } : Compiler).position ∧
        stack = values ∧ values.length = kind.width ∧ D.Arrives [kind.width] locals.filled := by
  obtain ⟨-, computes⟩ := @computes_arrayLoad M host { c with builder := C } D () kind h₃
  obtain ⟨hreaches, ha₂⟩ := @reaches_loads M host c B C u v locals world _ _ _ _ _ _ h₁ h₂
    (contains.of_goes computes.stays.goes) harray hindex rfl rfl ha
  have front := position_le ((stays_push (c := c) (by simp) h₁).trans
    (stays_push (c := { c with builder := B }) (by simp) h₂)).run
  refine .after hreaches ((computes.runs contains store locals hm ha₂ [i, a] [] world rfl).mono front le_rfl
    fun values position stack hgoal => ?_)
  obtain ⟨rfl, rfl, hlength⟩ := hgoal
  exact ⟨rfl, List.append_nil _, hlength.trans (Nat.add_zero _), computes.arrives [] _ ha₂⟩

/-- Whether all elements have passed so far, the one at hand included. -/
theorem yields_passed {test : Cond} {c₁ : Compiler} (fine : Fine c.builder)
    (h₁ : push (.load .int result) c.builder = .ok u B) (h₂ : condValue test { c with builder := B } = .ok v c₁)
    (h₃ : push (.bitwise .and false) c₁.builder = .ok () D)
    (contains : host.Contains { c₁ with builder := D }) (hm : host.Matches store locals)
    (hslot : host.slots[number]? = some (result, .boolean)) (ha : c.builder.Arrives [] locals.filled) :
    host.program.Yields locals c.position ({ c₁ with builder := D } : Compiler).position
      ⟨c.position, locals, [], world⟩ ((do
        let passed ← narrow (← ofOption (store.bindings number))
        let holds ← test.holds c.builder.shape c.names store
        return [M.int (M.toInt passed &&& if holds then 1 else 0)]) world)
      fun values position stack => position = ({ c₁ with builder := D } : Compiler).position ∧
        stack = values ∧ values.length = 1 ∧ D.Arrives [1] locals.filled := by
  obtain ⟨takes, computes⟩ := @computes_bitwise M host c₁ D () h₃
  have pushed := stays_push (by simp) h₁
  obtain ⟨tested, runs⟩ := runs_condValue M host (pushed.run.fine fine) h₂
  have contains₁ := contains.of_goes computes.stays.goes
  obtain ⟨values, hlength, hread⟩ := exists_load h₁ ha
  obtain ⟨value, rfl⟩ := List.length_eq_one_iff.1 hlength
  have hbinding : store.bindings number = some [value] :=
    (hm.bindings number result .boolean hslot).symm.trans hread
  obtain ⟨hreaches, ha₁⟩ := reaches_load [] world (contains₁.of_goes tested.goes) h₁ hread ha
  have hrun := runs contains₁ store locals hm ha₁.bare [value] world
  rw [show ({ c with builder := B } : Compiler).builder.shape = c.builder.shape from pushed.run.shape_eq,
    pushed.names] at hrun
  rw [hbinding]
  change host.program.Yields locals c.position _ _
    ((test.holds c.builder.shape c.names store >>= fun holds =>
      pure [M.int (M.toInt value &&& if holds then 1 else 0)]) world) _
  refine .after hreaches ((hrun.mono (position_le pushed.run) (position_le computes.stays.run)
    fun _ _ _ hgoal => hgoal).bind fun holds position stack world' _ hgoal => ?_)
  obtain ⟨rfl, rfl, ha'⟩ := hgoal
  have ha' := takes.arrives ha'
  refine .after (computes.reaches contains hm ha' [_, value] rfl rfl [] world') (.pure ⟨rfl, ?_, rfl, ?_⟩)
  · rw [M.toInt_int]
    rfl
  · exact computes.arrives [] _ ha'

section Pieces

variable {first last : Compiler} {steps : Nat} {E : Builder} (ahead : Run first.builder c.builder)
  (contains : host.Contains last) (fine : Fine c.builder) (hm : host.Matches store locals)
  (ha : c.builder.Arrives [] locals.filled)
include ahead contains fine hm ha

/-- Control goes on if the index is below the length of the array. -/
theorem ends_length {exit : Label} {rest : World M → Ending M}
    (known : exit.number < c.builder.labels.allocated)
    (h₁ : push (.load .int index) c.builder = .ok u B) (h₂ : push (.load .reference array) B = .ok v C)
    (h₃ : push .arrayLength C = .ok () D) (h₄ : pushBranch (.ifInts .ge exit) D = .ok () E)
    (behind : Goes { c with builder := E } last) (counts : Counts array index a position locals)
    (hexit : ∀ place world, host.Gets { c with builder := E } (some exit) locals.filled place →
      host.Ends first last steps ⟨place, locals, [], world⟩ (.next store world))
    (hrest : ∀ world, E.Arrives [] locals.filled →
      host.Ends first last steps ⟨({ c with builder := E } : Compiler).position, locals, [], world⟩
        (rest world)) :
    host.Ends first last steps ⟨c.position, locals, [], world⟩
      (Ending.ofEval (do narrow (← perform (.other .arrayLength) [a] 1)) store world fun length world =>
        if M.toInt length ≤ position then .next store world else rest world) := by
  have stays : Stays c { c with builder := D } := ((stays_push (by simp) h₁).trans
    (stays_push (c := { c with builder := B }) (by simp) h₂)).trans
      (stays_push (c := { c with builder := C }) (by simp) h₃)
  have branched : Stays { c with builder := D } { c with builder := E } := stays_pushBranch
    (known_target rfl (known.trans_le stays.run.allocated_le)) rfl h₄
  have containsE := contains.of_goes behind
  refine .ofEval ahead stays (branched.goes.trans behind) fine contains hm ha (yields_length h₁ h₂ h₃
    (containsE.of_goes branched.goes) hm counts.array counts.index ha) fun length place stack world' hgoal => ?_
  obtain ⟨rfl, rfl, ha'⟩ := hgoal
  obtain ⟨place, hreaches, hg⟩ := @reaches_branch M host { c with builder := D } exit E ()
    (.ifInts .ge exit) [1, 1] locals [] world' [length, M.int position] containsE h₄ rfl rfl
    (fun _ => Branch.shifts_ifInts _ _) ha' (Comparison.ge.holds (M.toInt (M.int position)) (M.toInt length)) rfl
  rw [M.toInt_int] at hg
  refine .after hreaches ?_
  by_cases hle : M.toInt length ≤ position
  · rw [if_pos hle]
    rw [show Comparison.ge.holds position (M.toInt length) = true from decide_eq_true hle] at hg
    exact hexit place world' hg
  · rw [if_neg hle]
    rw [show Comparison.ge.holds position (M.toInt length) = false from decide_eq_false hle] at hg
    obtain ⟨rfl, haE⟩ := hg
    exact hrest world' haE

/-- The variable for the element gets the one at the index. -/
theorem ends_element {rest : List M.Slot → World M → Ending M}
    (h₁ : push (.load .reference array) c.builder = .ok u B) (h₂ : push (.load .int index) B = .ok v C)
    (h₃ : push (.arrayLoad (arrayKind type)) C = .ok () D) (h₄ : Builder.store element type D = .ok () E)
    (behind : Goes { c with builder := E } last) (counts : Counts array index a position locals)
    (hrest : ∀ values world, values.length = type.width → E.Arrives [] (locals.write element.toNat values).filled →
      host.Ends first last steps
        ⟨({ c with builder := E } : Compiler).position, locals.write element.toNat values, [], world⟩
        (rest values world)) :
    host.Ends first last steps ⟨c.position, locals, [], world⟩
      (Ending.ofEval (perform (.other (.arrayLoad (arrayKind type))) [M.int position, a] type.width) store world
        rest) := by
  have stays : Stays c { c with builder := D } := ((stays_push (by simp) h₁).trans
    (stays_push (c := { c with builder := B }) (by simp) h₂)).trans
      (stays_push (c := { c with builder := C }) (by simp) h₃)
  have stored : Stays { c with builder := D } { c with builder := E } := stays_push (by simp) h₄
  have containsE := contains.of_goes behind
  have hrun := @yields_element M host c B C D u v array index store locals world a _ _ h₁ h₂ h₃
    (containsE.of_goes stored.goes) hm counts.array counts.index ha
  rw [width_arrayKind] at hrun
  refine .ofEval ahead stays (stored.goes.trans behind) fine contains hm ha hrun
    fun values place stack world' hgoal => ?_
  obtain ⟨rfl, rfl, hlength, ha'⟩ := hgoal
  rw [← width_kindOf] at hlength ha'
  obtain ⟨hreaches, haE⟩ := reaches_store (c := { c with builder := D }) [] world' containsE h₄ hlength ha'
  rw [List.append_nil] at hreaches
  exact .after hreaches (hrest _ world' (hlength.trans (width_kindOf type)) haE)

/-- The variable for the result says whether all elements have passed. -/
theorem ends_passed {test : Cond} {c₁ : Compiler} {rest : List M.Slot → World M → Ending M}
    (h₁ : push (.load .int result) c.builder = .ok u B) (h₂ : condValue test { c with builder := B } = .ok v c₁)
    (h₃ : push (.bitwise .and false) c₁.builder = .ok () D) (h₄ : push (.store .int result) D = .ok () E)
    (behind : Goes { c₁ with builder := E } last) (hslot : host.slots[number]? = some (result, .boolean))
    (hrest : ∀ values world, values.length = 1 → E.Arrives [] (locals.write result.toNat values).filled →
      host.Ends first last steps
        ⟨({ c₁ with builder := E } : Compiler).position, locals.write result.toNat values, [], world⟩
        (rest values world)) :
    host.Ends first last steps ⟨c.position, locals, [], world⟩
      (Ending.ofEval (do
        let passed ← narrow (← ofOption (store.bindings number))
        let holds ← test.holds c.builder.shape c.names store
        return [M.int (M.toInt passed &&& if holds then 1 else 0)]) store world rest) := by
  have pushed := stays_push (by simp) h₁
  obtain ⟨tested, -⟩ := runs_condValue M host (pushed.run.fine fine) h₂
  have stays : Stays c { c₁ with builder := D } := (pushed.trans tested).trans (stays_push (by simp) h₃)
  have stored : Stays { c₁ with builder := D } { c₁ with builder := E } := stays_push (by simp) h₄
  have containsE := contains.of_goes behind
  refine .ofEval ahead stays (stored.goes.trans behind) fine contains hm ha (yields_passed fine h₁ h₂ h₃
    (containsE.of_goes stored.goes) hm hslot ha) fun values place stack world' hgoal => ?_
  obtain ⟨rfl, rfl, hlength, ha'⟩ := hgoal
  obtain ⟨hreaches, haE⟩ := reaches_store (c := { c₁ with builder := D }) [] world' containsE h₄ hlength ha'
  rw [List.append_nil] at hreaches
  exact .after hreaches (hrest _ world' hlength haE)

omit ahead fine hm in
/-- The index is counted up, and control goes back. -/
theorem ends_counted {head : Label} {ending : Ending M}
    (h₁ : push (.increment index 1) c.builder = .ok u B) (h₂ : pushBranch (.goto head) B = .ok v C)
    (behind : Goes { c with builder := C } last) (known : head.number < c.builder.labels.allocated)
    (counts : Counts array index a position locals)
    (hrest : ∀ place, host.Gets { c with builder := C } (some head)
        (locals.write index.toNat [M.int (position + 1)]).filled place →
      host.Ends first last steps ⟨place, locals.write index.toNat [M.int (position + 1)], [], world⟩ ending) :
    host.Ends first last steps ⟨c.position, locals, [], world⟩ ending := by
  have counted : Stays c { c with builder := B } := stays_push (by simp) h₁
  have gone : Stays { c with builder := B } { c with builder := C } := stays_pushBranch
    (c := { c with builder := B }) (known_target rfl (known.trans_le counted.run.allocated_le)) rfl h₂
  have contains₁ := contains.of_goes behind
  obtain ⟨hmore, ha₁⟩ := reaches_increment [] world (contains₁.of_goes gone.goes) h₁ counts.index ha
  rw [M.toInt_int, show (1 : Int16).toInt32 = 1 from rfl] at hmore ha₁
  obtain ⟨place, hback, hg⟩ := @reaches_jump M host { c with builder := B } head C v _ [] world contains₁ h₂ ha₁
  exact .after (hmore.trans hback) (hrest place hg)

end Pieces

theorem follows_tallying {test : Cond} (fine : Fine c.builder)
    (h : tallying array index result element type test c = .ok u c') :
    Stays c c' ∧ (host.Contains c' → ∀ number, host.Tallies array index result element type number →
      ∀ (a : M.Slot) fuel (store : Store M) (locals : Locals M) world, host.Matches store locals →
        Counts array index a 0 locals → c.builder.Arrives [] locals.filled →
          host.Ends c c' fuel ⟨c.position, locals, [], world⟩ (Ending.tally [a] type number
            (fun store => test.holds c.builder.shape c.names store) fuel 0 store world)) := by
  obtain ⟨head, exit, c₂, c₁₃, B₃, B₄, B₅, B₆, B₇, B₈, B₉, B₁₀, B₁₁, B₁₂, B₁₄, B₁₅, B₁₆, B₁₇, B₁₈,
    ⟨made, hframe, hposition, hhead, hexit, hB₃⟩, ⟨hB₄, hB₅, hB₆, hB₇⟩, ⟨hB₈, hB₉, hB₁₀, hB₁₁⟩,
    ⟨hB₁₂, h₁₃, hB₁₄, hB₁₅⟩, hB₁₆, hB₁₇, hB₁₈, rfl⟩ := tallying_eq_ok h
  have placed : Stays c₂ { c₂ with builder := B₃ } := stays_place hhead hB₃
  have front := made.trans placed
  have fine₃ := front.run.fine fine
  have hexit₃ := hexit.trans_le placed.run.allocated_le
  have onward : ∀ {d : Compiler} {insn : Insn} {X Y : Builder}, (∀ i, insn ≠ .new i) → push insn X = .ok () Y →
      Stays { d with builder := X } { d with builder := Y } := fun hnew hpush =>
    @stays_push ⟨_, _, _⟩ _ _ _ hnew hpush
  have measured : Stays { c₂ with builder := B₃ } { c₂ with builder := B₆ } :=
    ((onward (by simp) hB₄).trans (onward (by simp) hB₅)).trans (onward (by simp) hB₆)
  have branched : Stays { c₂ with builder := B₆ } { c₂ with builder := B₇ } := stays_pushBranch
    (c := { c₂ with builder := B₆ }) (known_target rfl (hexit₃.trans_le measured.run.allocated_le)) rfl hB₇
  have fine₇ := (measured.trans branched).run.fine fine₃
  have loaded : Stays { c₂ with builder := B₇ } { c₂ with builder := B₁₁ } :=
    ((onward (by simp) hB₈).trans (onward (by simp) hB₉)).trans
      ((onward (by simp) hB₁₀).trans (onward (by simp) hB₁₁))
  have fine₁₁ := loaded.run.fine fine₇
  have pushed : Stays { c₂ with builder := B₁₁ } { c₂ with builder := B₁₂ } := onward (by simp) hB₁₂
  have tested := (runs_condValue M host (pushed.run.fine fine₁₁) h₁₃).1
  have passed : Stays c₁₃ { c₁₃ with builder := B₁₅ } :=
    (stays_push (by simp) hB₁₄).trans (onward (by simp) hB₁₅)
  have counted : Stays { c₁₃ with builder := B₁₅ } { c₁₃ with builder := B₁₆ } := onward (by simp) hB₁₆
  have body := ((measured.trans branched).trans loaded).trans ((pushed.trans tested).trans passed)
  have round := body.trans counted
  have hhead₁₅ : head.number < B₁₅.labels.allocated := (hhead.trans_le placed.run.allocated_le).trans_le
    body.run.allocated_le
  have gone : Stays { c₁₃ with builder := B₁₆ } { c₁₃ with builder := B₁₇ } := stays_pushBranch
    (c := { c₁₃ with builder := B₁₆ }) (known_target rfl (hhead₁₅.trans_le counted.run.allocated_le)) rfl hB₁₇
  have last : Stays { c₁₃ with builder := B₁₇ } { c₁₃ with builder := B₁₈ } := stays_place
    (c := { c₁₃ with builder := B₁₇ }) (hexit₃.trans_le (round.trans gone).run.allocated_le) hB₁₈
  have rest₁₁ := ((pushed.trans tested).trans passed).trans (counted.trans (gone.trans last))
  have rest₁₇ := (loaded.trans ((pushed.trans tested).trans passed)).trans (counted.trans gone)
  have rest₇ := rest₁₇.trans last
  refine ⟨(front.trans round).trans (gone.trans last), fun contains number slots a fuel => ?_⟩
  have contains₁₇ := contains.of_goes last.goes
  have contains₁₆ := contains₁₇.of_goes gone.goes
  have contains₃ := contains₁₇.of_goes (round.trans gone).goes
  obtain ⟨hnodes, new⟩ := nodes_place hB₃
  have hstart := contains₃.position?_label hnodes new
  have names : ({ c₂ with builder := B₁₁ } : Compiler).names = c.names := made.names
  have shape : B₁₁.shape = c.builder.shape :=
    (front.trans ((measured.trans branched).trans loaded)).run.shape_eq
  have helement : result.toNat ≤ element.toNat := by rw [slots.element_eq, slots.result_eq]; omega
  have rounds : ∀ (k : Nat) (position : Int32) (store : Store M) (locals : Locals M) world,
      host.Matches store locals → Counts array index a position locals → B₃.Arrives [] locals.filled →
        host.Ends c { c₁₃ with builder := B₁₈ } k ⟨c₂.position, locals, [], world⟩ (Ending.tally [a] type number
          (fun store => test.holds c.builder.shape c.names store) k position store world) := by
    intro k
    induction k with
    | zero => exact fun _ _ _ _ _ _ _ => ⟨0, _, le_rfl, rfl, rfl⟩
    | succ k ih =>
      intro position store locals world hm counts ha₃
      have hstep := @Contains.step_label M host c₂ _ head contains₃ locals [] world hnodes
      rw [Ending.tally, Nat.add_comm k 1]
      refine .after_succ (Program.after_one.trans hstep) ?_
      refine ends_length front.run contains fine₃ hm ha₃ hexit₃ hB₄ hB₅ hB₆ hB₇ rest₇.goes counts
        (fun place world hg => ?_) fun world ha₇ => ?_
      · have hg : host.Gets { c₁₃ with builder := B₁₇ } (some exit) locals.filled place :=
          Gets.later hg (rest₁₇.run.later fine₇)
        obtain ⟨hreaches, ha'⟩ := reaches_place (c := { c₁₃ with builder := B₁₇ }) contains hB₁₈
          (fun l hl => (Option.some.inj hl).symm) hg
        exact ⟨locals, hreaches, hm, ha'⟩
      refine ends_element (front.trans (measured.trans branched)).run contains fine₇ hm ha₇ hB₈ hB₉ hB₁₀ hB₁₁
        rest₁₁.goes counts fun values world hlength ha₁₁ => ?_
      have hm₁₁ := hm.setVariable slots.getElem?_element hlength
      have counts₁₁ := slots.counts_write counts helement values
      generalize locals.write element.toNat values = locals₁₁ at *
      rw [← shape, ← names]
      refine ends_passed (front.trans ((measured.trans branched).trans loaded)).run contains fine₁₁ hm₁₁ ha₁₁
        hB₁₂ h₁₃ hB₁₄ hB₁₅ (counted.trans (gone.trans last)).goes slots.getElem?_result
        fun passed world hpassed ha₁₅ => ?_
      rw [shape, names]
      have hm₁₅ := hm₁₁.setVariable slots.getElem?_result hpassed
      have counts₁₅ := slots.counts_write counts₁₁ le_rfl passed
      generalize locals₁₁.write result.toNat passed = locals₁₅ at *
      refine ends_counted (c := { c₁₃ with builder := B₁₅ }) contains ha₁₅ hB₁₆ hB₁₇ last.goes hhead₁₅ counts₁₅
        fun place hback => ?_
      obtain ⟨hplace, hl⟩ := hback
      cases hplace.symm.trans hstart
      exact ih (position + 1) _ _ world (hm₁₅.write_free slots.free_index) (slots.counts_index _ counts₁₅.array)
        (arrives_again hB₃ ((round.trans gone).run.later fine₃) hl)
  intro store locals world hm counts ha
  rw [← hposition]
  exact rounds fuel 0 store locals world hm counts (arrives_of_place hB₃ (ha.of_eq hframe))

end Rounds

section Initial

variable {index resultSlot elementSlot next : UInt16} {arrayType type : FieldType}

/-- The variables of the loop are declared. -/
theorem goes_iterate {result element : String} {nextLocal : UInt16} (hle : nextLocal.toNat ≤ resultSlot.toNat)
    (hresult : resultSlot.toNat + 1 ≤ elementSlot.toNat) (hnext : elementSlot.toNat + type.width ≤ next.toNat) :
    Goes ⟨B, c.scope, nextLocal⟩
      ⟨B, (element, elementSlot, type) :: (result, resultSlot, .boolean) :: c.scope, next⟩ := by
  have declared : Goes ⟨B, c.scope, nextLocal⟩ ⟨B, (result, resultSlot, .boolean) :: c.scope, elementSlot⟩ :=
    goes_declare (.refl _) (.refl _) rfl rfl hle hresult
  exact declared.trans (goes_declare (.refl _) (.refl _) rfl rfl le_rfl hnext)

/-- The slots behind those of the variables are free, and then come those of the result and the element. -/
theorem tallies_of_packed {result element : String} (packed : c.Packed) (shape : B.shape = c.builder.shape)
    (hindex : index.toNat = c.nextLocal.toNat + 1) (hresult : resultSlot.toNat = c.nextLocal.toNat + 2)
    (helement : elementSlot.toNat = c.nextLocal.toNat + 3) (hnext : elementSlot.toNat + type.width ≤ next.toNat)
    (contains : host.Contains
      ⟨B, (element, elementSlot, type) :: (result, resultSlot, .boolean) :: c.scope, next⟩) :
    host.Tallies c.nextLocal index resultSlot elementSlot type c.scope.length := by
  have declared {nextLocal : UInt16} (hle : nextLocal.toNat ≤ resultSlot.toNat) :
      host.Contains ⟨B, c.scope, nextLocal⟩ := contains.of_goes (goes_iterate hle (by omega) hnext)
  have declared' : Goes ⟨B, (result, resultSlot, .boolean) :: c.scope, elementSlot⟩
      ⟨B, (element, elementSlot, type) :: (result, resultSlot, .boolean) :: c.scope, next⟩ :=
    goes_declare (.refl _) (.refl _) rfl rfl le_rfl hnext
  refine ⟨⟨contains.shape ▸ shape ▸ packed.next, fun v hv => ?_⟩, hindex, hresult, helement, ?_, ?_⟩
  · obtain ⟨k, hk⟩ := List.mem_iff_getElem?.1 hv
    by_cases hlt : k < c.scope.length
    · refine .inl (packed.below v ?_)
      obtain ⟨more, hmore⟩ := (@declared c.nextLocal (by omega)).slots
      rw [← hmore, List.getElem?_append_left (by rw [length_slots]; exact hlt)] at hk
      exact List.mem_of_getElem? hk
    · exact .inr ((declared le_rfl).later k v (Nat.le_of_not_lt hlt) hk)
  · exact (contains.of_goes declared').getElem?_slots (getElem?_slots_length rfl)
  · exact contains.getElem?_slots
      (@getElem?_slots_length _ element _ ((result, resultSlot, .boolean) :: c.scope) rfl)

variable {B₂ B₃ B₄ B₅ B₆ : Builder} (hB₂ : Builder.store c.nextLocal arrayType c.builder = .ok () B₂)
  (hB₃ : Builder.constInt 0 B₂ = .ok () B₃) (hB₄ : Builder.store index .int B₃ = .ok () B₄)
  (hB₅ : Builder.constInt 1 B₄ = .ok () B₅) (hB₆ : Builder.store resultSlot .boolean B₅ = .ok () B₆)

include hB₂ hB₃ hB₄ hB₅ hB₆

theorem stays_initial (host : Host) (M : Machine) : Stays c { c with builder := B₆ } := by
  have stored₂ : Stays c { c with builder := B₂ } := stays_push (by simp) hB₂
  have zero := @computes_constInt M host { c with builder := B₂ } B₃ () 0 hB₃
  have stored₄ : Stays { c with builder := B₃ } { c with builder := B₄ } := @stays_push ⟨_, _, _⟩ _ _ _ (by simp) hB₄
  have one := @computes_constInt M host { c with builder := B₄ } B₅ () 1 hB₅
  have stored₆ : Stays { c with builder := B₅ } { c with builder := B₆ } := @stays_push ⟨_, _, _⟩ _ _ _ (by simp) hB₆
  exact ((stored₂.trans zero.stays).trans (stored₄.trans one.stays)).trans stored₆

/-- The array, an index of zero and a result that says yes are stored. -/
theorem reaches_initial {number : Nat} {store : Store M} {locals : Locals M} {a : M.Slot} (world : World M)
    (contains : host.Contains { c with builder := B₆ })
    (slots : host.Tallies c.nextLocal index resultSlot elementSlot type number) (hwidth : arrayType.width = 1)
    (hm : host.Matches store locals) (ha : c.builder.Arrives [1] locals.filled) :
    ∃ locals', host.program.Reaches ⟨c.position, locals, [a], world⟩
        ⟨({ c with builder := B₆ } : Compiler).position, locals', [], world⟩ ∧
      host.Matches (store.setVariable number [M.int 1]) locals' ∧ Counts c.nextLocal index a 0 locals' ∧
      B₆.Arrives [] locals'.filled := by
  have zero := @computes_constInt M host { c with builder := B₂ } B₃ () 0 hB₃
  have stored₄ : Stays { c with builder := B₃ } { c with builder := B₄ } := @stays_push ⟨_, _, _⟩ _ _ _ (by simp) hB₄
  have one := @computes_constInt M host { c with builder := B₄ } B₅ () 1 hB₅
  have stored₆ : Stays { c with builder := B₅ } { c with builder := B₆ } := @stays_push ⟨_, _, _⟩ _ _ _ (by simp) hB₆
  have contains₅ := contains.of_goes stored₆.goes
  have contains₄ := contains₅.of_goes one.stays.goes
  have contains₃ := contains₄.of_goes stored₄.goes
  have hkind : (SlotKind.ofFieldType arrayType).width = 1 := (width_kindOf arrayType).trans hwidth
  rw [← hkind] at ha
  have hone : [a].length = (SlotKind.ofFieldType arrayType).width := hkind.symm
  obtain ⟨hreaches₂, ha₂⟩ := reaches_store [] world (contains₃.of_goes zero.stays.goes) hB₂ hone ha
  have hm₂ := @Matches.write_free M host store locals [a] hm _ slots.free_array
  have harray₂ := locals.write_one c.nextLocal.toNat a
  generalize locals.write c.nextLocal.toNat [a] = locals₂ at *
  have hreaches₃ := zero.reaches contains₃ hm₂ ha₂ [] rfl rfl [] world
  have ha₃ := zero.arrives [] _ ha₂
  obtain ⟨hreaches₄, ha₄⟩ := @reaches_store M host { c with builder := B₃ } B₄ () locals₂ [M.int 0] .int index []
    [] world contains₄ hB₄ rfl ha₃
  have hm₄ := @Matches.write_free M host store locals₂ [M.int 0] hm₂ _ slots.free_index
  have counts₄ := slots.counts_index 0 harray₂
  generalize locals₂.write index.toNat [M.int 0] = locals₄ at *
  have hreaches₅ := one.reaches contains₅ hm₄ ha₄ [] rfl rfl [] world
  have ha₅ := one.arrives [] _ ha₄
  obtain ⟨hreaches₆, ha₆⟩ := @reaches_store M host { c with builder := B₅ } B₆ () locals₄ [M.int 1] .int
    resultSlot [] [] world contains hB₆ rfl ha₅
  exact ⟨_, (((hreaches₂.trans hreaches₃).trans hreaches₄).trans hreaches₅).trans hreaches₆,
    hm₄.setVariable slots.getElem?_result rfl, slots.counts_write counts₄ le_rfl _, ha₆⟩

end Initial

/-- The code before the loop evaluates the array and sets the variables up. -/
theorem follows_allOf {result element : String} {array : Expr} {test : Cond} (fine : Fine c.builder)
    (packed : c.Packed) (h : stmt (.allOf result array element test) c = .ok u c') :
    Follows M host c c' (Stmt.namesAfter c.builder.shape c.names (.allOf result array element test))
      (Stmt.exec c.builder.shape · c.names (.allOf result array element test)) := by
  rw [stmt] at h
  obtain ⟨arrayType, type, c₁, h₁, htype, ⟨index, resultSlot, elementSlot⟩, next, B₂, B₃, B₄, B₅, B₆, hindex,
    hresult, helement, hnext, hB₂, hB₃, hB₄, hB₅, hB₆, htally⟩ := allOf_eq_ok h
  dsimp only at hindex hresult helement hB₄ hB₆ htally
  have hwidth : arrayType.width = 1 := by
    cases arrayType with
    | base => cases htype
    | ref => rfl
  obtain ⟨hvalue, computes⟩ := (evaluates_expr M host array h₁).value
  have front := stays_initial hB₂ hB₃ hB₄ hB₅ hB₆ host M
  have declared : Goes { c₁ with builder := B₆ }
      ⟨B₆, (element, elementSlot, type) :: (result, resultSlot, .boolean) :: c₁.scope, next⟩ :=
    goes_iterate (by omega) (by omega) (by omega)
  have fine₆ : Fine B₆ := (computes.stays.trans front).run.fine fine
  have shape₆ : B₆.shape = c.builder.shape := (computes.stays.trans front).run.shape_eq
  have names : Scope.iterate c.builder.shape c.names result element array =
      (element, type) :: (result, .boolean) :: c₁.names := by
    rw [Scope.iterate, hvalue, Option.bind_some, htype, computes.stays.names]
    rfl
  have hlength : c.names.length = c₁.scope.length := by rw [length_names, computes.stays.scope]
  obtain ⟨looped, hloop⟩ := @follows_tallying M host
    ⟨B₆, (element, elementSlot, type) :: (result, resultSlot, .boolean) :: c₁.scope, next⟩ c' u _ _ _ _ type test
    fine₆ htally
  have rest := (front.goes.trans declared).trans looped.goes
  refine ⟨computes.stays.goes.trans rest, ?_, fun contains fuel store locals hm ha world => ?_⟩
  · rw [looped.names, Stmt.namesAfter, names]
    rfl
  have containsLoop := contains.of_goes looped.goes
  have contains₆ := containsLoop.of_goes declared
  have slots := tallies_of_packed (computes.stays.packed packed) front.run.shape_eq hindex hresult helement (by omega)
    containsLoop
  rw [← hlength] at slots
  rw [Stmt.exec, hvalue, Option.bind_some, htype]
  refine .ofEval (.refl _) computes.stays rest fine contains hm ha (computes.runs (contains₆.of_goes front.goes) store
    locals hm ha [] [] world rfl) fun values place stack world' hgoal => ?_
  obtain ⟨rfl, rfl, hvalues⟩ := hgoal
  obtain ⟨a, rfl⟩ := List.length_eq_one_iff.1 (hvalues.trans hwidth)
  have ha₁ := computes.arrives [] _ ha
  rw [hwidth] at ha₁
  obtain ⟨locals', hreaches, hm', counts, ha'⟩ :=
    reaches_initial hB₂ hB₃ hB₄ hB₅ hB₆ world' contains₆ slots hwidth hm ha₁
  refine .after hreaches ?_
  rw [names, ← shape₆]
  have ahead : Run c.builder B₆ := (computes.stays.trans front).run
  exact (hloop contains c.names.length slots a fuel _ _ world' hm' counts ha').widen ahead

end Host

end ClassWeave
