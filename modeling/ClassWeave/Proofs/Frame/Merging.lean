import ClassWeave.Proofs.Frame.Balancing
import ClassWeave.Proofs.Frame.Usable

/-!
Merging as a join. A merge with a frame whose wide locals are whole halves no value, so it meets the frames entry
by entry, and merges of several frames come to the same in any order. What has gone into a merge may flow into
whatever comes of it.
-/

namespace ClassWeave

namespace EditType

theorem meet_self (a : EditType) : meet a a = a := by
  cases a <;> simp [meet]

theorem meet_top_right (a : EditType) : meet a .top = .top := by
  rw [meet_comm, meet_top_left]

theorem meet_assoc (a b c : EditType) : meet (meet a b) c = meet a (meet b c) := by
  unfold meet
  grind

/-- A wide value stays only where it is met by itself. -/
theorem eq_of_meet_wide {a b : EditType} (h : (meet a b).isWide = true) : a = b := by
  unfold meet at h
  split at h
  · cases h
  · cases h
  · split at h
    · assumption
    · cases h

end EditType

namespace EditFrame

theorem dropHalves_eq_self_iff {types stack : List EditType} :
    dropHalves types = types ↔ Frame.Whole (⟨types, stack⟩ : EditFrame) := by
  induction types with
  | nil => exact iff_of_true rfl fun _ _ h => by cases h
  | cons first rest ih =>
    have hrest : Frame.Whole (⟨first :: rest, stack⟩ : EditFrame) ↔
        (first.isWide = true → rest.head? = some .top) ∧ Frame.Whole (⟨rest, stack⟩ : EditFrame) := by
      constructor
      · intro h
        exact ⟨fun hwide => List.head?_eq_getElem? ▸ h 0 first rfl hwide, fun slot => h (slot + 1)⟩
      · rintro ⟨hfirst, hwhole⟩ slot type ht hwide
        cases slot with
        | zero =>
          obtain rfl := Option.some.inj ht
          exact List.head?_eq_getElem? ▸ hfirst hwide
        | succ slot => exact hwhole slot type ht hwide
    rw [hrest, ← ih, dropHalves, List.cons.injEq]
    refine and_congr_left fun _ => ?_
    by_cases hhalf : first.isWide = true ∧ rest.head? ≠ some .top
    · rw [if_pos hhalf]
      refine iff_of_false (fun h => ?_) fun h => hhalf.2 (h hhalf.1)
      rw [← h] at hhalf
      cases hhalf.1
    · rw [if_neg hhalf]
      exact iff_of_true rfl fun hwide => not_not.1 fun hne => hhalf ⟨hwide, hne⟩

/-- Where one frame has a wide local whole, the other cannot halve it: its next slot is met by an unusable one. -/
theorem whole_meetLocals {frame : EditFrame} (whole : frame.Whole) (locals stack : List EditType) :
    Frame.Whole (⟨meetLocals locals frame.locals, stack⟩ : EditFrame) := by
  intro slot type ht hwide
  have hmeet := getElem?_meetLocals locals frame.locals
  change (meetLocals locals frame.locals)[slot]? = some type at ht
  rw [hmeet, Option.ite_none_right_eq_some, Option.some.injEq] at ht
  obtain ⟨-, rfl⟩ := ht
  have hsame := EditType.eq_of_meet_wide hwide
  rw [hsame, EditType.meet_self] at hwide
  have hget : frame.locals[slot]? = some (frame.locals[slot]?.getD .top) := by
    cases hlocal : frame.locals[slot]? with
    | none =>
      rw [hlocal] at hwide
      cases hwide
    | some type => rfl
  have hnext := whole slot _ hget hwide
  obtain ⟨hlt, -⟩ := List.getElem?_eq_some_iff.1 hnext
  change (meetLocals locals frame.locals)[slot + 1]? = some .top
  rw [hmeet, if_pos (Nat.lt_of_lt_of_le hlt (Nat.le_max_right _ _)), hnext, Option.getD_some, EditType.meet_top_right]

variable {a b c merged reached : EditFrame}

/-- Merging with a frame whose wide locals are whole. -/
theorem merge_eq_some_iff (whole : b.Whole) : a.merge b = some merged ↔
    a.stack.length = b.stack.length ∧ .top ∉ List.zipWith EditType.meet a.stack b.stack ∧
      merged = ⟨meetLocals a.locals b.locals, List.zipWith EditType.meet a.stack b.stack⟩ := by
  have hwhole : dropHalves (meetLocals a.locals b.locals) = meetLocals a.locals b.locals :=
    dropHalves_eq_self_iff.2 (whole_meetLocals whole a.locals b.stack)
  unfold merge
  rw [hwhole]
  by_cases hlength : a.stack.length = b.stack.length
  · rw [if_neg (not_not.2 hlength)]
    by_cases htop : .top ∈ List.zipWith EditType.meet a.stack b.stack
    · simp [htop]
    · simp [htop, hlength, eq_comm]
  · simp [hlength]

theorem whole_merge (whole : b.Whole) (h : a.merge b = some merged) : merged.Whole := by
  obtain ⟨-, -, rfl⟩ := (merge_eq_some_iff whole).1 h
  exact whole_meetLocals whole _ _

theorem meetLocals_assoc (locals others more : List EditType) :
    meetLocals (meetLocals locals others) more = meetLocals locals (meetLocals others more) := by
  apply List.ext_getElem?
  intro i
  have hget (x y : List EditType) :
      (meetLocals x y)[i]?.getD .top = EditType.meet (x[i]?.getD .top) (y[i]?.getD .top) := by
    rw [getElem?_meetLocals]
    split
    · rfl
    · next h =>
      have hx : x[i]? = none := List.getElem?_eq_none (by omega)
      rw [hx]
      exact (EditType.meet_top_left _).symm
  rw [getElem?_meetLocals (meetLocals locals others), getElem?_meetLocals locals (meetLocals others more), hget, hget,
    length_meetLocals, length_meetLocals, EditType.meet_assoc, Nat.max_assoc]

theorem zipWith_meet_assoc (s t u : List EditType) :
    List.zipWith EditType.meet (List.zipWith EditType.meet s t) u =
      List.zipWith EditType.meet s (List.zipWith EditType.meet t u) := by
  induction s generalizing t u with
  | nil => simp
  | cons x s ih =>
    cases t with
    | nil => simp
    | cons y t =>
      cases u with
      | nil => simp
      | cons z u => simp only [List.zipWith_cons_cons, EditType.meet_assoc, ih]

/-- What nothing may use on a stack stays so in any merge. -/
theorem top_mem_zipWith {s t : List EditType} (hlength : s.length = t.length) (h : .top ∈ s) :
    .top ∈ List.zipWith EditType.meet s t := by
  obtain ⟨i, hi, htop⟩ := List.mem_iff_getElem.1 h
  refine List.mem_iff_getElem.2 ⟨i, by rw [List.length_zipWith]; omega, ?_⟩
  rw [List.getElem_zipWith, htop, EditType.meet_top_left]

/-- Merging three frames, of which the first two go together. -/
theorem merge_merge_eq_some_iff (wholeB : b.Whole) (wholeC : c.Whole) :
    (a.merge b).bind (·.merge c) = some merged ↔
      (a.stack.length = b.stack.length ∧ b.stack.length = c.stack.length) ∧
      .top ∉ List.zipWith EditType.meet (List.zipWith EditType.meet a.stack b.stack) c.stack ∧
      merged = ⟨meetLocals (meetLocals a.locals b.locals) c.locals,
        List.zipWith EditType.meet (List.zipWith EditType.meet a.stack b.stack) c.stack⟩ := by
  rw [Option.bind_eq_some_iff]
  constructor
  · rintro ⟨middle, hab, hc⟩
    obtain ⟨hlab, -, rfl⟩ := (merge_eq_some_iff wholeB).1 hab
    obtain ⟨hlc, htop, rfl⟩ := (merge_eq_some_iff wholeC).1 hc
    rw [List.length_zipWith] at hlc
    exact ⟨⟨hlab, by omega⟩, htop, rfl⟩
  · rintro ⟨⟨hlab, hlbc⟩, htop, rfl⟩
    have hlength : (List.zipWith EditType.meet a.stack b.stack).length = c.stack.length := by
      rw [List.length_zipWith]
      omega
    exact ⟨_, (merge_eq_some_iff wholeB).2 ⟨hlab, fun h => htop (top_mem_zipWith hlength h), rfl⟩,
      (merge_eq_some_iff wholeC).2 ⟨hlength, htop, rfl⟩⟩

theorem merge_self (whole : a.Whole) (usable : a.Usable) : a.merge a = some a := by
  have hstack : List.zipWith EditType.meet a.stack a.stack = a.stack := by
    rw [List.zipWith_self]
    simp only [EditType.meet_self, List.map_id']
  have hlocals : meetLocals a.locals a.locals = a.locals := by
    apply List.ext_getElem?
    intro i
    rw [getElem?_meetLocals, EditType.meet_self, Nat.max_self]
    split
    · next h => rw [List.getElem?_eq_getElem h, Option.getD_some]
    · next h => exact (List.getElem?_eq_none (Nat.le_of_not_lt h)).symm
  rw [merge_eq_some_iff whole, hstack, hlocals]
  exact ⟨rfl, usable, rfl⟩

theorem merge_right_comm (a : EditFrame) (wholeB : b.Whole) (wholeC : c.Whole) :
    (a.merge b).bind (·.merge c) = (a.merge c).bind (·.merge b) := by
  have hlocals : meetLocals (meetLocals a.locals b.locals) c.locals =
      meetLocals (meetLocals a.locals c.locals) b.locals := by
    rw [meetLocals_assoc, meetLocals_comm b.locals, ← meetLocals_assoc]
  have hstack : List.zipWith EditType.meet (List.zipWith EditType.meet a.stack b.stack) c.stack =
      List.zipWith EditType.meet (List.zipWith EditType.meet a.stack c.stack) b.stack := by
    rw [zipWith_meet_assoc, List.zipWith_comm_of_comm EditType.meet_comm (l := b.stack), ← zipWith_meet_assoc]
  ext merged
  rw [merge_merge_eq_some_iff wholeB wholeC, merge_merge_eq_some_iff wholeC wholeB, hlocals, hstack]
  refine and_congr_left fun _ => ?_
  omega

theorem merge_assoc (b : EditFrame) (wholeA : a.Whole) (wholeC : c.Whole) :
    (a.merge b).bind (·.merge c) = (b.merge c).bind a.merge := by
  rw [merge_comm a b, merge_right_comm b wholeA wholeC]
  exact congrArg _ (funext fun middle => merge_comm middle a)

end EditFrame

end ClassWeave
