import ClassWeave.Proofs.Code.Refitting

/-!
Stack maps lose nothing. A list of frames that is stored as differences, each from the frame before it,
is read back as those differences, and applying them in turn gives the same frames at the same offsets.
-/

namespace ClassWeave

namespace StoredFrame

/-- Each frame as its difference from the one before it; the first delta is the offset itself, and each
further one is one less than the distance. -/
def differences (previous : StoredFrame) (previousOffset : Option Nat) :
    List (Nat × StoredFrame) → List StackMapFrame
  | [] => []
  | (offset, frame) :: rest =>
    let delta := match previousOffset with
      | none => offset
      | some before => offset - before - 1
    frame.stackMapFrame (UInt16.ofNat delta) previous :: differences frame (some offset) rest

/-- The frames that differences make when they are applied in turn, with the types as they are stored.
-/
def applyAll (previous : StoredFrame) : List StackMapFrame → Except FrameFault (List StoredFrame)
  | [] => .ok []
  | difference :: rest => do
    let next ← previous.applyStackMap difference .ok
    return next :: (← applyAll next rest)

variable {frame previous other : StoredFrame} {previousOffset : Option Nat}
  {frames : List (Nat × StoredFrame)}

/-- The difference from a frame makes the same frame of any other that is the same as that one. -/
theorem sameAs_of_applyStackMap (delta : UInt16) (h : other.compactLocals = previous.compactLocals) :
    ∃ next, other.applyStackMap (frame.stackMapFrame delta previous) .ok = .ok next ∧
      next.sameAs frame = true := by
  obtain ⟨next, hnext⟩ : ∃ next, other.applyStackMap (frame.stackMapFrame delta previous) .ok = .ok next := by
    obtain ⟨next, hnext, -⟩ := @Frame.applyStackMap_stackMapFrame _ _ _ _ other previous frame .ok delta (by rw [h])
      fun type _ => ⟨type, rfl, rfl⟩
    exact ⟨next, hnext⟩
  have listed : ∀ {types out : List StoredType},
      List.Forall₂ (fun type out => (Except.ok type : Except FrameFault StoredType) = .ok out) types out →
      out = types := by
    intro types out hall
    induction hall with
    | nil => rfl
    | cons first _ ih => rw [ih, Except.ok.inj first]
  have hbefore : List.Forall₂ (fun type out => (Except.ok type : Except FrameFault StoredType) = .ok out)
      previous.compactLocals other.compactLocals := by
    rw [h]
    exact List.forall₂_same.2 fun _ _ => rfl
  obtain ⟨locals, stack, rfl, hlocals, hstack⟩ := Frame.standsFor_of_applyStackMap hbefore hnext
  refine ⟨_, hnext, Frame.sameAs_iff.2 ⟨listed hstack, ?_⟩⟩
  rw [Frame.compactLocals_ofCompact, listed hlocals]
  exact Frame.dropTops_dropTops _

theorem applyAll_differences (h : other.compactLocals = previous.compactLocals) :
    ∃ restored, other.applyAll (differences previous previousOffset frames) = .ok restored ∧
      List.Forall₂ (fun entry frame => frame.sameAs entry.2 = true) frames restored := by
  induction frames generalizing previous other previousOffset with
  | nil => exact ⟨[], rfl, .nil⟩
  | cons entry rest ih =>
    obtain ⟨offset, frame⟩ := entry
    obtain ⟨next, hnext, hsame⟩ := @sameAs_of_applyStackMap frame _ _ _ h
    obtain ⟨restored, hrestored, hall⟩ := ih (Frame.sameAs_iff.1 hsame).2
    exact ⟨next :: restored, except_bind_eq_ok.2 ⟨next, hnext, except_bind_eq_ok.2
      ⟨restored, hrestored, rfl⟩⟩, .cons hsame hall⟩

/-- The deltas tell the offsets again. -/
theorem offsets_differences (ascending : frames.Pairwise fun a b => a.1 < b.1)
    (below : ∀ entry ∈ frames, entry.1 < 65535)
    (behind : ∀ before, previousOffset = some before → ∀ entry ∈ frames, before < entry.1) :
    (stackMapOffsets previousOffset (differences previous previousOffset frames)).map Prod.fst =
      frames.map Prod.fst := by
  induction frames generalizing previous previousOffset with
  | nil => rfl
  | cons entry rest ih =>
    obtain ⟨offset, frame⟩ := entry
    obtain ⟨hfirst, hrest⟩ := List.pairwise_cons.1 ascending
    obtain ⟨hoffset, hbelow⟩ := List.forall_mem_cons.1 below
    have hon := @ih frame (some offset) hrest hbelow
      fun before hb entry hm => by
        cases hb
        exact hfirst entry hm
    dsimp only at hoffset
    unfold differences
    cases previousOffset with
    | none =>
      dsimp only
      rw [stackMapOffsets_first, delta_stackMapFrame, ConstantPool.toNat_ofNat_of_lt (by omega),
        List.map_cons, hon, List.map_cons]
    | some before =>
      have hlt := behind before rfl _ List.mem_cons_self
      have hsum : before + (offset - before - 1) + 1 = offset := by
        dsimp only at hlt
        omega
      dsimp only
      rw [stackMapOffsets_next, delta_stackMapFrame, ConstantPool.toNat_ofNat_of_lt (by omega), hsum,
        List.map_cons, hon, List.map_cons]

theorem length_differences : (differences previous previousOffset frames).length = frames.length := by
  induction frames generalizing previous previousOffset with
  | nil => rfl
  | cons entry rest ih => exact congrArg Nat.succ ih

theorem mem_differences {difference : StackMapFrame}
    (h : difference ∈ differences previous previousOffset frames) :
    ∃ entry ∈ frames, ∃ delta before, difference = entry.2.stackMapFrame delta before := by
  induction frames generalizing previous previousOffset with
  | nil => cases h
  | cons entry rest ih =>
    rcases List.mem_cons.1 h with rfl | h
    · exact ⟨entry, List.mem_cons_self, _, _, rfl⟩
    · obtain ⟨found, hm, hfound⟩ := ih h
      exact ⟨found, List.mem_cons_of_mem _ hm, hfound⟩

end StoredFrame

namespace Frame

variable {C P : Type}

theorem length_valuesOf (types : List (VerificationType C P)) :
    (valuesOf types).length ≤ types.length := by
  fun_induction valuesOf types with
  | case1 => exact Nat.le_refl _
  | case2 type => exact Nat.le_refl _
  | case3 type second rest hwide ih =>
    simp only [List.length_cons] at ih ⊢
    omega
  | case4 type second rest hwide ih =>
    simp only [List.length_cons] at ih ⊢
    omega

theorem length_compactLocals [DecidableEq C] [DecidableEq P] (frame : Frame C P) :
    frame.compactLocals.length ≤ frame.locals.length := by
  unfold compactLocals dropTops
  rw [List.length_reverse]
  refine Nat.le_trans (List.dropWhile_sublist _).length_le ?_
  rw [List.length_reverse]
  exact length_valuesOf _

end Frame

/-- There are no more ascending offsets below a bound than it tells. -/
theorem length_le_of_ascending {α : Type} {entries : List (Nat × α)}
    (ascending : entries.Pairwise fun a b => a.1 < b.1) {stop : Nat}
    (below : ∀ entry ∈ entries, entry.1 < stop) : entries.length ≤ stop := by
  have hnodup : (entries.map Prod.fst).Nodup :=
    (List.pairwise_map.2 ascending).imp Nat.ne_of_lt
  have hsub : entries.map Prod.fst ⊆ List.range stop := by
    intro offset hm
    obtain ⟨entry, he, rfl⟩ := List.mem_map.1 hm
    exact List.mem_range.2 (below entry he)
  simpa using (List.subperm_of_subset hnodup hsub).length_le

namespace StoredFrame

variable {initial : StoredFrame} {frames : List (Nat × StoredFrame)}

/-- Frames that are stored as a stack map table are read back as the same frames at the same offsets,
whatever frame the first of them is told apart from. -/
theorem restores_differences (name : PoolIndex) (ascending : frames.Pairwise fun a b => a.1 < b.1)
    (below : ∀ entry ∈ frames, entry.1 < 65535)
    (fits : ∀ entry ∈ frames, entry.2.locals.length ≤ 65535 ∧ entry.2.stack.length ≤ 65535) :
    ∃ content table restored,
      stackMapTable.bytes (differences initial none frames) = .ok content ∧
      Attribute.parse stackMapTable ⟨name, content⟩ = .ok table ∧
      applyAll initial table = .ok restored ∧
      List.Forall₂ (fun entry frame => frame.sameAs entry.2 = true) frames restored ∧
      (stackMapOffsets none table).map Prod.fst = frames.map Prod.fst := by
  obtain ⟨restored, hrestored, hall⟩ := @applyAll_differences initial initial none frames rfl
  have hbytes : ∃ parts, (differences initial none frames).mapM StackMapFrame.bytes = .ok parts := by
    refine Layout.mapM_ok fun difference hm => ?_
    obtain ⟨entry, -, delta, before, rfl⟩ := mem_differences hm
    exact stackMapFrame_bytes _ _ _
  obtain ⟨parts, hparts⟩ := hbytes
  have hcontent : stackMapTable.bytes (differences initial none frames) = .ok
      (Bytes.u16 (UInt16.ofNat (differences initial none frames).length) ++ parts.flatten) :=
    except_bind_eq_ok.2 ⟨parts, hparts, rfl⟩
  have hcount : (differences initial none frames).length < 65536 := by
    have hle := length_le_of_ascending ascending below
    rw [length_differences]
    omega
  have hfits : ∀ difference ∈ differences initial none frames, difference.Fits := by
    intro difference hm
    obtain ⟨entry, he, delta, before, rfl⟩ := mem_differences hm
    obtain ⟨hlocals, hstack⟩ := fits entry he
    have hcompact := Frame.length_compactLocals entry.2
    exact fits_stackMapFrame (by omega) (by omega)
  have hparsed := Attribute.parse_of_reads (reads_stackMapTable hcount hfits hcontent) name
  exact ⟨_, _, restored, hcontent, hparsed, hrestored, hall, offsets_differences ascending below nofun⟩

/-- Frames whose differences are an append, a chop behind a wide value that lacks its second slot, a
frame that keeps the locals, and a full one. -/
def mixed : List (Nat × StoredFrame) :=
  [(0, ⟨[.long, .top, .integer, .top], []⟩), (3, ⟨[.long, .integer], []⟩),
    (90, ⟨[.long, .top, .top], [.null]⟩), (65534, ⟨[.top, .object ⟨7⟩], [.double, .uninitialized 3]⟩)]

theorem restores_mixed : (mixed.Pairwise fun a b => a.1 < b.1) ∧ (∀ entry ∈ mixed, entry.1 < 65535) ∧
    (∀ entry ∈ mixed, entry.2.locals.length ≤ 65535 ∧ entry.2.stack.length ≤ 65535) ∧
    ∃ content table restored,
      stackMapTable.bytes (differences ⟨[], []⟩ none mixed) = .ok content ∧
      Attribute.parse stackMapTable ⟨⟨1⟩, content⟩ = .ok table ∧
      applyAll ⟨[], []⟩ table = .ok restored ∧
      List.Forall₂ (fun entry frame => frame.sameAs entry.2 = true) mixed restored ∧
      (stackMapOffsets none table).map Prod.fst = mixed.map Prod.fst :=
  have ascending : mixed.Pairwise fun a b => a.1 < b.1 := by decide
  have below : ∀ entry ∈ mixed, entry.1 < 65535 := by decide
  have fits : ∀ entry ∈ mixed, entry.2.locals.length ≤ 65535 ∧ entry.2.stack.length ≤ 65535 := by decide
  ⟨ascending, below, fits, restores_differences ⟨1⟩ ascending below fits⟩

end StoredFrame

/-- Writing a body stores its frames as these differences. -/
theorem OffsetFrames.differences_of_compress {labels : LabelTable} {frames : OffsetFrames}
    {previous : StoredFrame} {previousOffset : Option Nat} {done out : List StackMapFrame}
    {pool pool' : ConstantPool}
    (h : frames.compress labels previous previousOffset done pool = .ok out pool') :
    ∃ stored : List (Nat × StoredFrame), List.Forall₂ (fun entry other => other.1 = entry.1 ∧
        ∃ p q, EditFrame.store labels entry.2 p = .ok other.2 q) frames stored ∧
      out = done.reverse ++ StoredFrame.differences previous previousOffset stored := by
  induction frames generalizing previous previousOffset done pool with
  | nil =>
    obtain ⟨rfl, -⟩ := pure_eq_ok.1 h
    exact ⟨[], .nil, (List.append_nil _).symm⟩
  | cons entry rest ih =>
    obtain ⟨offset, frame⟩ := entry
    obtain ⟨first, next, hfirst, h⟩ := bind_eq_ok.1 h
    obtain ⟨stored, hstored, rfl⟩ := ih h
    refine ⟨(offset, first) :: stored, .cons ⟨rfl, pool, next, hfirst⟩ hstored, ?_⟩
    rw [List.reverse_cons, List.append_assoc]
    rfl

end ClassWeave
