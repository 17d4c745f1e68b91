import ClassWeave.Proofs.Code.Layout

/-!
What reading code costs. A reader takes bytes off the front of those ahead of it, and the value that it
gives goes with how many these are: an instruction never takes fewer than it takes when it is written,
and a jump takes those of one of its forms. The instructions of a code array follow one on the other from
its first byte to its end.
-/

namespace ClassWeave

section Spends

variable {α β : Type}

/-- The reader takes bytes off the front, moves on by as many, and gives a value that goes with their
number. -/
def Spends (reader : CodeReader α) (P : α → Nat → Prop) : Prop :=
  ∀ cursor value next, reader cursor = .ok (value, next) → ∃ taken : Bytes,
    cursor.ahead = taken ++ next.ahead ∧ next.offset = cursor.offset + taken.length ∧
      P value taken.length

namespace Spends

variable {P : α → Nat → Prop} {Q : β → Nat → Prop}

theorem pure {a : α} (h : P a 0) : Spends (Pure.pure a) P := fun cursor value next hread => by
  obtain ⟨rfl, rfl⟩ := stateT_pure_eq_ok.1 hread
  exact ⟨[], rfl, rfl, h⟩

theorem throw (problem : ClassError) : Spends (throw problem : CodeReader α) P :=
  fun _ _ _ h => (stateT_throw_ne_ok.1 h).elim

theorem bind {reader : CodeReader α} {next : α → CodeReader β} (hr : Spends reader P)
    (hn : ∀ a n, P a n → Spends (next a) fun b m => Q b (n + m)) : Spends (reader >>= next) Q := by
  intro cursor b rest h
  obtain ⟨a, middle, ha, hb⟩ := stateT_bind_eq_ok.1 h
  obtain ⟨first, hfirst, hon, hp⟩ := hr cursor a middle ha
  obtain ⟨second, hsecond, hon', hq⟩ := hn a first.length hp middle b rest hb
  refine ⟨first ++ second, ?_, ?_, ?_⟩
  · rw [hfirst, hsecond, List.append_assoc]
  · rw [hon', hon, List.length_append, Nat.add_assoc]
  · rwa [List.length_append]

theorem map {reader : CodeReader α} {f : α → β} (hr : Spends reader P)
    (hf : ∀ a n, P a n → Q (f a) n) : Spends (reader >>= fun a => Pure.pure (f a)) Q :=
  hr.bind fun a n hp => .pure (hf a n hp)

theorem discard {reader : CodeReader α} (hr : Spends reader P) :
    Spends (Functor.discard reader) fun _ n => ∃ a, P a n := hr.map fun a _ hp => ⟨a, hp⟩

theorem ite {p : Prop} [Decidable p] {a b : CodeReader α} (ha : Spends a P) (hb : Spends b P) :
    Spends (if p then a else b) P := by
  split
  · exact ha
  · exact hb

theorem imp {R : α → Nat → Prop} {reader : CodeReader α} (hr : Spends reader P)
    (h : ∀ a n, P a n → R a n) : Spends reader R := fun cursor value next hread => by
  obtain ⟨taken, hahead, hon, hp⟩ := hr cursor value next hread
  exact ⟨taken, hahead, hon, h _ _ hp⟩

end Spends

end Spends

/-- The instruction takes at most so many bytes when it is written, and a jump is of the form that took
them. -/
def Decoded.Costs (start : Nat) (decoded : Decoded) (n : Nat) : Prop :=
  match decoded with
  | .insn i => i.width ≤ n
  | .branch b => ∃ wide, n = b.width start wide ∧
    ∀ target, b.near? wide = some target → isShortDistance ((target : Int) - start) = true

/-- Bytes of an instruction that loads or stores a local. -/
def Insn.accessWidth (slot : UInt16) : Nat := if slot ≤ 3 then 1 else if slot ≤ 255 then 2 else 4

theorem Insn.accessWidth_le (slot : UInt16) : accessWidth slot ≤ 4 := by
  unfold accessWidth
  split
  · decide
  · split <;> decide

theorem Insn.accessWidth_byte (slot : UInt8) : accessWidth slot.toUInt16 ≤ 2 := by
  have hbyte : slot.toUInt16 ≤ 255 := by
    rw [UInt16.le_iff_toNat_le, UInt8.toNat_toUInt16]
    exact Nat.le_of_lt_succ slot.toNat_lt
  unfold accessWidth
  rw [if_pos hbyte]
  split <;> decide

theorem Insn.accessWidth_low (n : Nat) : accessWidth (UInt16.ofNat (n % 4)) ≤ 1 := by
  have hlow : UInt16.ofNat (n % 4) ≤ 3 := by
    rw [UInt16.le_iff_toNat_le, UInt16.toNat_ofNat', Nat.mod_eq_of_lt (by omega)]
    exact Nat.le_of_lt_succ (Nat.mod_lt n (by decide))
  exact Nat.le_of_eq (if_pos hlow)

theorem Insn.width_increment (slot : UInt16) (amount : Int16) :
    (Insn.increment slot amount).width ≤ 6 := by
  change (if slot ≤ 255 ∧ -128 ≤ amount ∧ amount ≤ 127 then 3 else 6) ≤ 6
  split <;> decide

theorem Insn.width_increment_byte (slot : UInt8) (amount : Int8) :
    (Insn.increment slot.toUInt16 amount.toInt16).width ≤ 3 := by
  have hslot : slot.toUInt16 ≤ 255 := by
    rw [UInt16.le_iff_toNat_le, UInt8.toNat_toUInt16]
    exact Nat.le_of_lt_succ slot.toNat_lt
  have hamount : -128 ≤ amount.toInt16 ∧ amount.toInt16 ≤ 127 := by
    rw [Int16.le_iff_toInt_le, Int16.le_iff_toInt_le, Int8.toInt_toInt16]
    exact ⟨amount.le_toInt, Int.le_of_lt_add_one amount.toInt_lt⟩
  exact Nat.le_of_eq (if_pos ⟨hslot, hamount⟩)

theorem Insn.width_loadConstant (index : PoolIndex) : (Insn.loadConstant index).width ≤ 3 := by
  change (if index.value ≤ 255 then 2 else 3) ≤ 3
  split <;> decide

theorem Insn.width_loadConstant_byte (index : UInt8) :
    (Insn.loadConstant ⟨index.toUInt16⟩).width ≤ 2 := by
  have hbyte : index.toUInt16 ≤ 255 := by
    rw [UInt16.le_iff_toNat_le, UInt8.toNat_toUInt16]
    exact Nat.le_of_lt_succ index.toNat_lt
  exact Nat.le_of_eq (if_pos hbyte)

namespace Site

variable (site : Site)

theorem spends_take (count : Nat) : Spends (site.take count) fun _ n => n = count := by
  intro cursor value next h
  unfold take at h
  rw [List.splitAt_eq] at h
  dsimp only at h
  split at h
  · next hcount =>
    cases h
    exact ⟨cursor.ahead.take count, (List.take_append_drop count cursor.ahead).symm,
      congrArg (cursor.offset + ·) hcount.symm, hcount⟩
  · cases h

theorem spends_nat (width : Nat) : Spends (site.nat width) fun _ n => n = width :=
  (site.spends_take width).map fun _ _ h => h

theorem spends_u8 : Spends site.u8 fun _ n => n = 1 := (site.spends_nat 1).map fun _ _ h => h
theorem spends_u16 : Spends site.u16 fun _ n => n = 2 := (site.spends_nat 2).map fun _ _ h => h
theorem spends_i8 : Spends site.i8 fun _ n => n = 1 := site.spends_u8.map fun _ _ h => h
theorem spends_i16 : Spends site.i16 fun _ n => n = 2 := site.spends_u16.map fun _ _ h => h
theorem spends_i32 : Spends site.i32 fun _ n => n = 4 := (site.spends_nat 4).map fun _ _ h => h
theorem spends_index : Spends site.index fun _ n => n = 2 := site.spends_u16.map fun _ _ h => h

theorem spends_target (relative : Int) :
    Spends (site.target relative) fun target n => n = 0 ∧ (target : Int) - site.start = relative := by
  unfold target
  dsimp only
  split
  · next hinside => exact .pure ⟨rfl, by omega⟩
  · exact .throw _

theorem spends_target16 : Spends site.target16 fun target n =>
    n = 2 ∧ isShortDistance ((target : Int) - site.start) = true := by
  refine site.spends_i16.bind fun relative n hn => (site.spends_target _).imp ?_
  rintro target m ⟨rfl, hdistance⟩
  refine ⟨hn, ?_⟩
  rw [hdistance]
  have hlow := relative.le_toInt
  have hhigh := relative.toInt_lt
  unfold isShortDistance
  exact decide_eq_true ⟨hlow, by omega⟩

theorem spends_target32 : Spends site.target32 fun _ n => n = 4 :=
  site.spends_i32.bind fun _ _ hn => (site.spends_target _).imp fun _ _ h => by rw [hn, h.1]

theorem spends_repeatOnto {α : Type} {item : CodeReader α} {cost : Nat}
    (hitem : Spends item fun _ n => n = cost) (count : Nat) (found : List α) :
    Spends (repeatOnto item count found) fun values n =>
      values.length = found.length + count ∧ n = cost * count := by
  induction count generalizing found with
  | zero =>
    intro cursor values next h
    cases h
    exact ⟨[], rfl, rfl, by simp, rfl⟩
  | succ count ih =>
    intro cursor values next h
    unfold repeatOnto at h
    split at h
    · next value middle hvalue =>
      obtain ⟨first, hfirst, hon, hcost⟩ := hitem cursor value middle hvalue
      obtain ⟨rest, hrest, hon', hlength, hcost'⟩ := ih _ middle values next h
      refine ⟨first ++ rest, ?_, ?_, ?_, ?_⟩
      · rw [hfirst, hrest, List.append_assoc]
      · rw [hon', hon, List.length_append, Nat.add_assoc]
      · rw [hlength, List.length_cons]
        omega
      · rw [List.length_append, hcost, hcost', Nat.mul_succ, Nat.add_comm]
    · cases h

theorem spends_tableSwitch : Spends site.tableSwitch fun branch n =>
    n + 1 = branch.width site.start false ∧ branch.near? false = none := by
  refine (site.spends_take _).discard.bind fun _ padding hpadding =>
    site.spends_target32.bind fun default _ hdefault => site.spends_i32.bind fun low _ hlow =>
    site.spends_i32.bind fun high _ hhigh => ?_
  obtain ⟨-, rfl⟩ := hpadding
  have rows : ∀ count, Spends (repeatOnto site.target32 count [] >>= fun targets =>
      Pure.pure (Branch.tableSwitch default low targets)) fun branch n =>
        switchPadding site.start + (4 + (4 + (4 + n))) + 1 = branch.width site.start false ∧
          branch.near? false = none := fun count =>
    (spends_repeatOnto site.spends_target32 count []).map fun targets n h => by
      obtain ⟨hlength, rfl⟩ := h
      rw [List.length_nil, Nat.zero_add] at hlength
      refine ⟨?_, rfl⟩
      change _ = 1 + switchPadding site.start + 12 + 4 * targets.length
      rw [hlength]
      omega
  rw [hdefault, hlow, hhigh]
  exact .ite (.bind (P := fun _ _ => False) (.throw _) fun _ _ h => h.elim) (rows _)

theorem spends_lookupSwitch : Spends site.lookupSwitch fun branch n =>
    n + 1 = branch.width site.start false ∧ branch.near? false = none := by
  refine (site.spends_take _).discard.bind fun _ padding hpadding =>
    site.spends_target32.bind fun default _ hdefault => site.spends_i32.bind fun count _ hcount => ?_
  obtain ⟨-, rfl⟩ := hpadding
  have pair : Spends (do
      let key ← site.i32
      return (key, ← site.target32)) fun _ n => n = 8 :=
    site.spends_i32.bind fun _ _ hkey => site.spends_target32.map fun _ _ htarget => by rw [hkey, htarget]
  have rows : ∀ total, Spends (repeatOnto (do
      let key ← site.i32
      return (key, ← site.target32)) total [] >>= fun pairs =>
      Pure.pure (Branch.lookupSwitch default pairs)) fun branch n =>
        switchPadding site.start + (4 + (4 + n)) + 1 = branch.width site.start false ∧
          branch.near? false = none := fun total =>
    (spends_repeatOnto pair total []).map fun pairs n h => by
      obtain ⟨hlength, rfl⟩ := h
      rw [List.length_nil, Nat.zero_add] at hlength
      refine ⟨?_, rfl⟩
      change _ = 1 + switchPadding site.start + 8 + 8 * pairs.length
      rw [hlength]
      omega
  rw [hdefault, hcount]
  exact .ite (.bind (P := fun _ _ => False) (.throw _) fun _ _ h => h.elim) (rows _)

theorem spends_newArray : Spends site.newArray fun insn n => insn.width ≤ n + 1 := by
  refine site.spends_u8.bind fun code _ hcode => ?_
  split
  · exact .pure (by rw [hcode]; exact Nat.le_refl 2)
  · exact .throw _

theorem spends_widened : Spends site.widened fun insn n => insn.width ≤ n + 1 := by
  refine site.spends_u8.bind fun opcode _ hopcode => ?_
  rw [hopcode]
  have access : ∀ {insn : UInt16 → Insn}, (∀ slot, (insn slot).width ≤ 4) →
      Spends (site.u16 >>= fun slot => Pure.pure (insn slot)) fun insn n => insn.width ≤ 1 + n + 1 :=
    fun h => site.spends_u16.map fun slot n hn => by rw [hn]; exact h slot
  refine .ite (access fun slot => Insn.accessWidth_le slot) <|
    .ite (access fun slot => Insn.accessWidth_le slot) <|
    .ite (site.spends_u16.bind fun slot _ hslot => site.spends_i16.map fun amount n hn => ?_) <|
    .ite (.throw _) (.throw _)
  rw [hslot, hn]
  exact Insn.width_increment slot amount

theorem spends_valueInsn (op : Nat) : Spends (site.valueInsn op) fun insn n => insn.width ≤ n + 1 := by
  unfold valueInsn
  repeat' apply Spends.ite
  all_goals first
    | exact .pure (Nat.le_refl 1)
    | exact .pure (Insn.accessWidth_low _)
    | exact site.spends_i8.map fun _ n hn => by rw [hn]; exact Nat.le_refl 2
    | exact site.spends_i16.map fun _ n hn => by rw [hn]; exact Nat.le_refl 3
    | exact site.spends_u8.map fun index n hn => by rw [hn]; exact Insn.width_loadConstant_byte index
    | exact site.spends_index.map fun index n hn => by rw [hn]; exact Insn.width_loadConstant index
    | exact site.spends_index.map fun _ n hn => by rw [hn]; exact Nat.le_refl 3
    | exact site.spends_u8.map fun slot n hn => by rw [hn]; exact Insn.accessWidth_byte slot
    | exact site.spends_u8.bind fun slot _ hslot => site.spends_i8.map fun amount n hn => by
        rw [hslot, hn]; exact Insn.width_increment_byte slot amount

theorem spends_objectInsn (op : Nat) : Spends (site.objectInsn op) fun insn n => insn.width ≤ n + 1 := by
  unfold objectInsn
  repeat' apply Spends.ite
  all_goals first
    | exact .pure (Nat.le_refl 1)
    | exact site.spends_index.map fun _ n hn => by rw [hn]; exact Nat.le_refl 3
    | exact site.spends_newArray
    | exact site.spends_widened
    | exact site.spends_index.bind fun _ _ hindex => site.spends_u8.map fun _ n hn => by
        rw [hindex, hn]; exact Nat.le_refl 4
    | exact site.spends_index.bind fun _ _ hindex => site.spends_u16.discard.map fun _ n ⟨_, hn⟩ => by
        rw [hindex, hn]; exact Nat.le_refl 5
    | exact site.spends_index.bind fun _ _ hindex => site.spends_u8.bind fun _ _ hslots =>
        site.spends_u8.discard.map fun _ n ⟨_, hn⟩ => by rw [hindex, hslots, hn]; exact Nat.le_refl 5

theorem spends_branch (opcode : UInt8) : Spends (site.branch opcode) fun branch n =>
    (Decoded.branch branch).Costs site.start (1 + n) := by
  unfold branch
  repeat' apply Spends.ite
  all_goals first
    | exact .pure ⟨false, rfl, fun _ h => nomatch h⟩
    | exact .throw _
    | exact site.spends_target16.map fun target n ⟨hn, hshort⟩ =>
        ⟨false, by rw [hn]; rfl, fun other h => by cases h; exact hshort⟩
    | exact site.spends_target32.map fun target n hn =>
        ⟨true, by rw [hn]; rfl, fun _ h => nomatch h⟩
    | exact site.spends_tableSwitch.imp fun branch n ⟨hn, hnone⟩ =>
        ⟨false, by rw [← hn, Nat.add_comm], fun _ h => by rw [hnone] at h; cases h⟩
    | exact site.spends_lookupSwitch.imp fun branch n ⟨hn, hnone⟩ =>
        ⟨false, by rw [← hn, Nat.add_comm], fun _ h => by rw [hnone] at h; cases h⟩

/-- An instruction takes its opcode at least, and no fewer bytes than it is written with. -/
theorem spends_decoded : Spends site.decoded fun decoded n => 0 < n ∧ decoded.Costs site.start n := by
  refine site.spends_u8.bind fun opcode _ hopcode => ?_
  rw [hopcode]
  have insns : ∀ {reader : CodeReader Insn}, Spends reader (fun insn n => insn.width ≤ n + 1) →
      Spends (reader >>= fun insn => Pure.pure (Decoded.insn insn)) fun decoded n =>
        0 < 1 + n ∧ decoded.Costs site.start (1 + n) := fun h =>
    h.map fun insn n hn => ⟨by omega, by rwa [Nat.add_comm 1 n]⟩
  exact .ite (insns (site.spends_valueInsn _)) <| .ite (insns (site.spends_objectInsn _)) <|
    (site.spends_branch _).map fun branch n hn => ⟨by omega, hn⟩

end Site

namespace Decoded

/-- From the offset to the end of the code, one instruction after the other. -/
inductive Consecutive (code : Bytes) : Nat → List (Nat × Decoded) → Prop where
  | stop : Consecutive code code.length []
  | next {offset after : Nat} {decoded : Decoded} {rest : List (Nat × Decoded)}
      (hread : Decoded.read code offset = .ok (decoded, after)) (hrest : Consecutive code after rest) :
      Consecutive code offset ((offset, decoded) :: rest)

variable {code : Bytes} {offset after : Nat} {decoded : Decoded} {entries : List (Nat × Decoded)}

theorem costs_of_read (h : Decoded.read code offset = .ok (decoded, after)) :
    offset < after ∧ after ≤ code.length ∧ decoded.Costs offset (after - offset) := by
  obtain ⟨⟨_, next⟩, hread, h⟩ := except_bind_eq_ok.1 h
  cases h
  obtain ⟨taken, hahead, hon, hpos, hcosts⟩ := (Site.mk offset code.length).spends_decoded _ _ _ hread
  have hlength := congrArg List.length hahead
  rw [List.length_append, List.length_drop] at hlength
  dsimp only at hon hcosts
  rw [hon, Nat.add_sub_cancel_left]
  exact ⟨by omega, by omega, hcosts⟩

/-- Reading a code array gives its instructions one after the other. -/
theorem consecutive_readAll (h : readAll code = .ok entries) : Consecutive code 0 entries := by
  have onto : ∀ (fuel : Nat) (found : List (Nat × Decoded)) (offset : Nat), offset ≤ code.length →
      code.length - offset ≤ fuel →
      readOnto code.length fuel found ⟨offset, code.drop offset⟩ = .ok entries →
      ∃ rest, entries = found.reverse ++ rest ∧ Consecutive code offset rest := by
    intro fuel
    induction fuel with
    | zero =>
      intro found offset hinside hfuel h
      cases h
      obtain rfl : offset = code.length := by omega
      exact ⟨[], (List.append_nil _).symm, .stop⟩
    | succ fuel ih =>
      intro found offset hinside hfuel h
      unfold readOnto at h
      split at h
      · next hahead =>
        cases h
        have hlength := congrArg List.length hahead
        rw [List.length_drop, List.length_nil] at hlength
        obtain rfl : offset = code.length := by omega
        exact ⟨[], (List.append_nil _).symm, .stop⟩
      · split at h
        · next decoded next hread =>
          obtain ⟨taken, hahead, hon, hpos, -⟩ :=
            (Site.mk offset code.length).spends_decoded _ _ _ hread
          have hlength := congrArg List.length hahead
          rw [List.length_append, List.length_drop] at hlength
          dsimp only at hon
          obtain ⟨reached, ahead⟩ := next
          dsimp only at hon hahead hlength
          obtain rfl : ahead = code.drop reached := by
            rw [hon, ← List.drop_drop, hahead, List.drop_left]
          obtain ⟨rest, rfl, hrest⟩ := ih _ reached (by omega) (by omega) h
          refine ⟨(offset, decoded) :: rest, by simp, .next ?_ hrest⟩
          unfold Decoded.read
          rw [hread]
          rfl
        · cases h
  obtain ⟨rest, rfl, hrest⟩ := onto code.length [] 0 (Nat.zero_le _) (by omega) h
  exact hrest

/-- The offsets ascend, from the first to the end of the code. -/
theorem Consecutive.pairwise (h : Consecutive code offset entries) :
    (entries.map Prod.fst ++ [code.length]).Pairwise (· < ·) ∧
      ∀ boundary ∈ entries.map Prod.fst ++ [code.length], offset ≤ boundary := by
  induction h with
  | stop => exact ⟨List.pairwise_singleton _ _, fun _ hm => Nat.le_of_eq (List.mem_singleton.1 hm).symm⟩
  | next hread _ ih =>
    have hafter := (costs_of_read hread).1
    refine ⟨List.pairwise_cons.2 ⟨fun boundary hm => Nat.lt_of_lt_of_le hafter (ih.2 boundary hm), ih.1⟩, ?_⟩
    intro boundary hm
    rcases List.mem_cons.1 hm with rfl | hm
    · exact Nat.le_refl _
    · exact Nat.le_of_lt (Nat.lt_of_lt_of_le hafter (ih.2 boundary hm))

/-- The offsets of the instructions that are read ascend, up to the end of the code. -/
theorem pairwise_readAll (h : readAll code = .ok entries) :
    (entries.map Prod.fst ++ [code.length]).Pairwise (· < ·) := (consecutive_readAll h).pairwise.1

end Decoded

end ClassWeave
