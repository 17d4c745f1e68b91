import ClassWeave.Code.Encode
import ClassWeave.Code.Read
import ClassWeave.Proofs.Code.Layout
import ClassWeave.Proofs.Format.Reading
import Mathlib.Tactic.IntervalCases

/-!
Reading back code. Each instruction is read back from its bytes, and a jump from its distance; so a
laid-out body is read back as its instructions, each at the offset where the layout has put it.
-/

namespace ClassWeave

variable {α β : Type}

/-- From wherever the cursor stands the reader takes the bytes, and gives the value. -/
def Takes (reader : CodeReader α) (bytes : Bytes) (value : α) : Prop :=
  ∀ offset rest, reader ⟨offset, bytes ++ rest⟩ = .ok (value, ⟨offset + bytes.length, rest⟩)

namespace Takes

theorem pure (a : α) : Takes (Pure.pure a) [] a := fun _ _ => rfl

theorem bind {reader : CodeReader α} {next : α → CodeReader β} {xs ys : Bytes} {a : α} {b : β}
    (ha : Takes reader xs a) (hb : Takes (next a) ys b) :
    Takes (reader >>= next) (xs ++ ys) b := by
  intro offset rest
  rw [List.append_assoc, List.length_append, ← Nat.add_assoc]
  exact stateT_bind_eq_ok.2 ⟨a, _, ha offset (ys ++ rest), hb _ rest⟩

/-- A reader of the last operand. -/
theorem map {reader : CodeReader α} {f : α → β} {xs : Bytes} {a : α} (ha : Takes reader xs a) :
    Takes (reader >>= fun a => Pure.pure (f a)) xs (f a) := by
  have h : Takes (reader >>= fun a => Pure.pure (f a)) (xs ++ []) (f a) := ha.bind (.pure (f a))
  rwa [List.append_nil] at h

/-- An operand without a use. -/
theorem skip {reader : CodeReader α} {next : PUnit → CodeReader β} {xs ys : Bytes} {a : α} {b : β}
    (ha : Takes reader xs a) (hb : Takes (next ⟨⟩) ys b) :
    Takes (discard reader >>= next) (xs ++ ys) b := by
  have hskipped : Takes (discard reader) xs ⟨⟩ := fun offset rest => by
    change (do let found ← reader ⟨offset, xs ++ rest⟩; Pure.pure (PUnit.unit, found.2)) = _
    rw [ha offset rest]
    rfl
  exact hskipped.bind hb

theorem congr {reader : CodeReader α} {xs ys : Bytes} {a : α} (h : Takes reader xs a)
    (hb : ys = xs) : Takes reader ys a := hb ▸ h

end Takes

theorem UInt16.toUInt16_toUInt8 {n : UInt16} (h : n ≤ 255) : n.toUInt8.toUInt16 = n := by
  have hle : n.toNat ≤ 255 := UInt16.le_iff_toNat_le.1 h
  apply UInt16.toNat_inj.1
  rw [UInt8.toNat_toUInt16, UInt16.toNat_toUInt8]
  exact Nat.mod_eq_of_lt (by omega)

theorem Int16.toInt16_toInt8 {n : Int16} (h : -128 ≤ n ∧ n ≤ 127) : n.toInt8.toInt16 = n := by
  have hlo : -128 ≤ n.toInt := Int16.le_iff_toInt_le.1 h.1
  have hhi : n.toInt ≤ 127 := Int16.le_iff_toInt_le.1 h.2
  apply Int16.toInt_inj.1
  rw [Int8.toInt_toInt16, Int16.toInt_toInt8]
  exact Int.bmod_eq_of_le (by omega) (by omega)

namespace Site

variable (site : Site)

theorem takes_bytes (content : Bytes) : Takes (site.take content.length) content content := by
  intro offset rest
  have hsplit : (content ++ rest).splitAt content.length = (content, rest) := by
    rw [List.splitAt_eq, List.take_left, List.drop_left]
  unfold take
  simp only [hsplit, if_true]

theorem takes_nat (width n : Nat) (h : n < 256 ^ width) :
    Takes (site.nat width) (Bytes.ofNat width n) n := by
  have hbytes := site.takes_bytes (Bytes.ofNat width n)
  rw [Bytes.length_ofNat] at hbytes
  have hread := hbytes.map (f := fun taken => taken.foldl (fun n b => n * 256 + b.toNat) 0)
  rwa [Bytes.foldl_ofNat, Nat.zero_mul, Nat.zero_add, Nat.mod_eq_of_lt h] at hread

theorem takes_u8 (n : UInt8) : Takes site.u8 [n] n := by
  have h := (site.takes_nat 1 n.toNat n.toNat_lt).map (f := UInt8.ofNat)
  have hbytes : Bytes.ofNat 1 n.toNat = [n] := by simp [Bytes.ofNat_succ, Bytes.ofNat_zero]
  rwa [UInt8.ofNat_toNat, hbytes] at h

theorem takes_u16 (n : UInt16) : Takes site.u16 (Bytes.u16 n) n := by
  have h := (site.takes_nat 2 n.toNat n.toNat_lt).map (f := UInt16.ofNat)
  rwa [UInt16.ofNat_toNat] at h

theorem takes_i8 (n : Int8) : Takes site.i8 (Bytes.i8 n) n := (site.takes_u8 n.toUInt8).map

theorem takes_i16 (n : Int16) : Takes site.i16 (Bytes.i16 n) n := (site.takes_u16 n.toUInt16).map

theorem takes_i32 (n : Int32) : Takes site.i32 (Bytes.i32 n) n := by
  have h := (site.takes_nat 4 n.toUInt32.toNat n.toUInt32.toNat_lt).map
    (f := fun n => (UInt32.ofNat n).toInt32)
  rwa [UInt32.ofNat_toNat] at h

theorem takes_index (index : PoolIndex) : Takes site.index index.bytes index :=
  (site.takes_u16 index.value).map

theorem takes_valueInsn {opcode : UInt8} {operands : Bytes} {insn : Insn}
    (hop : opcode.toNat ≤ 0x98) (h : Takes (site.valueInsn opcode.toNat) operands insn) :
    Takes site.decoded (opcode :: operands) (.insn insn) := by
  refine (site.takes_u8 opcode).bind ?_
  dsimp only
  rw [if_pos hop]
  exact h.map

theorem takes_objectInsn {opcode : UInt8} {operands : Bytes} {insn : Insn}
    (hop : 0xB2 ≤ opcode.toNat ∧ opcode.toNat ≤ 0xC5 ∧ opcode.toNat ≠ 0xBF)
    (h : Takes (site.objectInsn opcode.toNat) operands insn) :
    Takes site.decoded (opcode :: operands) (.insn insn) := by
  refine (site.takes_u8 opcode).bind ?_
  dsimp only
  rw [if_neg (by omega), if_pos hop]
  exact h.map

theorem takes_branch {opcode : UInt8} {operands : Bytes} {branch : Branch Nat}
    (hop : 0x98 < opcode.toNat ∧ (opcode.toNat < 0xB2 ∨ 0xC5 < opcode.toNat ∨ opcode.toNat = 0xBF))
    (h : Takes (site.branch opcode) operands branch) :
    Takes site.decoded (opcode :: operands) (.branch branch) := by
  refine (site.takes_u8 opcode).bind ?_
  dsimp only
  rw [if_neg (by omega), if_neg (by omega)]
  exact h.map

/-- The three forms of an access to a local slot. -/
theorem takes_slotBytes {short long : UInt8} {insn : UInt16 → Insn} (slot : UInt16)
    (hshort : ∀ n ≤ 3, Takes site.decoded [short + UInt8.ofNat n] (.insn (insn (UInt16.ofNat n))))
    (hbyte : ∀ n : UInt8, Takes site.decoded [long, n] (.insn (insn n.toUInt16)))
    (hlong : Takes site.decoded (0xC4 :: long :: Bytes.u16 slot) (.insn (insn slot))) :
    Takes site.decoded (Insn.slotBytes short long slot) (.insn (insn slot)) := by
  unfold Insn.slotBytes
  split
  · next hle =>
    have hread := hshort slot.toNat (UInt16.le_iff_toNat_le.1 hle)
    rw [UInt16.ofNat_toNat] at hread
    exact hread
  · split
    · next hle =>
      have hread := hbyte slot.toUInt8
      rwa [UInt16.toUInt16_toUInt8 hle] at hread
    · exact hlong

set_option maxRecDepth 4000 in
theorem takes_load (kind : SlotKind) (slot : UInt16) :
    Takes site.decoded (Insn.load kind slot).bytes (.insn (.load kind slot)) := by
  refine site.takes_slotBytes slot (fun n hn => ?_) (fun n => ?_) ?_
  · interval_cases n <;> cases kind <;> exact site.takes_valueInsn (by decide) (.pure _)
  · cases kind <;> exact site.takes_valueInsn (by decide) (site.takes_u8 n).map
  · cases kind <;> exact site.takes_objectInsn (by decide)
      ((site.takes_u8 _).bind (site.takes_u16 slot).map)

set_option maxRecDepth 4000 in
theorem takes_store (kind : SlotKind) (slot : UInt16) :
    Takes site.decoded (Insn.store kind slot).bytes (.insn (.store kind slot)) := by
  refine site.takes_slotBytes slot (fun n hn => ?_) (fun n => ?_) ?_
  · interval_cases n <;> cases kind <;> exact site.takes_valueInsn (by decide) (.pure _)
  · cases kind <;> exact site.takes_valueInsn (by decide) (site.takes_u8 n).map
  · cases kind <;> exact site.takes_objectInsn (by decide)
      ((site.takes_u8 _).bind (site.takes_u16 slot).map)

theorem takes_loadConstant (index : PoolIndex) :
    Takes site.decoded (Insn.loadConstant index).bytes (.insn (.loadConstant index)) := by
  unfold Insn.bytes
  dsimp only
  split
  · next hbyte =>
    have hread := (site.takes_u8 index.value.toUInt8).map
      (f := fun value => Insn.loadConstant ⟨value.toUInt16⟩)
    rw [UInt16.toUInt16_toUInt8 hbyte] at hread
    exact site.takes_valueInsn (by decide) hread
  · exact site.takes_valueInsn (by decide) (site.takes_index index).map

theorem takes_increment (slot : UInt16) (amount : Int16) :
    Takes site.decoded (Insn.increment slot amount).bytes (.insn (.increment slot amount)) := by
  unfold Insn.bytes
  dsimp only
  split
  · next hshort =>
    have hread : Takes (site.valueInsn 0x84) (slot.toUInt8 :: Bytes.i8 amount.toInt8)
        (.increment slot.toUInt8.toUInt16 amount.toInt8.toInt16) :=
      (site.takes_u8 slot.toUInt8).bind (site.takes_i8 amount.toInt8).map
    rw [UInt16.toUInt16_toUInt8 hshort.1, Int16.toInt16_toInt8 hshort.2] at hread
    exact site.takes_valueInsn (by decide) hread
  · exact site.takes_objectInsn (by decide)
      ((site.takes_u8 0x84).bind ((site.takes_u16 slot).bind (site.takes_i16 amount).map))

set_option maxRecDepth 4000 in
/-- Every instruction is read back from its bytes. -/
theorem takes_insn (insn : Insn) : Takes site.decoded insn.bytes (.insn insn) := by
  cases insn with
  | load kind slot => exact site.takes_load kind slot
  | store kind slot => exact site.takes_store kind slot
  | loadConstant index => exact site.takes_loadConstant index
  | increment slot amount => exact site.takes_increment slot amount
  | nop => exact site.takes_valueInsn (by decide) (.pure _)
  | constNull => exact site.takes_valueInsn (by decide) (.pure _)
  | constInt value =>
    obtain ⟨n, hn⟩ := value
    interval_cases n <;> exact site.takes_valueInsn (Nat.le_of_ble_eq_true rfl) (.pure _)
  | constLong value =>
    obtain ⟨n, hn⟩ := value
    interval_cases n <;> exact site.takes_valueInsn (Nat.le_of_ble_eq_true rfl) (.pure _)
  | constFloat value =>
    obtain ⟨n, hn⟩ := value
    interval_cases n <;> exact site.takes_valueInsn (Nat.le_of_ble_eq_true rfl) (.pure _)
  | constDouble value =>
    obtain ⟨n, hn⟩ := value
    interval_cases n <;> exact site.takes_valueInsn (Nat.le_of_ble_eq_true rfl) (.pure _)
  | pushByte value => exact site.takes_valueInsn (by decide) (site.takes_i8 value).map
  | pushShort value => exact site.takes_valueInsn (by decide) (site.takes_i16 value).map
  | loadWideConstant index => exact site.takes_valueInsn (by decide) (site.takes_index index).map
  | arrayLoad kind => cases kind <;> exact site.takes_valueInsn (by decide) (.pure _)
  | arrayStore kind => cases kind <;> exact site.takes_valueInsn (by decide) (.pure _)
  | stack op => cases op <;> exact site.takes_valueInsn (by decide) (.pure _)
  | arithmetic op kind =>
    cases op <;> cases kind <;> exact site.takes_valueInsn (by decide) (.pure _)
  | negate kind => cases kind <;> exact site.takes_valueInsn (by decide) (.pure _)
  | shift op ofLong =>
    cases op <;> cases ofLong <;> exact site.takes_valueInsn (by decide) (.pure _)
  | bitwise op ofLong =>
    cases op <;> cases ofLong <;> exact site.takes_valueInsn (by decide) (.pure _)
  | convert conversion =>
    cases conversion <;> exact site.takes_valueInsn (by decide) (.pure _)
  | compareLong => exact site.takes_valueInsn (by decide) (.pure _)
  | compareFloat ofDouble mode =>
    cases ofDouble <;> cases mode <;> exact site.takes_valueInsn (by decide) (.pure _)
  | field access index =>
    cases access <;> exact site.takes_objectInsn (by decide) (site.takes_index index).map
  | invoke kind index =>
    cases kind with
    | interface slots =>
      exact site.takes_objectInsn (by decide)
        ((site.takes_index index).bind ((site.takes_u8 slots).bind ((site.takes_u8 0).skip (.pure _))))
    | _ => exact site.takes_objectInsn (by decide) (site.takes_index index).map
  | invokeDynamic index =>
    exact site.takes_objectInsn (by decide)
      ((site.takes_index index).bind ((site.takes_u16 0).skip (.pure _)))
  | new index => exact site.takes_objectInsn (by decide) (site.takes_index index).map
  | newArray element =>
    cases element <;> exact site.takes_objectInsn (by decide) ((site.takes_u8 _).bind (.pure _))
  | newRefArray index => exact site.takes_objectInsn (by decide) (site.takes_index index).map
  | newMultiArray index dimensions =>
    exact site.takes_objectInsn (by decide)
      ((site.takes_index index).bind (site.takes_u8 dimensions).map)
  | arrayLength => exact site.takes_objectInsn (by decide) (.pure _)
  | checkCast index => exact site.takes_objectInsn (by decide) (site.takes_index index).map
  | instanceOf index => exact site.takes_objectInsn (by decide) (site.takes_index index).map
  | monitorEnter => exact site.takes_objectInsn (by decide) (.pure _)
  | monitorExit => exact site.takes_objectInsn (by decide) (.pure _)

section Jumps

variable {site} {labels : LabelTable} {label : Label} {target : Nat}

theorem takes_target (hlt : target < site.length) :
    Takes (site.target ((target : Int) - site.start)) [] target := by
  have htarget : (site.start : Int) + ((target : Int) - site.start) = target := by omega
  unfold Site.target
  rw [htarget]
  have hinside : 0 ≤ (target : Int) ∧ (target : Int) < site.length := by omega
  dsimp only
  rw [if_pos hinside]
  exact .pure _

/-- A short distance is read back as the offset that it leads to. -/
theorem takes_target16 (hlt : target < site.length)
    (hshort : isShortDistance ((target : Int) - site.start) = true) :
    Takes site.target16 (Bytes.i16 (Int16.ofInt ((target : Int) - site.start))) target := by
  have hrange : -32768 ≤ (target : Int) - site.start ∧ (target : Int) - site.start ≤ 32767 :=
    of_decide_eq_true hshort
  have hdistance : (Int16.ofInt ((target : Int) - site.start)).toInt = (target : Int) - site.start :=
    Int16.toInt_ofInt_of_le hrange.1 (by omega)
  have hread : Takes (site.target ((target : Int) - site.start)) [] target := takes_target hlt
  rw [← hdistance] at hread
  have hall : Takes site.target16 (Bytes.i16 (Int16.ofInt ((target : Int) - site.start)) ++ [])
      target := (site.takes_i16 _).bind hread
  rwa [List.append_nil] at hall

theorem takes_target32 (hlt : target < site.length) (hstart : site.start ≤ 65535)
    (hlength : site.length ≤ 65535) :
    Takes site.target32 (Bytes.i32 (Int32.ofInt ((target : Int) - site.start))) target := by
  have hdistance : (Int32.ofInt ((target : Int) - site.start)).toInt = (target : Int) - site.start :=
    Int32.toInt_ofInt_of_le (by omega) (by omega)
  have hread : Takes (site.target ((target : Int) - site.start)) [] target := takes_target hlt
  rw [← hdistance] at hread
  have hall : Takes site.target32 (Bytes.i32 (Int32.ofInt ((target : Int) - site.start)) ++ [])
      target := (site.takes_i32 _).bind hread
  rwa [List.append_nil] at hall

end Jumps

/-- A list of operands, each with its own bytes. -/
theorem takes_repeatOnto {item : CodeReader α} {chunks : List Bytes} {values : List α}
    (h : List.Forall₂ (fun chunk value => Takes item chunk value) chunks values) (found : List α) :
    Takes (repeatOnto item values.length found) chunks.flatten (found.reverse ++ values) := by
  induction h generalizing found with
  | nil =>
    intro offset rest
    simp [repeatOnto]
  | @cons chunk value chunks values hfirst _ ih =>
    intro offset rest
    have hrest := ih (value :: found) (offset + chunk.length) rest
    rw [List.length_cons, repeatOnto, List.flatten_cons, List.append_assoc,
      hfirst offset (chunks.flatten ++ rest)]
    dsimp only
    rw [hrest, List.length_append, Nat.add_assoc, List.reverse_cons, List.append_assoc]
    rfl

end Site

namespace LabelTable

variable {labels : LabelTable} {label : Label} {offset : Nat}

theorem offset_eq_ok {target : Nat} :
    labels.offset label = .ok target ↔ labels.offset? label = some target := by
  unfold LabelTable.offset
  cases labels.offset? label <;> simp

theorem distance_eq_ok {distance : Int} (h : labels.distance offset label = .ok distance) :
    ∃ target : Nat, labels.offset label = .ok target ∧ distance = (target : Int) - offset := by
  obtain ⟨target, ht, h⟩ := except_bind_eq_ok.1 h
  cases h
  exact ⟨target, ht, rfl⟩

theorem shortJump_eq_ok {opcode : UInt8} {content : Bytes}
    (h : labels.shortJump offset opcode label = .ok content) :
    ∃ target : Nat, labels.offset label = .ok target ∧
      isShortDistance ((target : Int) - offset) = true ∧
      content = opcode :: Bytes.i16 (Int16.ofInt ((target : Int) - offset)) := by
  obtain ⟨distance, hd, h⟩ := except_bind_eq_ok.1 h
  obtain ⟨target, ht, rfl⟩ := distance_eq_ok hd
  by_cases hshort : isShortDistance ((target : Int) - offset) = true
  · rw [if_pos hshort] at h
    cases h
    exact ⟨target, ht, hshort, rfl⟩
  · rw [if_neg hshort] at h
    cases h

theorem longJump_eq_ok {content : Bytes} (h : labels.longJump offset label = .ok content) :
    ∃ target : Nat, labels.offset label = .ok target ∧
      content = Bytes.i32 (Int32.ofInt ((target : Int) - offset)) := by
  obtain ⟨distance, hd, h⟩ := except_bind_eq_ok.1 h
  obtain ⟨target, ht, rfl⟩ := distance_eq_ok hd
  cases h
  exact ⟨target, ht, rfl⟩

end LabelTable

namespace Branch

/-- A table switch has a target, and its last number is one. -/
def Sized {T : Type} : Branch T → Prop
  | .tableSwitch _ low targets => targets ≠ [] ∧ low.toInt + targets.length ≤ 2147483648
  | _ => True

section Bytes

variable {labels : LabelTable} {site : Site}

theorem takes_shortJump (make : Nat → Branch Nat) {label : Label} {opcode : UInt8}
    {content : ClassWeave.Bytes} (h : labels.shortJump site.start opcode label = .ok content)
    (hinside : ∀ target, labels.offset label = .ok target → target < site.length)
    (hop : 0x98 < opcode.toNat ∧ (opcode.toNat < 0xB2 ∨ 0xC5 < opcode.toNat ∨ opcode.toNat = 0xBF))
    (hread : site.branch opcode = site.target16 >>= fun target => Pure.pure (make target)) :
    ∃ target, labels.offset label = .ok target ∧
      Takes site.decoded content (.branch (make target)) := by
  obtain ⟨target, ht, hshort, rfl⟩ := LabelTable.shortJump_eq_ok h
  refine ⟨target, ht, site.takes_branch hop ?_⟩
  rw [hread]
  exact (Site.takes_target16 (hinside target ht) hshort).map

/-- Targets in a table are read back one by one. -/
theorem takes_longJumps (hstart : site.start ≤ 65535) (hlength : site.length ≤ 65535)
    {targets : List Label} {jumps : List ClassWeave.Bytes}
    (h : targets.mapM (labels.longJump site.start) = .ok jumps)
    (hinside : ∀ label ∈ targets, ∀ target, labels.offset label = .ok target → target < site.length) :
    ∃ offsets, targets.mapM labels.offset = .ok offsets ∧
      List.Forall₂ (fun chunk value => Takes site.target32 chunk value) jumps offsets := by
  rw [mapM_eq_ok] at h
  induction h with
  | nil => exact ⟨[], rfl, .nil⟩
  | @cons label chunk rest chunks hfirst _ ih =>
    obtain ⟨offsets, hoffsets, htakes⟩ := ih fun l hl => hinside l (List.mem_cons_of_mem _ hl)
    obtain ⟨target, ht, rfl⟩ := LabelTable.longJump_eq_ok hfirst
    refine ⟨target :: offsets, mapM_eq_ok.2 (.cons ht (mapM_eq_ok.1 hoffsets)), .cons ?_ htakes⟩
    exact Site.takes_target32 (hinside label List.mem_cons_self target ht) hstart hlength

/-- The last number of a table is exact, since the sum in front of the subtraction may be too large by one only. -/
theorem toInt_high {low : Int32} {count : Nat} (hpos : 0 < count)
    (hbound : low.toInt + count ≤ 2147483648) :
    (low + Int32.ofNat count - 1).toInt = low.toInt + count - 1 := by
  have hlow := low.le_toInt
  have hone : (1 : Int32).toInt = 1 := rfl
  rw [Int32.toInt_sub, Int32.toInt_add, Int32.toInt_ofNat', hone, Int32.size,
    Int.add_bmod_bmod, Int.bmod_sub_bmod]
  exact Int.bmod_eq_of_le (by omega) (by omega)

/-- A table with its bounds is read back from the jumps of its targets. -/
theorem takes_tableSwitch (hstart : site.start ≤ 65535) (hlength : site.length ≤ 65535)
    {default : Label} {low : Int32} {targets : List Label} {content : ClassWeave.Bytes}
    (sized : (tableSwitch default low targets).Sized)
    (h : (tableSwitch default low targets).bytes labels site.start false = .ok content)
    (hinside : ∀ label ∈ default :: targets, ∀ target, labels.offset label = .ok target →
      target < site.length) :
    ∃ found, (tableSwitch default low targets).mapM labels.offset = .ok found ∧
      Takes site.decoded content (.branch found) := by
  obtain ⟨first, hfirst, h⟩ := except_bind_eq_ok.1 h
  obtain ⟨jumps, hjumps, h⟩ := except_bind_eq_ok.1 h
  cases h
  obtain ⟨target, ht, rfl⟩ := LabelTable.longJump_eq_ok hfirst
  have htarget := Site.takes_target32 (hinside default List.mem_cons_self target ht) hstart hlength
  obtain ⟨offsets, hoffsets, htakes⟩ := takes_longJumps hstart hlength hjumps
    fun label hl => hinside label (List.mem_cons_of_mem _ hl)
  refine ⟨.tableSwitch target low offsets, ?_, ?_⟩
  · exact except_bind_eq_ok.2 ⟨target, ht, except_bind_eq_ok.2 ⟨offsets, hoffsets, rfl⟩⟩
  · have hsame : offsets.length = targets.length := (mapM_eq_ok.1 hoffsets).length_eq.symm
    have hpos : 0 < targets.length := List.length_pos_iff.2 sized.1
    have hhigh := toInt_high hpos sized.2
    have hnumber : ((low + Int32.ofNat targets.length - 1).toInt - low.toInt + 1).toNat =
        offsets.length := by omega
    have hordered : ¬low + Int32.ofNat targets.length - 1 < low := by
      rw [Int32.lt_iff_toInt_lt]
      omega
    have htable := Site.takes_repeatOnto htakes []
    rw [← hnumber] at htable
    have hpadding := site.takes_bytes (List.replicate (switchPadding site.start) 0)
    rw [List.length_replicate] at hpadding
    simp only [List.cons_append, List.append_assoc]
    refine site.takes_branch (by decide) (hpadding.skip (htarget.bind
      ((site.takes_i32 low).bind ((site.takes_i32 _).bind ?_))))
    rw [if_neg hordered]
    exact htable.map

theorem takes_pairs (hstart : site.start ≤ 65535) (hlength : site.length ≤ 65535)
    {targets : List (Int32 × Label)} {pairs : List ClassWeave.Bytes}
    (h : (targets.mapM fun pair => do
      return Bytes.i32 pair.1 ++ (← labels.longJump site.start pair.2)) = .ok pairs)
    (hinside : ∀ label ∈ targets.map Prod.snd, ∀ target, labels.offset label = .ok target →
      target < site.length) :
    ∃ found, (targets.mapM fun pair => do return (pair.1, ← labels.offset pair.2)) = .ok found ∧
      List.Forall₂ (fun chunk value => Takes (do
        let key ← site.i32
        return (key, ← site.target32)) chunk value) pairs found := by
  rw [mapM_eq_ok] at h
  induction h with
  | nil => exact ⟨[], rfl, .nil⟩
  | @cons pair chunk rest chunks hfirst _ ih =>
    obtain ⟨found, hfound, htakes⟩ := ih fun l hl => hinside l (List.mem_cons_of_mem _ hl)
    obtain ⟨jump, hjump, h⟩ := except_bind_eq_ok.1 hfirst
    cases h
    obtain ⟨target, ht, rfl⟩ := LabelTable.longJump_eq_ok hjump
    have htarget := Site.takes_target32 (hinside pair.2 List.mem_cons_self target ht) hstart hlength
    refine ⟨(pair.1, target) :: found, mapM_eq_ok.2 (.cons ?_ (mapM_eq_ok.1 hfound)),
      .cons ((site.takes_i32 pair.1).bind htarget.map) htakes⟩
    exact except_bind_eq_ok.2 ⟨target, ht, rfl⟩

theorem length_i32 (n : Int32) : (Bytes.i32 n).length = 4 := Bytes.length_ofNat 4 _

theorem length_longJumps {targets : List Label} {jumps : List ClassWeave.Bytes} {offset : Nat}
    (h : targets.mapM (labels.longJump offset) = .ok jumps) :
    jumps.flatten.length = 4 * targets.length := by
  rw [mapM_eq_ok] at h
  induction h with
  | nil => rfl
  | @cons label chunk rest chunks hfirst _ ih =>
    obtain ⟨target, -, rfl⟩ := LabelTable.longJump_eq_ok hfirst
    rw [List.flatten_cons, List.length_append, length_i32, ih, List.length_cons]
    omega

/-- Each pair takes eight bytes. -/
theorem length_pairs {targets : List (Int32 × Label)} {pairs : List ClassWeave.Bytes} {offset : Nat}
    (h : (targets.mapM fun pair => do
      return Bytes.i32 pair.1 ++ (← labels.longJump offset pair.2)) = .ok pairs) :
    pairs.flatten.length = 8 * targets.length := by
  rw [mapM_eq_ok] at h
  induction h with
  | nil => rfl
  | @cons pair chunk rest chunks hfirst _ ih =>
    obtain ⟨jump, hjump, h⟩ := except_bind_eq_ok.1 hfirst
    cases h
    obtain ⟨target, -, rfl⟩ := LabelTable.longJump_eq_ok hjump
    rw [List.flatten_cons, List.length_append, List.length_append, length_i32, length_i32, ih,
      List.length_cons]
    omega

/-- Keys and targets are read back pair by pair. -/
theorem takes_lookupSwitch (hstart : site.start ≤ 65535) (hlength : site.length ≤ 65535)
    {default : Label} {targets : List (Int32 × Label)} {content : ClassWeave.Bytes}
    (h : (lookupSwitch default targets).bytes labels site.start false = .ok content)
    (hcontent : content.length ≤ 65535)
    (hinside : ∀ label ∈ default :: targets.map Prod.snd, ∀ target, labels.offset label = .ok target →
      target < site.length) :
    ∃ found, (lookupSwitch default targets).mapM labels.offset = .ok found ∧
      Takes site.decoded content (.branch found) := by
  obtain ⟨first, hfirst, h⟩ := except_bind_eq_ok.1 h
  obtain ⟨pairs, hpairs, h⟩ := except_bind_eq_ok.1 h
  cases h
  obtain ⟨target, ht, rfl⟩ := LabelTable.longJump_eq_ok hfirst
  have htarget := Site.takes_target32 (hinside default List.mem_cons_self target ht) hstart hlength
  obtain ⟨found, hfound, htakes⟩ := takes_pairs hstart hlength hpairs
    fun label hl => hinside label (List.mem_cons_of_mem _ hl)
  refine ⟨.lookupSwitch target found, ?_, ?_⟩
  · exact except_bind_eq_ok.2 ⟨target, ht, except_bind_eq_ok.2 ⟨found, hfound, rfl⟩⟩
  · have hsame : found.length = targets.length := (mapM_eq_ok.1 hfound).length_eq.symm
    have hbound : targets.length ≤ 65535 := by
      rw [List.length_append, length_pairs hpairs] at hcontent
      omega
    have hcount : (Int32.ofNat targets.length).toInt = targets.length :=
      Int32.toInt_ofNat_of_lt (by omega)
    have hnumber : (Int32.ofNat targets.length).toInt.toNat = found.length := by omega
    have hpositive : ¬Int32.ofNat targets.length < 0 := by
      rw [Int32.lt_iff_toInt_lt, hcount]
      exact Int.not_lt.2 (Int.natCast_nonneg _)
    have htable := Site.takes_repeatOnto htakes []
    rw [← hnumber] at htable
    have hpadding := site.takes_bytes (List.replicate (switchPadding site.start) 0)
    rw [List.length_replicate] at hpadding
    simp only [List.cons_append, List.append_assoc]
    refine site.takes_branch (by decide) (hpadding.skip (htarget.bind
      ((site.takes_i32 _).bind ?_)))
    rw [if_neg hpositive]
    exact htable.map

set_option maxRecDepth 4000 in
/-- Every branch that stays inside the code is read back from its bytes, with offsets for labels. -/
theorem takes_bytes (hstart : site.start ≤ 65535) (hlength : site.length ≤ 65535)
    {branch : Branch Label} {wide : Bool} {content : ClassWeave.Bytes} (sized : branch.Sized)
    (h : branch.bytes labels site.start wide = .ok content) (hcontent : content.length ≤ 65535)
    (hinside : ∀ label ∈ branch.jumpTargets, ∀ target, labels.offset label = .ok target →
      target < site.length) :
    ∃ found, branch.mapM labels.offset = .ok found ∧
      Takes site.decoded content (.branch found) := by
  have mapped : ∀ (make : Nat → Branch Nat) (label : Label) (target : Nat),
      labels.offset label = .ok target →
      (do return make (← labels.offset label) : Except ClassError (Branch Nat)) = .ok (make target) :=
    fun make label target ht => except_bind_eq_ok.2 ⟨target, ht, rfl⟩
  cases branch with
  | ifZero comparison label =>
    obtain ⟨target, ht, hread⟩ := takes_shortJump (.ifZero comparison) h
      (hinside label (List.mem_singleton.2 rfl)) (by cases comparison <;> decide)
      (by cases comparison <;> rfl)
    exact ⟨_, mapped (.ifZero comparison) label target ht, hread⟩
  | ifInts comparison label =>
    obtain ⟨target, ht, hread⟩ := takes_shortJump (.ifInts comparison) h
      (hinside label (List.mem_singleton.2 rfl)) (by cases comparison <;> decide)
      (by cases comparison <;> rfl)
    exact ⟨_, mapped (.ifInts comparison) label target ht, hread⟩
  | ifRefs equality label =>
    obtain ⟨target, ht, hread⟩ := takes_shortJump (.ifRefs equality) h
      (hinside label (List.mem_singleton.2 rfl)) (by cases equality <;> decide)
      (by cases equality <;> rfl)
    exact ⟨_, mapped (.ifRefs equality) label target ht, hread⟩
  | ifNull equality label =>
    obtain ⟨target, ht, hread⟩ := takes_shortJump (.ifNull equality) h
      (hinside label (List.mem_singleton.2 rfl)) (by cases equality <;> decide)
      (by cases equality <;> rfl)
    exact ⟨_, mapped (.ifNull equality) label target ht, hread⟩
  | goto label =>
    cases wide with
    | false =>
      obtain ⟨target, ht, hread⟩ := takes_shortJump .goto h
        (hinside label (List.mem_singleton.2 rfl)) (by decide) rfl
      exact ⟨_, mapped .goto label target ht, hread⟩
    | true =>
      obtain ⟨jump, hjump, h⟩ := except_bind_eq_ok.1 h
      cases h
      obtain ⟨target, ht, rfl⟩ := LabelTable.longJump_eq_ok hjump
      have htarget := Site.takes_target32 (hinside label (List.mem_singleton.2 rfl) target ht)
        hstart hlength
      exact ⟨_, mapped .goto label target ht, site.takes_branch (by decide) htarget.map⟩
  | tableSwitch default low targets => exact takes_tableSwitch hstart hlength sized h hinside
  | lookupSwitch default targets => exact takes_lookupSwitch hstart hlength h hcontent hinside
  | «return» kind =>
    refine ⟨.return kind, rfl, ?_⟩
    cases kind with
    | none =>
      cases h
      exact site.takes_branch (by decide) (.pure _)
    | some kind =>
      cases h
      cases kind <;> exact site.takes_branch (by decide) (.pure _)
  | raise =>
    cases h
    exact ⟨.raise, rfl, site.takes_branch (by decide) (.pure _)⟩

end Bytes

end Branch

theorem Insn.length_bytes (insn : Insn) : insn.bytes.length = insn.width := by
  cases insn with
  | load kind slot =>
    unfold bytes slotBytes width
    dsimp only
    split
    · rfl
    · split <;> rfl
  | store kind slot =>
    unfold bytes slotBytes width
    dsimp only
    split
    · rfl
    · split <;> rfl
  | loadConstant index =>
    unfold bytes width
    dsimp only
    split <;> rfl
  | increment slot amount =>
    unfold bytes width
    dsimp only
    split <;> rfl
  | invoke kind index => cases kind <;> rfl
  | _ => rfl

theorem Branch.length_bytes {branch : Branch Label} {labels : LabelTable} {offset : Nat}
    {wide : Bool} {content : Bytes} (h : branch.bytes labels offset wide = .ok content) :
    content.length = branch.width offset wide := by
  have hshort : ∀ {opcode : UInt8} {label : Label},
      labels.shortJump offset opcode label = .ok content → content.length = 3 := by
    intro opcode label hjump
    obtain ⟨target, -, -, rfl⟩ := LabelTable.shortJump_eq_ok hjump
    rfl
  cases branch with
  | ifZero comparison label => exact hshort h
  | ifInts comparison label => exact hshort h
  | ifRefs equality label => exact hshort h
  | ifNull equality label => exact hshort h
  | goto label =>
    cases wide with
    | false => exact hshort h
    | true =>
      obtain ⟨jump, hjump, h⟩ := except_bind_eq_ok.1 h
      cases h
      obtain ⟨target, -, rfl⟩ := LabelTable.longJump_eq_ok hjump
      rfl
  | tableSwitch default low targets =>
    obtain ⟨first, hfirst, h⟩ := except_bind_eq_ok.1 h
    obtain ⟨jumps, hjumps, h⟩ := except_bind_eq_ok.1 h
    cases h
    obtain ⟨target, -, rfl⟩ := LabelTable.longJump_eq_ok hfirst
    simp only [List.length_append, List.length_cons, List.length_replicate, length_i32,
      length_longJumps hjumps, width]
    omega
  | lookupSwitch default targets =>
    obtain ⟨first, hfirst, h⟩ := except_bind_eq_ok.1 h
    obtain ⟨pairs, hpairs, h⟩ := except_bind_eq_ok.1 h
    cases h
    obtain ⟨target, -, rfl⟩ := LabelTable.longJump_eq_ok hfirst
    simp only [List.length_append, List.length_cons, List.length_replicate, length_i32,
      length_pairs hpairs, width]
    omega
  | «return» kind =>
    cases kind <;> cases h <;> rfl
  | raise =>
    cases h
    rfl

namespace Placed

variable {labels : LabelTable}

/-- The entry is the placed instruction, with offsets for labels. -/
def Resolved (labels : LabelTable) (placed : Placed) (entry : Nat × Decoded) : Prop :=
  entry.1 = placed.offset ∧ ((∃ insn, placed.node = .insn insn ∧ entry.2 = .insn insn) ∨
    ∃ branch found, placed.node = .branch branch ∧ branch.mapM labels.offset = .ok found ∧
      entry.2 = .branch found)

theorem length_bytes {placed : Placed} {content : Bytes}
    (h : placed.bytes labels = .ok content) : content.length = placed.width := by
  obtain ⟨node, wide, offset⟩ := placed
  cases node with
  | label l =>
    cases h
    rfl
  | insn insn =>
    cases h
    exact insn.length_bytes
  | branch branch => exact Branch.length_bytes h

theorem takes_bytes {placed : Placed} {content : Bytes} {length : Nat}
    (h : placed.bytes labels = .ok content) (hnode : placed.node.isLabel = false)
    (hstart : placed.offset + content.length ≤ length) (hlength : length ≤ 65535)
    (sized : ∀ branch, placed.node = .branch branch → branch.Sized)
    (hinside : ∀ label ∈ placed.node.jumpTargets, ∀ target, labels.offset label = .ok target →
      target < length) :
    ∃ decoded, placed.Resolved labels (placed.offset, decoded) ∧
      Takes (Site.mk placed.offset length).decoded content decoded := by
  obtain ⟨node, wide, offset⟩ := placed
  cases node with
  | label l => cases hnode
  | insn insn =>
    cases h
    exact ⟨.insn insn, ⟨rfl, .inl ⟨insn, rfl, rfl⟩⟩, Site.takes_insn _ insn⟩
  | branch branch =>
    dsimp only at hstart hinside
    have hbegin : (Site.mk offset length).start ≤ 65535 := by
      dsimp only
      omega
    obtain ⟨found, hfound, hread⟩ := Branch.takes_bytes hbegin hlength (sized branch rfl) h
      (by omega) hinside
    exact ⟨.branch found, ⟨rfl, .inr ⟨branch, found, rfl, hfound, rfl⟩⟩, hread⟩

end Placed

namespace Decoded

variable {labels : LabelTable} {length : Nat}

/-- The bytes are those of the instructions, one behind the other. -/
inductive Spelled (length : Nat) : Nat → List (Nat × Decoded) → Bytes → Prop where
  | stop (offset : Nat) : Spelled length offset [] []
  | next {offset after : Nat} {decoded : Decoded} {content : Bytes} {entries : List (Nat × Decoded)}
    {rest : Bytes} : Takes (Site.mk offset length).decoded content decoded → offset < after →
    content.length = after - offset → Spelled length after entries rest →
    Spelled length offset ((offset, decoded) :: entries) (content ++ rest)

theorem Spelled.readOnto {offset : Nat} {entries : List (Nat × Decoded)} {code : Bytes}
    (h : Spelled length offset entries code) {fuel : Nat} (hfuel : code.length ≤ fuel)
    (found : List (Nat × Decoded)) :
    readOnto length fuel found ⟨offset, code⟩ = .ok (found.reverse ++ entries) := by
  induction h generalizing fuel found with
  | stop offset => cases fuel <;> simp [Decoded.readOnto]
  | @next offset after decoded content entries rest hfirst hlt hlength _ ih =>
    rw [List.length_append] at hfuel
    obtain ⟨fuel, rfl⟩ : ∃ n, fuel = n + 1 := ⟨fuel - 1, by omega⟩
    have hnext := @ih fuel (by omega) ((offset, decoded) :: found)
    have hafter : after = offset + content.length := by omega
    unfold Decoded.readOnto
    split
    · next hnil =>
      have hempty := congrArg List.length hnil
      rw [List.length_append, List.length_nil] at hempty
      omega
    · rw [hfirst offset rest]
      dsimp only
      rw [← hafter, hnext, List.reverse_cons, List.append_assoc]
      rfl

/-- Laid-out nodes are written as their instructions, one behind the other. -/
theorem spelled_spread (hlength : length ≤ 65535) {flagged : List (Node × Bool)} {offset : Nat}
    {chunks : List Bytes} (h : (Layout.spread offset flagged).mapM (·.bytes labels) = .ok chunks)
    (hend : Layout.reach offset flagged = length)
    (sized : ∀ branch, .branch branch ∈ flagged.map Prod.fst → branch.Sized)
    (hinside : ∀ node ∈ flagged.map Prod.fst, ∀ label ∈ node.jumpTargets, ∀ target,
      labels.offset label = .ok target → target < length) :
    ∃ entries, List.Forall₂ (Placed.Resolved labels)
        ((Layout.spread offset flagged).filter fun placed => !placed.node.isLabel) entries ∧
      Spelled length offset entries chunks.flatten := by
  induction flagged generalizing offset chunks with
  | nil =>
    cases h
    exact ⟨[], .nil, .stop offset⟩
  | cons first rest ih =>
    obtain ⟨node, wide⟩ := first
    unfold Layout.spread at h ⊢
    obtain ⟨content, chunks, hcontent, hchunks, rfl⟩ :=
      (List.forall₂_cons_left_iff.1 (mapM_eq_ok.1 h))
    have hrest := mapM_eq_ok.2 hchunks
    obtain ⟨entries, hentries, hspelled⟩ := ih hrest hend
      (fun branch hm => sized branch (List.mem_cons_of_mem _ hm))
      fun node hm => hinside node (List.mem_cons_of_mem _ hm)
    have hwidth := Placed.length_bytes hcontent
    cases hnode : node.isLabel with
    | true =>
      have hempty : content = [] ∧ (Placed.mk node wide offset).width = 0 := by
        cases node with
        | label l =>
          cases hcontent
          exact ⟨rfl, rfl⟩
        | insn i => cases hnode
        | branch b => cases hnode
      rw [hempty.2, Nat.add_zero] at hspelled hentries
      rw [List.filter_cons_of_neg (by simp [hnode]), hempty.2, Nat.add_zero, hempty.1]
      exact ⟨entries, hentries, hspelled⟩
    | false =>
      have hle := Layout.le_reach (offset + (Placed.mk node wide offset).width) rest
      have hfits : offset + content.length ≤ length := by
        rw [hwidth, ← hend]
        exact hle
      have hpos : 0 < content.length := hwidth ▸ Placed.width_pos hnode
      obtain ⟨decoded, hresolved, htakes⟩ := Placed.takes_bytes hcontent hnode hfits hlength
        (fun branch hb => sized branch (hb ▸ List.mem_cons_self))
        (hinside node List.mem_cons_self)
      refine ⟨(offset, decoded) :: entries, ?_, .next htakes (by omega) (by omega) hspelled⟩
      rw [List.filter_cons_of_pos (by simp [hnode])]
      exact .cons hresolved hentries

theorem length_spread {flagged : List (Node × Bool)} {offset : Nat} {chunks : List Bytes}
    (h : (Layout.spread offset flagged).mapM (·.bytes labels) = .ok chunks) :
    offset + chunks.flatten.length = Layout.reach offset flagged := by
  induction flagged generalizing offset chunks with
  | nil =>
    cases h
    rfl
  | cons first rest ih =>
    obtain ⟨node, wide⟩ := first
    unfold Layout.spread at h
    obtain ⟨content, chunks, hcontent, hchunks, rfl⟩ :=
      (List.forall₂_cons_left_iff.1 (mapM_eq_ok.1 h))
    have hrest := ih (mapM_eq_ok.2 hchunks)
    rw [List.flatten_cons, List.length_append, Placed.length_bytes hcontent, Layout.reach, ← hrest]
    omega

/-- The bytes of a layout are as many as it says. -/
theorem length_bytes {layout : Layout} {nodes : List Node} {code : Bytes} (hof : layout.IsOf nodes)
    (h : layout.bytes = .ok code) : code.length = layout.length := by
  obtain ⟨chunks, hchunks, h⟩ := except_bind_eq_ok.1 h
  cases h
  obtain ⟨flagged, rfl, rfl⟩ := hof
  change chunks.flatten.length = Layout.reach 0 flagged
  rw [← length_spread hchunks, Nat.zero_add]

/-- All of a layout is read back from its bytes. -/
theorem readAll_bytes {layout : Layout} {nodes : List Node} {code : Bytes} (hof : layout.IsOf nodes)
    (h : layout.bytes = .ok code) (hlength : layout.length ≤ 65535)
    (sized : ∀ branch, .branch branch ∈ nodes → branch.Sized)
    (hinside : ∀ node ∈ nodes, ∀ label ∈ node.jumpTargets, ∀ target,
      layout.labels.offset label = .ok target → target < layout.length) :
    code.length = layout.length ∧ ∃ entries, readAll code = .ok entries ∧
      List.Forall₂ (Placed.Resolved layout.labels)
        (layout.nodes.filter fun placed => !placed.node.isLabel) entries := by
  have hcode := length_bytes hof h
  obtain ⟨chunks, hchunks, h⟩ := except_bind_eq_ok.1 h
  cases h
  obtain ⟨flagged, rfl, rfl⟩ := hof
  obtain ⟨entries, hentries, hspelled⟩ := spelled_spread hlength hchunks rfl sized hinside
  refine ⟨hcode, entries, ?_, hentries⟩
  unfold readAll
  rw [hcode]
  exact hspelled.readOnto (Nat.le_of_eq hcode) []

end Decoded

end ClassWeave
