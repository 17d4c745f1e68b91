import ClassWeave.Proofs.Format.ModifiedUtf8
import ClassWeave.Proofs.Format.Reading
import ClassWeave.Proofs.Pool.Growth

/-!
Reading back a constant pool. It is read back as it was if every text in it fits its two bytes of
length, and every text that was read does.
-/

namespace ClassWeave

theorem PoolIndex.reads_bytes (index : PoolIndex) : Reads PoolIndex.read index.bytes index :=
  (Reader.reads_u16 index.value).map

theorem PoolIndex.reads_bytes? {index : Option PoolIndex} (h : index ≠ some ⟨0⟩) :
    Reads PoolIndex.read? (PoolIndex.bytes? index) index := by
  cases index with
  | none => exact (PoolIndex.reads_bytes ⟨0⟩).map
  | some index =>
    have hvalue : index.value ≠ 0 := fun he => h (congrArg some (congrArg PoolIndex.mk he))
    have hread := (PoolIndex.reads_bytes index).map
      (f := fun index => if index.value = 0 then none else some index)
    rwa [if_neg hvalue] at hread

theorem PoolIndex.gives_read? : Gives PoolIndex.read? fun index => index ≠ some ⟨0⟩ := by
  refine .skip fun index => .pure ?_
  split
  · simp
  · next hne =>
    intro he
    cases he
    exact hne rfl

theorem HandleKind.reads_code (kind : HandleKind) : Reads HandleKind.read [kind.code] kind := by
  intro rest
  cases kind <;> rfl

namespace Constant

/-- The bytes of a text have a length that two bytes hold, and bytes that are kept as such are not
those of a text. -/
def Fits : Constant → Prop
  | .utf8 text => (ModifiedUtf8.encode text.toList).length < 65536
  | .undecodedUtf8 content => content.length < 65536 ∧ ModifiedUtf8.decode content = none
  | _ => True

instance (constant : Constant) : Decidable constant.Fits :=
  match constant with
  | .utf8 text => inferInstanceAs (Decidable ((ModifiedUtf8.encode text.toList).length < 65536))
  | .undecodedUtf8 content =>
    inferInstanceAs (Decidable (content.length < 65536 ∧ ModifiedUtf8.decode content = none))
  | .integer _ | .float _ | .long _ | .double _ | .classRef _ | .string _ | .fieldRef _ _
  | .methodRef _ _ _ | .nameAndType _ _ | .methodHandle _ _ | .methodType _ | .dynamic _ _
  | .invokeDynamic _ _ | .moduleRef _ | .packageRef _ => isTrue trivial

theorem reads_text {content : Bytes} (h : content.length < 65536) :
    Reads Constant.read (1 :: textBytes content) (ofTextBytes content) := by
  have hcount : (UInt16.ofNat content.length).toNat = content.length := by
    rw [UInt16.toNat_ofNat']
    exact Nat.mod_eq_of_lt h
  have hcontent := Reader.reads_bytes content
  rw [← hcount] at hcontent
  exact (Reader.reads_u8 1).bind ((Reader.reads_u16 _).bind hcontent.map)

theorem reads_bytes {constant : Constant} (h : constant.Fits) :
    Reads Constant.read constant.bytes constant := by
  cases constant with
  | utf8 text =>
    have hread := reads_text h
    simp only [ofTextBytes, ModifiedUtf8.decode_encode, String.ofList_toList] at hread
    exact hread
  | undecodedUtf8 content =>
    have hread := reads_text h.1
    unfold ofTextBytes at hread
    rw [h.2] at hread
    exact hread
  | integer value => exact (Reader.reads_u8 3).bind (Reader.reads_i32 value).map
  | float bits => exact (Reader.reads_u8 4).bind (Reader.reads_u32 bits).map
  | long value => exact (Reader.reads_u8 5).bind (Reader.reads_i64 value).map
  | double bits => exact (Reader.reads_u8 6).bind (Reader.reads_u64 bits).map
  | classRef name => exact (Reader.reads_u8 7).bind name.reads_bytes.map
  | string text => exact (Reader.reads_u8 8).bind text.reads_bytes.map
  | fieldRef owner member =>
    exact (Reader.reads_u8 9).bind (owner.reads_bytes.bind member.reads_bytes.map)
  | methodRef owner member ofInterface =>
    cases ofInterface with
    | false => exact (Reader.reads_u8 10).bind (owner.reads_bytes.bind member.reads_bytes.map)
    | true => exact (Reader.reads_u8 11).bind (owner.reads_bytes.bind member.reads_bytes.map)
  | nameAndType name descriptor =>
    exact (Reader.reads_u8 12).bind (name.reads_bytes.bind descriptor.reads_bytes.map)
  | methodHandle kind member =>
    exact (Reader.reads_u8 15).bind (kind.reads_code.bind member.reads_bytes.map)
  | methodType descriptor => exact (Reader.reads_u8 16).bind descriptor.reads_bytes.map
  | dynamic bootstrap member =>
    exact (Reader.reads_u8 17).bind ((Reader.reads_u16 bootstrap).bind member.reads_bytes.map)
  | invokeDynamic bootstrap member =>
    exact (Reader.reads_u8 18).bind ((Reader.reads_u16 bootstrap).bind member.reads_bytes.map)
  | moduleRef name => exact (Reader.reads_u8 19).bind name.reads_bytes.map
  | packageRef name => exact (Reader.reads_u8 20).bind name.reads_bytes.map

/-- A text that was read is written with the length it was read with. -/
theorem fits_ofTextBytes {content : Bytes} (h : content.length < 65536) :
    (ofTextBytes content).Fits := by
  unfold ofTextBytes
  split
  · next text hdecode =>
    unfold Fits
    dsimp only
    rw [String.toList_ofList, ModifiedUtf8.encode_decode hdecode]
    exact h
  · next hdecode => exact ⟨h, hdecode⟩

theorem gives_read : Gives Constant.read Fits := by
  refine .skip fun tag => ?_
  split
  · refine .skip fun length input constant rest h => ?_
    obtain ⟨content, middle, hcontent, hc⟩ := stateT_bind_eq_ok.1 h
    obtain ⟨rfl, -⟩ := stateT_pure_eq_ok.1 hc
    have hlength := Reader.gives_bytes length.toNat input content middle hcontent
    exact fits_ofTextBytes (hlength ▸ length.toNat_lt)
  all_goals first
    | exact .throw _
    | exact .skip fun _ => .pure trivial
    | exact .skip fun _ => .skip fun _ => .pure trivial

theorem length_slots (constant : Constant) : constant.slots.length = constant.width := by
  unfold slots width
  split <;> rfl

theorem width_pos (constant : Constant) : 0 < constant.width := by
  unfold width
  split <;> decide

end Constant

namespace ConstantPool

theorem toList_push {pool : ConstantPool} {constant : Constant}
    (room : pool.size + constant.width ≤ 65535) :
    (pool.push constant room).slots.toList = pool.slots.toList ++ constant.slots :=
  toList_extend pool.slots constant

/-- Constants are read onto a pool until it has as many slots as they take. -/
theorem readOnto_bytes {limit : Nat} (limit_le : limit ≤ 65535) {constants : List Constant}
    (fits : ∀ constant ∈ constants, constant.Fits) {pool : ConstantPool} {fuel : Nat}
    (hlimit : pool.size + (constants.flatMap Constant.slots).length = limit)
    (hfuel : limit - pool.size ≤ fuel) :
    ∃ found, Reads (readOnto limit limit_le fuel pool) (constants.flatMap Constant.bytes) found ∧
      found.slots.toList = pool.slots.toList ++ constants.flatMap Constant.slots := by
  induction constants generalizing pool fuel with
  | nil =>
    refine ⟨pool, fun rest => ?_, by simp⟩
    have hfull : ¬pool.size < limit := by
      rw [List.flatMap_nil, List.length_nil] at hlimit
      omega
    cases fuel with
    | zero => rfl
    | succ fuel =>
      unfold readOnto
      rw [if_neg hfull]
      rfl
  | cons constant rest ih =>
    rw [List.flatMap_cons, List.length_append, constant.length_slots] at hlimit
    have hwidth := constant.width_pos
    have room : pool.size + constant.width ≤ limit := by omega
    obtain ⟨fuel, rfl⟩ : ∃ n, fuel = n + 1 := ⟨fuel - 1, by omega⟩
    have hsize : (pool.push constant (Nat.le_trans room limit_le)).size =
        pool.size + constant.width := size_extend pool.slots constant
    have hrest : (pool.push constant (Nat.le_trans room limit_le)).size +
        (rest.flatMap Constant.slots).length = limit := by omega
    have hleft : limit - (pool.push constant (Nat.le_trans room limit_le)).size ≤ fuel := by omega
    obtain ⟨found, hread, hslots⟩ :=
      ih (fun c hc => fits c (List.mem_cons_of_mem _ hc)) hrest hleft
    refine ⟨found, fun tail => ?_, ?_⟩
    · have hconstant := Constant.reads_bytes (fits constant List.mem_cons_self)
        (rest.flatMap Constant.bytes ++ tail)
      rw [List.flatMap_cons, List.append_assoc]
      unfold readOnto
      rw [if_pos (by omega), hconstant]
      dsimp only
      rw [dif_pos room]
      exact hread tail
    · rw [hslots, toList_push, List.flatMap_cons, List.append_assoc]

/-- The pool is read back with the same slots. -/
theorem reads_bytes {pool : ConstantPool} (fits : ∀ constant ∈ pool.constants, constant.Fits) :
    ∃ found, Reads ConstantPool.read pool.bytes found ∧ found.slots = pool.slots := by
  have hcount : (UInt16.ofNat pool.size).toNat = pool.size := by
    rw [UInt16.toNat_ofNat']
    exact Nat.mod_eq_of_lt (Nat.lt_of_le_of_lt pool.size_le (by decide))
  have hlength : pool.size = 1 + (pool.constants.flatMap Constant.slots).length := by
    unfold size
    rw [← Array.length_toList, pool.layout, List.length_cons, Nat.add_comm]
    rfl
  have hne : ¬UInt16.ofNat pool.size = 0 := fun he => by
    rw [he] at hcount
    have : pool.size = 0 := hcount.symm
    omega
  have hlimit : empty.size + (pool.constants.flatMap Constant.slots).length =
      (UInt16.ofNat pool.size).toNat := by
    rw [hcount, hlength]
    rfl
  obtain ⟨found, hread, hslots⟩ := readOnto_bytes
    (Nat.le_of_lt_succ (UInt16.ofNat pool.size).toNat_lt) fits hlimit (Nat.sub_le _ _)
  refine ⟨found, ?_, ?_⟩
  · refine (Reader.reads_u16 _).bind ?_
    rw [if_neg hne]
    exact hread
  · apply Array.toList_inj.1
    rw [hslots, pool.layout]
    rfl

theorem constants_push {pool : ConstantPool} {constant : Constant}
    (room : pool.size + constant.width ≤ 65535) :
    (pool.push constant room).constants = pool.constants ++ [constant] := by
  unfold constants
  rw [toList_push, List.filterMap_append]
  congr 1
  unfold Constant.slots
  split <;> rfl

theorem fits_readOnto {limit : Nat} {limit_le : limit ≤ 65535} {fuel : Nat} {pool found : ConstantPool}
    {input rest : Bytes} (h : readOnto limit limit_le fuel pool input = .ok (found, rest))
    (fits : ∀ constant ∈ pool.constants, constant.Fits) :
    ∀ constant ∈ found.constants, constant.Fits := by
  induction fuel generalizing pool input with
  | zero =>
    cases h
    exact fits
  | succ fuel ih =>
    unfold readOnto at h
    split at h
    · split at h
      · cases h
      · next constant middle hread =>
        split at h
        · refine ih h fun other hm => ?_
          rw [constants_push] at hm
          rcases List.mem_append.1 hm with hm | hm
          · exact fits other hm
          · rw [List.mem_singleton.1 hm]
            exact Constant.gives_read input constant middle hread
        · cases h
    · cases h
      exact fits

theorem gives_read :
    Gives ConstantPool.read fun pool => ∀ constant ∈ pool.constants, constant.Fits := by
  refine .skip fun count input pool rest h => ?_
  have hempty : ∀ constant ∈ empty.constants, constant.Fits := fun constant hm => by cases hm
  split at h
  · obtain ⟨_, _, hthrow, -⟩ := stateT_bind_eq_ok.1 h
    exact (stateT_throw_ne_ok.1 hthrow).elim
  · exact fits_readOnto h hempty

end ConstantPool

end ClassWeave
