import ClassWeave.Frame.StackMap
import ClassWeave.Proofs.Pool.Reading
import Mathlib.Data.List.DropRight

/-!
Reading back stack map frames, and what they make of the frame before them: a frame written as its
difference from another gives locals of the same form when it is put on top of that again.
-/

namespace ClassWeave

theorem StoredType.reads_bytes (type : StoredType) : Reads StoredType.read type.bytes type := by
  cases type with
  | object name => exact (Reader.reads_u8 7).bind name.reads_bytes.map
  | uninitialized allocation => exact (Reader.reads_u8 8).bind (Reader.reads_u16 allocation).map
  | _ => exact fun rest => rfl

namespace StackMapFrame

/-- The lists of a full frame have lengths that two bytes hold. -/
def Fits : StackMapFrame → Prop
  | .full _ locals stack => locals.length < 65536 ∧ stack.length < 65536
  | _ => True

theorem reads_delta (delta : UInt16) (h : delta ≤ 63) :
    delta.toUInt8 ≤ 63 ∧ delta.toUInt8.toUInt16 = delta := by
  have hle := UInt16.le_iff_toNat_le.1 h
  have hlt : delta.toNat < 256 := Nat.lt_of_le_of_lt hle (by decide)
  have hnat : delta.toUInt8.toNat = delta.toNat := by
    rw [UInt16.toNat_toUInt8]
    exact Nat.mod_eq_of_lt hlt
  refine ⟨UInt8.le_iff_toNat_le.2 (hnat ▸ hle), UInt16.toNat_inj.1 ?_⟩
  rw [UInt8.toNat_toUInt16, hnat]

theorem reads_types (types : List StoredType) :
    Reads (Reader.repeatOnto StoredType.read types.length []) (types.flatMap StoredType.bytes) types :=
  Reader.repeatOnto_bytes types [] fun type _ => type.reads_bytes

theorem reads_list {types : List StoredType} (h : types.length < 65536) :
    Reads (Reader.list StoredType.read) (Bytes.list StoredType.bytes types) types :=
  Reader.reads_list h fun type _ => type.reads_bytes

theorem toUInt16_add_64 (n : UInt8) (h : n ≤ 63) : (n + 64).toUInt16 - 64 = n.toUInt16 := by
  have hall : ∀ n : Fin 64, (UInt8.ofNat n.val + 64).toUInt16 - 64 = (UInt8.ofNat n.val).toUInt16 := by
    decide
  have hlt : n.toNat < 64 := Nat.lt_succ_of_le (UInt8.le_iff_toNat_le.1 h)
  have hn := hall ⟨n.toNat, hlt⟩
  rwa [UInt8.ofNat_toNat] at hn

theorem between (n : UInt8) (h : n ≤ 63) : ¬n + 64 ≤ 63 ∧ n + 64 ≤ 127 := by
  have hall : ∀ n : Fin 64, ¬UInt8.ofNat n.val + 64 ≤ 63 ∧ UInt8.ofNat n.val + 64 ≤ 127 := by
    decide
  have hlt : n.toNat < 64 := Nat.lt_succ_of_le (UInt8.le_iff_toNat_le.1 h)
  have hn := hall ⟨n.toNat, hlt⟩
  rwa [UInt8.ofNat_toNat] at hn

theorem count_cases {count : UInt8} (h : 1 ≤ count ∧ count ≤ 3) :
    count = 1 ∨ count = 2 ∨ count = 3 := by
  have hlo := UInt8.le_iff_toNat_le.1 h.1
  have hhi := UInt8.le_iff_toNat_le.1 h.2
  have hlo' : 1 ≤ count.toNat := hlo
  have hhi' : count.toNat ≤ 3 := hhi
  have hn : count.toNat = 1 ∨ count.toNat = 2 ∨ count.toNat = 3 := by omega
  exact hn.imp UInt8.toNat_inj.1 (Or.imp UInt8.toNat_inj.1 UInt8.toNat_inj.1)

theorem reads_tagged {tag : UInt8} {content : Bytes} {frame : StackMapFrame}
    (h : Reads (readTagged tag) content frame) : Reads StackMapFrame.read (tag :: content) frame :=
  (Reader.reads_u8 tag).bind h

theorem reads_same (delta : UInt16) :
    Reads StackMapFrame.read
      (if delta ≤ 63 then [delta.toUInt8] else 251 :: Bytes.u16 delta) (.same delta) := by
  split
  · next hshort =>
    obtain ⟨hle, hdelta⟩ := reads_delta delta hshort
    refine reads_tagged ?_
    unfold readTagged
    rw [if_pos hle, hdelta]
    exact .pure _
  · exact reads_tagged (Reader.reads_u16 delta).map

theorem reads_sameOne (delta : UInt16) (type : StoredType) :
    Reads StackMapFrame.read
      ((if delta ≤ 63 then [delta.toUInt8 + 64] else 247 :: Bytes.u16 delta) ++ type.bytes)
      (.sameOne delta type) := by
  split
  · next hshort =>
    obtain ⟨hle, hdelta⟩ := reads_delta delta hshort
    obtain ⟨hlow, hhigh⟩ := between _ hle
    refine reads_tagged ?_
    unfold readTagged
    rw [if_neg hlow, if_pos hhigh, toUInt16_add_64 _ hle, hdelta]
    exact type.reads_bytes.map
  · exact reads_tagged ((Reader.reads_u16 delta).bind type.reads_bytes.map)

theorem reads_chop (delta : UInt16) {count : UInt8} (h : 1 ≤ count ∧ count ≤ 3) :
    Reads StackMapFrame.read ((251 - count) :: Bytes.u16 delta) (.chop delta count) := by
  refine reads_tagged ?_
  rcases count_cases h with rfl | rfl | rfl
  all_goals exact (Reader.reads_u16 delta).map

theorem reads_append (delta : UInt16) {locals : List StoredType}
    (h : 1 ≤ locals.length ∧ locals.length ≤ 3) :
    Reads StackMapFrame.read
      (UInt8.ofNat (251 + locals.length) :: (Bytes.u16 delta ++ locals.flatMap StoredType.bytes))
      (.append delta locals) := by
  refine reads_tagged ?_
  have htypes := reads_types locals
  have hlength : locals.length = 1 ∨ locals.length = 2 ∨ locals.length = 3 := by omega
  rcases hlength with hl | hl | hl
  all_goals
    rw [hl] at htypes ⊢
    exact (Reader.reads_u16 delta).bind htypes.map

/-- A frame that has bytes is read back from them. -/
theorem reads_bytes {frame : StackMapFrame} {content : Bytes} (fits : frame.Fits)
    (h : frame.bytes = .ok content) : Reads StackMapFrame.read content frame := by
  cases frame with
  | same delta =>
    cases h
    exact reads_same delta
  | sameOne delta type =>
    cases h
    exact reads_sameOne delta type
  | chop delta count =>
    unfold bytes at h
    dsimp only at h
    split at h
    · next hcount =>
      cases h
      exact reads_chop delta hcount
    · cases h
  | append delta locals =>
    unfold bytes at h
    dsimp only at h
    split at h
    · next hcount =>
      cases h
      exact reads_append delta hcount
    · cases h
  | full delta locals stack =>
    cases h
    have hfields : Reads (readTagged 255) (Bytes.u16 delta ++ (Bytes.list StoredType.bytes locals ++
        Bytes.list StoredType.bytes stack)) (.full delta locals stack) :=
      (Reader.reads_u16 delta).bind ((reads_list fits.1).bind (reads_list fits.2).map)
    exact reads_tagged (hfields.congr (List.append_assoc _ _ _))

end StackMapFrame

namespace VerificationType

variable {C P C' P' : Type}

/-- The type without the class or the allocation that it names. -/
def erase : VerificationType C P → VerificationType Unit Unit
  | .top => .top
  | .integer => .integer
  | .float => .float
  | .double => .double
  | .long => .long
  | .null => .null
  | .uninitializedThis => .uninitializedThis
  | .object _ => .object ()
  | .uninitialized _ => .uninitialized ()

@[simp] theorem isWide_erase (type : VerificationType C P) : type.erase.isWide = type.isWide := by
  cases type <;> rfl

@[simp] theorem erase_eq_top {type : VerificationType C P} : type.erase = .top ↔ type = .top := by
  cases type <;> simp [erase]

/-- Translating what a type names keeps the rest. -/
theorem erase_of_mapM {ε : Type} {onClass : C → Except ε C'} {onPosition : P → Except ε P'}
    {type : VerificationType C P} {out : VerificationType C' P'}
    (h : type.mapM onClass onPosition = .ok out) : out.erase = type.erase := by
  cases type with
  | object name =>
    obtain ⟨found, -, h⟩ := except_bind_eq_ok.1 h
    cases h
    rfl
  | uninitialized allocation =>
    obtain ⟨found, -, h⟩ := except_bind_eq_ok.1 h
    cases h
    rfl
  | _ =>
    cases h
    rfl

end VerificationType

namespace Frame

open VerificationType (erase isWide_erase erase_eq_top)

variable {C P C' P' : Type}

theorem map_erase_valuesOf (types : List (VerificationType C P)) :
    (valuesOf types).map erase = valuesOf (types.map erase) := by
  fun_induction valuesOf types with
  | case1 => rfl
  | case2 type => rfl
  | case3 type second rest hwide ih =>
    rw [List.map_cons, List.map_cons, List.map_cons, valuesOf, if_pos (by rwa [isWide_erase]), ih]
  | case4 type second rest hwide ih =>
    rw [List.map_cons, List.map_cons, List.map_cons, valuesOf, if_neg (by rwa [isWide_erase]), ih,
      List.map_cons]

theorem valuesOf_slotsOf (types : List (VerificationType C P)) : valuesOf (slotsOf types) = types := by
  induction types with
  | nil => rfl
  | cons type rest ih =>
    unfold slotsOf at ih ⊢
    rw [List.flatMap_cons]
    by_cases hwide : type.isWide = true
    · rw [if_pos hwide, List.cons_append, List.singleton_append, valuesOf, if_pos hwide, ih]
    · rw [if_neg hwide, List.singleton_append]
      generalize List.flatMap _ rest = slots at ih ⊢
      cases slots with
      | nil =>
        rw [← ih]
        rfl
      | cons second others => rw [valuesOf, if_neg hwide, ih]

theorem mapM_erase {ε : Type} {convert : VerificationType C P → Except ε (VerificationType C' P')}
    {types : List (VerificationType C P)}
    (h : ∀ type ∈ types, ∃ out, convert type = .ok out ∧ out.erase = type.erase) :
    ∃ out, types.mapM convert = .ok out ∧ out.map erase = types.map erase := by
  induction types with
  | nil => exact ⟨[], rfl, rfl⟩
  | cons type rest ih =>
    obtain ⟨first, hfirst, herase⟩ := h type List.mem_cons_self
    obtain ⟨others, hothers, hall⟩ := ih fun t ht => h t (List.mem_cons_of_mem _ ht)
    refine ⟨first :: others, ?_, by rw [List.map_cons, List.map_cons, herase, hall]⟩
    rw [List.mapM_cons]
    exact except_bind_eq_ok.2 ⟨first, hfirst, except_bind_eq_ok.2 ⟨others, hothers, rfl⟩⟩

theorem mem_of_mem_valuesOf {types : List (VerificationType C P)} {type : VerificationType C P}
    (h : type ∈ valuesOf types) : type ∈ types := by
  fun_induction valuesOf types with
  | case1 => exact h
  | case2 only => exact h
  | case3 first second rest hwide ih =>
    rcases List.mem_cons.1 h with rfl | h
    · exact List.mem_cons_self
    · exact List.mem_cons_of_mem _ (List.mem_cons_of_mem _ (ih h))
  | case4 first second rest hwide ih =>
    rcases List.mem_cons.1 h with rfl | h
    · exact List.mem_cons_self
    · exact List.mem_cons_of_mem _ (ih h)

section Compact

variable [DecidableEq C] [DecidableEq P] [DecidableEq C'] [DecidableEq P']

theorem map_erase_dropTops (types : List (VerificationType C P)) :
    (dropTops types).map erase = dropTops (types.map erase) := by
  have htop : (fun type : VerificationType Unit Unit => decide (type = .top)) ∘
      (erase : VerificationType C P → _) = fun type => decide (type = .top) := by
    funext type
    simp
  unfold dropTops
  rw [← List.map_reverse, List.dropWhile_map, htop, ← List.map_reverse]

theorem map_erase_compactLocals {frame : Frame C P} {other : Frame C' P'}
    (h : frame.locals.map erase = other.locals.map erase) :
    frame.compactLocals.map erase = other.compactLocals.map erase := by
  unfold compactLocals
  rw [map_erase_dropTops, map_erase_valuesOf, h, ← map_erase_valuesOf, ← map_erase_dropTops]

theorem mem_of_mem_compactLocals {frame : Frame C P} {type : VerificationType C P}
    (h : type ∈ frame.compactLocals) : type ∈ frame.locals := by
  unfold compactLocals dropTops at h
  exact mem_of_mem_valuesOf (List.mem_reverse.1
    ((List.dropWhile_sublist _).subset (List.mem_reverse.1 h)))

theorem dropTops_dropTops (types : List (VerificationType C P)) :
    dropTops (dropTops types) = dropTops types := by
  unfold dropTops
  rw [List.reverse_reverse, List.dropWhile_idempotent]

theorem compactLocals_ofCompact (locals stack : List (VerificationType C P)) :
    (ofCompact locals stack).compactLocals = dropTops locals := by
  unfold compactLocals ofCompact
  rw [valuesOf_slotsOf]

/-- Locals listed as those of a frame are its locals in short form again. -/
theorem map_erase_ofCompact {locals : List (VerificationType C P)} {frame : Frame C' P'}
    (h : locals.map erase = frame.compactLocals.map erase) (stack : List (VerificationType C P)) :
    (ofCompact locals stack).compactLocals.map erase = frame.compactLocals.map erase := by
  rw [compactLocals_ofCompact, map_erase_dropTops, h, ← map_erase_dropTops]
  unfold compactLocals
  rw [dropTops_dropTops]

/-- The difference between two frames can be put on top of a frame with locals of the same form as
the first, and gives one with locals of the same form as the second. -/
theorem applyStackMap_stackMapFrame {previous : Frame C P} {before frame : StoredFrame}
    {convert : StoredType → Except FrameFault (VerificationType C P)} {delta : UInt16}
    (hprevious : previous.compactLocals.map erase = before.compactLocals.map erase)
    (hconvert : ∀ type ∈ (StoredFrame.stackMapFrame frame delta before).types,
      ∃ out, convert type = .ok out ∧ out.erase = type.erase) :
    ∃ next, previous.applyStackMap (StoredFrame.stackMapFrame frame delta before) convert = .ok next ∧
      next.compactLocals.map erase = frame.compactLocals.map erase := by
  have hfull : (∀ type ∈ frame.compactLocals ++ frame.stack.reverse,
      ∃ out, convert type = .ok out ∧ out.erase = type.erase) → ∃ next, previous.applyStackMap
      (.full delta frame.compactLocals frame.stack.reverse) convert = .ok next ∧
      next.compactLocals.map erase = frame.compactLocals.map erase := by
    intro hconvert
    obtain ⟨locals, hlocals, hkept⟩ := mapM_erase fun type ht =>
      hconvert type (List.mem_append_left _ ht)
    obtain ⟨stack, hstack, -⟩ := mapM_erase fun type ht => hconvert type (List.mem_append_right _ ht)
    refine ⟨ofCompact locals stack.reverse, ?_, map_erase_ofCompact hkept _⟩
    exact except_bind_eq_ok.2 ⟨locals, hlocals, except_bind_eq_ok.2 ⟨stack, hstack, rfl⟩⟩
  revert hconvert
  unfold StoredFrame.stackMapFrame
  extract_lets listed listedBefore full fewer
  have hlength : previous.compactLocals.length = listedBefore.length := by
    rw [← List.length_map (f := erase), hprevious, List.length_map]
  have hfewer : fewer = listedBefore.length - listed.length := rfl
  split
  · split
    · next hle =>
      split
      · next hprefix =>
        obtain ⟨more, hmore⟩ := List.isPrefixOf_iff_prefix.1 hprefix.2
        have htake : (previous.compactLocals.take listed.length).map erase = listed.map erase := by
          rw [List.map_take, hprevious]
          change (listedBefore.map erase).take listed.length = _
          rw [← List.map_take, ← hmore, List.take_left]
        split
        · next hnone =>
          intro _
          refine ⟨ofCompact previous.compactLocals [], rfl, map_erase_ofCompact ?_ _⟩
          rwa [List.take_of_length_le (by omega)] at htake
        · intro _
          have hcount : (UInt8.ofNat fewer).toNat = fewer := by
            rw [UInt8.toNat_ofNat']
            exact Nat.mod_eq_of_lt (by omega)
          refine ⟨ofCompact (previous.compactLocals.take listed.length) [], ?_,
            map_erase_ofCompact htake _⟩
          have hleft : previous.compactLocals.length - fewer = listed.length := by omega
          unfold applyStackMap
          dsimp only
          rw [hcount, if_neg (by omega), hleft]
          rfl
      · exact hfull
    · split
      · next hprefix =>
        intro hconvert
        obtain ⟨more, hmore⟩ := List.isPrefixOf_iff_prefix.1 hprefix.2
        obtain ⟨added, hadded, herase⟩ := mapM_erase hconvert
        refine ⟨ofCompact (previous.compactLocals ++ added) [],
          except_bind_eq_ok.2 ⟨added, hadded, rfl⟩, map_erase_ofCompact ?_ _⟩
        rw [List.map_append, hprevious, herase, ← List.map_append]
        change (listedBefore ++ listed.drop listedBefore.length).map erase = listed.map erase
        rw [← hmore, List.drop_left]
      · exact hfull
  · next type hone =>
    split
    · next hsame =>
      intro hconvert
      obtain ⟨out, hout, -⟩ := hconvert type List.mem_cons_self
      refine ⟨ofCompact previous.compactLocals [out], except_bind_eq_ok.2 ⟨out, hout, rfl⟩,
        map_erase_ofCompact ?_ _⟩
      change _ = listed.map erase
      rw [hprevious, hsame]
    · exact hfull
  · exact hfull

end Compact

end Frame

namespace StoredFrame

variable {frame previous : StoredFrame} {delta : UInt16}

/-- What a difference lists are types of the frame. -/
theorem mem_types {type : StoredType} (h : type ∈ (frame.stackMapFrame delta previous).types) :
    type ∈ frame.locals ++ frame.stack := by
  have hlisted : type ∈ frame.compactLocals → type ∈ frame.locals ++ frame.stack := fun hm =>
    List.mem_append_left _ (Frame.mem_of_mem_compactLocals hm)
  have hfull : type ∈ (StackMapFrame.full delta frame.compactLocals frame.stack.reverse).types →
      type ∈ frame.locals ++ frame.stack := fun hm =>
    (List.mem_append.1 hm).elim hlisted fun hm =>
      List.mem_append_right _ (List.mem_reverse.1 hm)
  revert h
  unfold stackMapFrame
  extract_lets locals before full fewer
  split
  · split
    · split
      · split
        · exact nofun
        · exact nofun
      · exact hfull
    · split
      · exact fun hm => hlisted (List.mem_of_mem_drop hm)
      · exact hfull
  · next only hone =>
    split
    · intro hm
      rw [hone]
      exact List.mem_append_right _ hm
    · exact hfull
  · exact hfull

theorem fits_stackMapFrame (hlocals : frame.compactLocals.length < 65536)
    (hstack : frame.stack.length < 65536) : (frame.stackMapFrame delta previous).Fits := by
  have hfull : (StackMapFrame.full delta frame.compactLocals frame.stack.reverse).Fits :=
    ⟨hlocals, by rwa [List.length_reverse]⟩
  unfold stackMapFrame
  extract_lets locals before full fewer
  repeat' split
  all_goals trivial

theorem delta_stackMapFrame : (frame.stackMapFrame delta previous).delta = delta := by
  unfold stackMapFrame
  extract_lets locals before full fewer
  repeat' split
  all_goals rfl

end StoredFrame

end ClassWeave
