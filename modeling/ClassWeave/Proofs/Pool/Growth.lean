import ClassWeave.Pool.Loadable
import ClassWeave.Proofs.Steps

/-!
Pools only grow. What a pool holds at an index stays there, so whatever has been looked up keeps its
answer; and a constant that was interned once is found again at the same index.
-/

namespace ClassWeave

namespace ConstantPool

/-- The second pool has the slots of the first, and maybe more behind them, with constants that the
first does not hold. -/
instance : LE ConstantPool := ⟨fun p q => ∃ more, q.slots.toList = p.slots.toList ++ more ∧
  ∀ constant, some constant ∈ more → some constant ∉ p.slots.toList⟩

variable {p q r : ConstantPool} {index : PoolIndex}

theorem le_def : p ≤ q ↔ ∃ more, q.slots.toList = p.slots.toList ++ more ∧
    ∀ constant, some constant ∈ more → some constant ∉ p.slots.toList := Iff.rfl

protected theorem le_refl (p : ConstantPool) : p ≤ p := ⟨[], by simp, by simp⟩

protected theorem le_trans (h : p ≤ q) (h' : q ≤ r) : p ≤ r := by
  obtain ⟨more, hq, hnew⟩ := h
  obtain ⟨more', hr, hnew'⟩ := h'
  refine ⟨more ++ more', by rw [hr, hq, List.append_assoc], fun constant hm hp => ?_⟩
  rcases List.mem_append.1 hm with hm | hm
  · exact hnew constant hm hp
  · exact hnew' constant hm (hq ▸ List.mem_append_left _ hp)

theorem getElem?_of_le (h : p ≤ q) {i : Nat} {slot : Option Constant}
    (hs : p.slots[i]? = some slot) : q.slots[i]? = some slot := by
  rw [← Array.getElem?_toList] at hs ⊢
  obtain ⟨more, hm, -⟩ := le_def.1 h
  have hi : i < p.slots.toList.length := (List.getElem?_eq_some_iff.1 hs).1
  rw [hm, List.getElem?_append_left hi, hs]

theorem get_eq_ok {c : Constant} : p.get index = .ok c ↔ p.slots[index.toNat]? = some (some c) := by
  unfold get
  split
  · next h => simp [h]
  · next h => exact ⟨fun e => by simp at e, fun e => absurd e (h c)⟩

theorem get_of_le (h : p ≤ q) {c : Constant} (hg : p.get index = .ok c) : q.get index = .ok c :=
  get_eq_ok.2 (getElem?_of_le h (get_eq_ok.1 hg))

theorem utf8_eq_ok {text : String} : p.utf8 index = .ok text ↔ p.get index = .ok (.utf8 text) := by
  unfold utf8
  cases p.get index with
  | error problem => simp [bind, Except.bind]
  | ok c => cases c <;> simp [bind, Except.bind, pure, Except.pure, throw, throwThe, MonadExceptOf.throw]

theorem utf8_of_le (h : p ≤ q) {text : String} (hu : p.utf8 index = .ok text) :
    q.utf8 index = .ok text :=
  utf8_eq_ok.2 (get_of_le h (utf8_eq_ok.1 hu))

theorem className_eq_ok {name : String} :
    p.className index = .ok name ↔
      ∃ text, p.get index = .ok (.classRef text) ∧ p.utf8 text = .ok name := by
  unfold className
  cases p.get index with
  | error problem => simp [bind, Except.bind]
  | ok c => cases c <;> simp [bind, Except.bind, throw, throwThe, MonadExceptOf.throw]

theorem className_of_le (h : p ≤ q) {name : String} (hn : p.className index = .ok name) :
    q.className index = .ok name := by
  obtain ⟨text, hg, hu⟩ := className_eq_ok.1 hn
  exact className_eq_ok.2 ⟨text, get_of_le h hg, utf8_of_le h hu⟩

theorem nameAndType_eq_ok {pair : String × String} :
    p.nameAndType index = .ok pair ↔
      ∃ name descriptor, p.get index = .ok (.nameAndType name descriptor) ∧
        p.utf8 name = .ok pair.1 ∧ p.utf8 descriptor = .ok pair.2 := by
  unfold nameAndType
  cases p.get index with
  | error problem => simp [bind, Except.bind]
  | ok c =>
    cases c with
    | nameAndType name descriptor =>
      cases hn : p.utf8 name with
      | error problem => simp [bind, Except.bind, hn]
      | ok text =>
        cases hd : p.utf8 descriptor with
        | error problem => simp [bind, Except.bind, hn, hd]
        | ok text' =>
          obtain ⟨a, b⟩ := pair
          simp only [bind, Except.bind, pure, Except.pure, hn, hd]
          grind
    | _ => simp [bind, Except.bind, throw, throwThe, MonadExceptOf.throw]

theorem nameAndType_of_le (h : p ≤ q) {pair : String × String}
    (hn : p.nameAndType index = .ok pair) : q.nameAndType index = .ok pair := by
  obtain ⟨name, descriptor, hg, h₁, h₂⟩ := nameAndType_eq_ok.1 hn
  exact nameAndType_eq_ok.2 ⟨name, descriptor, get_of_le h hg, utf8_of_le h h₁, utf8_of_le h h₂⟩

theorem fieldRef_eq_ok {field : MemberRef} :
    p.fieldRef index = .ok field ↔
      ∃ owner member, p.get index = .ok (.fieldRef owner member) ∧
        p.nameAndType member = .ok (field.name, field.descriptor) ∧
        p.className owner = .ok field.owner ∧ field.ofInterface = false := by
  unfold fieldRef
  cases p.get index with
  | error problem => simp [bind, Except.bind]
  | ok c =>
    cases c with
    | fieldRef owner member =>
      obtain ⟨a, b, c, d⟩ := field
      cases hn : p.nameAndType member with
      | error problem => simp [bind, Except.bind, hn]
      | ok pair =>
        cases ho : p.className owner with
        | error problem => simp [bind, Except.bind, hn, ho]
        | ok name =>
          obtain ⟨x, y⟩ := pair
          simp only [bind, Except.bind, pure, Except.pure, hn, ho]
          grind
    | _ => simp [bind, Except.bind, throw, throwThe, MonadExceptOf.throw]

theorem fieldRef_of_le (h : p ≤ q) {field : MemberRef} (hf : p.fieldRef index = .ok field) :
    q.fieldRef index = .ok field := by
  obtain ⟨owner, member, hg, hn, ho, hi⟩ := fieldRef_eq_ok.1 hf
  exact fieldRef_eq_ok.2
    ⟨owner, member, get_of_le h hg, nameAndType_of_le h hn, className_of_le h ho, hi⟩

theorem methodRef_eq_ok {method : MemberRef} :
    p.methodRef index = .ok method ↔
      ∃ owner member, p.get index = .ok (.methodRef owner member method.ofInterface) ∧
        p.nameAndType member = .ok (method.name, method.descriptor) ∧
        p.className owner = .ok method.owner := by
  unfold methodRef
  cases p.get index with
  | error problem => simp [bind, Except.bind]
  | ok c =>
    cases c with
    | methodRef owner member ofInterface =>
      obtain ⟨a, b, c, d⟩ := method
      cases hn : p.nameAndType member with
      | error problem => simp [bind, Except.bind, hn]
      | ok pair =>
        cases ho : p.className owner with
        | error problem => simp [bind, Except.bind, hn, ho]
        | ok name =>
          obtain ⟨x, y⟩ := pair
          simp only [bind, Except.bind, pure, Except.pure, hn, ho]
          grind
    | _ => simp [bind, Except.bind, throw, throwThe, MonadExceptOf.throw]

theorem methodRef_of_le (h : p ≤ q) {method : MemberRef} (hm : p.methodRef index = .ok method) :
    q.methodRef index = .ok method := by
  obtain ⟨owner, member, hg, hn, ho⟩ := methodRef_eq_ok.1 hm
  exact methodRef_eq_ok.2 ⟨owner, member, get_of_le h hg, nameAndType_of_le h hn, className_of_le h ho⟩

theorem callSite_eq_ok {pair : String × String} :
    p.callSite index = .ok pair ↔
      ∃ bootstrap member, p.get index = .ok (.invokeDynamic bootstrap member) ∧
        p.nameAndType member = .ok pair := by
  unfold callSite
  cases p.get index with
  | error problem => simp [bind, Except.bind]
  | ok c =>
    cases c with
    | invokeDynamic bootstrap member =>
      simp only [bind, Except.bind]
      grind
    | _ => simp [bind, Except.bind, throw, throwThe, MonadExceptOf.throw]

theorem callSite_of_le (h : p ≤ q) {pair : String × String} (hc : p.callSite index = .ok pair) :
    q.callSite index = .ok pair := by
  obtain ⟨bootstrap, member, hg, hn⟩ := callSite_eq_ok.1 hc
  exact callSite_eq_ok.2 ⟨bootstrap, member, get_of_le h hg, nameAndType_of_le h hn⟩

theorem loadableType_of_le (h : p ≤ q) {type : FieldType} (ht : p.loadableType index = .ok type) :
    q.loadableType index = .ok type := by
  unfold loadableType at ht ⊢
  rw [except_bind_eq_ok] at ht ⊢
  obtain ⟨c, hg, hc⟩ := ht
  have hp : p.get index = .ok c := by
    cases hpg : p.get index with
    | ok c' => rw [hpg] at hg; cases hg; rfl
    | error problem => rw [hpg] at hg; cases hg
  refine ⟨c, by rw [get_of_le h hp]; rfl, ?_⟩
  cases c with
  | dynamic bootstrap member =>
    obtain ⟨pair, hm, hd⟩ := except_bind_eq_ok.1 hc
    have hn : p.nameAndType member = .ok pair := by
      cases hpn : p.nameAndType member with
      | ok pair' => rw [hpn] at hm; cases hm; rfl
      | error problem => rw [hpn] at hm; cases hm
    exact except_bind_eq_ok.2 ⟨pair, by rw [nameAndType_of_le h hn]; rfl, hd⟩
  | _ => exact hc

theorem slots_push (constant : Constant) (room : p.size + constant.width ≤ 65535) :
    (p.push constant room).slots = extend p.slots constant := rfl

/-- The first slot that holds a constant is the one that is found. -/
theorem position?_eq (p : ConstantPool) (constant : Constant) :
    p.position? constant = (List.range p.slots.size).find? fun i => p.slots[i]? = some (some constant) := by
  unfold position?
  rw [p.filed_eq, filedUnder, List.find?_filter]
  congr 1
  funext i
  by_cases h : p.slots[i]? = some (some constant) <;> simp [h]

theorem position?_eq_some {constant : Constant} {i : Nat} :
    p.position? constant = some i ↔
      p.slots[i]? = some (some constant) ∧ ∀ j < i, p.slots[j]? ≠ some (some constant) := by
  rw [position?_eq, List.find?_range_eq_some]
  simp only [decide_eq_true_eq, decide_eq_false_iff_not, Bool.not_eq_true', List.mem_range]
  constructor
  · rintro ⟨hi, -, hj⟩
    exact ⟨hi, hj⟩
  · rintro ⟨hi, hj⟩
    exact ⟨hi, (Array.getElem?_eq_some_iff.1 hi).1, hj⟩

theorem position?_eq_none {constant : Constant} :
    p.position? constant = none ↔ ∀ j : Nat, p.slots[j]? ≠ some (some constant) := by
  rw [position?_eq, List.find?_eq_none]
  constructor
  · intro h j hj
    exact h j (List.mem_range.2 (Array.getElem?_eq_some_iff.1 hj).1) (by simpa using hj)
  · intro h j _ hj
    exact h j (by simpa using hj)

theorem notMem_of_find? {constant : Constant} (h : p.find? constant = none) :
    some constant ∉ p.slots.toList := by
  intro hm
  obtain ⟨j, hj, hs⟩ := List.mem_iff_getElem.1 hm
  refine position?_eq_none.1 (Option.map_eq_none_iff.1 h) j ?_
  rw [← Array.getElem?_toList, List.getElem?_eq_getElem hj, hs]

/-- What is pushed when it is not found is new. -/
theorem le_push {constant : Constant} (h : p.find? constant = none)
    (room : p.size + constant.width ≤ 65535) : p ≤ p.push constant room := by
  refine ⟨constant.slots, toList_extend p.slots constant, fun other hm => ?_⟩
  have hother : other = constant := by
    unfold Constant.slots at hm
    split at hm <;> simpa using hm
  exact hother ▸ notMem_of_find? h

/-- An index without a constant never gets one that the pool holds elsewhere. -/
theorem get_of_get_of_le (h : p ≤ q) {constant : Constant} (hm : some constant ∈ p.slots.toList)
    (hg : q.get index = .ok constant) : p.get index = .ok constant := by
  rw [get_eq_ok, ← Array.getElem?_toList] at hg ⊢
  obtain ⟨more, hq, hnew⟩ := le_def.1 h
  rw [hq] at hg
  by_cases hlt : index.toNat < p.slots.toList.length
  · rwa [List.getElem?_append_left hlt] at hg
  · rw [List.getElem?_append_right (by omega)] at hg
    exact absurd hm (hnew constant (List.mem_of_getElem? hg))

theorem position?_of_le (h : p ≤ q) {constant : Constant} {i : Nat}
    (hi : p.position? constant = some i) : q.position? constant = some i := by
  obtain ⟨hs, hj⟩ := position?_eq_some.1 hi
  refine position?_eq_some.2 ⟨getElem?_of_le h hs, fun j hji hq => hj j hji ?_⟩
  have hlt : j < p.slots.size := Nat.lt_trans hji (Array.getElem?_eq_some_iff.1 hs).1
  obtain ⟨slot, hslot⟩ : ∃ slot, p.slots[j]? = some slot := ⟨_, Array.getElem?_eq_getElem hlt⟩
  rw [getElem?_of_le h hslot] at hq
  rw [hslot, hq]

theorem find?_of_le (h : p ≤ q) {constant : Constant} (hi : p.find? constant = some index) :
    q.find? constant = some index := by
  unfold find? at hi ⊢
  obtain ⟨i, hp, rfl⟩ := Option.map_eq_some_iff.1 hi
  rw [position?_of_le h hp]
  rfl

theorem toNat_ofNat_of_lt {n : Nat} (h : n ≤ 65535) : (UInt16.ofNat n).toNat = n := by
  rw [UInt16.toNat_ofNat']
  exact Nat.mod_eq_of_lt (by omega)

theorem get_of_find? {constant : Constant} (h : p.find? constant = some index) :
    p.get index = .ok constant := by
  obtain ⟨i, hp, rfl⟩ := Option.map_eq_some_iff.1 h
  obtain ⟨hs, -⟩ := position?_eq_some.1 hp
  have hi : i ≤ 65535 :=
    Nat.le_trans (Nat.le_of_lt (Array.getElem?_eq_some_iff.1 hs).1) p.size_le
  rw [get_eq_ok, PoolIndex.toNat, toNat_ofNat_of_lt hi]
  exact hs

theorem find?_push {constant : Constant} (room : p.size + constant.width ≤ 65535)
    (h : p.find? constant = none) :
    (p.push constant room).find? constant = some ⟨UInt16.ofNat p.size⟩ := by
  have hp := position?_eq_none.1 (Option.map_eq_none_iff.1 h)
  have hq : (p.push constant room).position? constant = some p.size := by
    refine position?_eq_some.2 ⟨?_, fun j hj hs => ?_⟩
    · rw [slots_push, ← Array.getElem?_toList, toList_extend]
      have hl : p.size = p.slots.toList.length := by simp [size]
      rw [hl, List.getElem?_append_right (Nat.le_refl _)]
      unfold Constant.slots
      split <;> simp
    · rw [slots_push, ← Array.getElem?_toList, toList_extend,
        List.getElem?_append_left (by simpa [size] using hj)] at hs
      exact hp j (by rw [← Array.getElem?_toList]; exact hs)
  unfold find?
  rw [hq]
  rfl

end ConstantPool

end ClassWeave
