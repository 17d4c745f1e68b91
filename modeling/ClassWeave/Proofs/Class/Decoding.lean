import ClassWeave.Proofs.Class.Reading
import ClassWeave.Proofs.Code.Rereading

/-!
Methods of a class that can be decoded. They stay so when the pool grows and when the code of another
method is put in place.
-/

namespace ClassWeave

variable {p q : ConstantPool}

theorem toOption_eq_some {ε α : Type} {value : Except ε α} {a : α} :
    value.toOption = some a ↔ value = .ok a := by
  cases value with
  | ok b => exact ⟨fun h => congrArg Except.ok (Option.some.inj h), fun h => h ▸ rfl⟩
  | error problem => exact ⟨nofun, nofun⟩

theorem toOption_eq_none {ε α : Type} {value : Except ε α} :
    value.toOption = none ↔ ∃ problem, value = .error problem := by
  cases value with
  | error problem => exact ⟨fun _ => ⟨problem, rfl⟩, fun _ => rfl⟩
  | ok a => exact ⟨fun h => (by cases h), fun ⟨_, h⟩ => (by cases h)⟩

namespace ConstantPool

theorem le_of_slots (h : p.slots = q.slots) : p ≤ q :=
  ⟨[], by rw [List.append_nil, h], fun _ hm => absurd hm List.not_mem_nil⟩

/-- The attribute that is found has the name, and none in front of it has. -/
theorem findAttribute_eq_some {name : String} {attributes : List Attribute} {i : Nat}
    {item : Attribute} :
    p.findAttribute name attributes = some (i, item) ↔
      attributes[i]? = some item ∧ p.utf8 item.name = .ok name ∧
        ∀ j < i, ∀ other, attributes[j]? = some other → p.utf8 other.name ≠ .ok name := by
  have hfound : p.findAttribute name attributes = some (i, item) ↔
      attributes.zipIdx.find? (fun entry => (p.utf8 entry.1.name).toOption = some name) =
        some (item, i) := by
    unfold findAttribute
    rw [Option.map_eq_some_iff]
    constructor
    · rintro ⟨entry, hfind, he⟩
      cases he
      exact hfind
    · intro hfind
      exact ⟨(item, i), hfind, rfl⟩
  rw [hfound, List.find?_eq_some_iff_getElem, decide_eq_true_eq, toOption_eq_some]
  constructor
  · rintro ⟨hname, k, hk, he, hbefore⟩
    rw [List.getElem_zipIdx] at he
    cases he
    rw [List.length_zipIdx] at hk
    refine ⟨by rw [Nat.zero_add, List.getElem?_eq_getElem hk], hname, fun j hj other ho hother => ?_⟩
    obtain ⟨hlt, rfl⟩ := List.getElem?_eq_some_iff.1 ho
    have hnone := hbefore j (by omega)
    rw [List.getElem_zipIdx, Bool.not_eq_true', decide_eq_false_iff_not, toOption_eq_some] at hnone
    exact hnone hother
  · rintro ⟨hi, hname, hbefore⟩
    obtain ⟨hlt, rfl⟩ := List.getElem?_eq_some_iff.1 hi
    refine ⟨hname, i, by rwa [List.length_zipIdx], by rw [List.getElem_zipIdx, Nat.zero_add],
      fun j hj => ?_⟩
    rw [List.getElem_zipIdx, Bool.not_eq_true', decide_eq_false_iff_not, toOption_eq_some]
    exact hbefore j hj _ (List.getElem?_eq_getElem _)

/-- A pool that holds a name gives it to no further index when it grows. -/
theorem utf8_of_utf8_of_le (h : p ≤ q) {name : String} {known index : PoolIndex}
    (hk : p.utf8 known = .ok name) (hq : q.utf8 index = .ok name) : p.utf8 index = .ok name := by
  have hslot := get_eq_ok.1 (utf8_eq_ok.1 hk)
  rw [← Array.getElem?_toList] at hslot
  exact utf8_eq_ok.2 (get_of_get_of_le h (List.mem_of_getElem? hslot) (utf8_eq_ok.1 hq))

theorem findAttribute_of_le (h : p ≤ q) {name : String} {attributes : List Attribute} {i : Nat}
    {item : Attribute} (hf : p.findAttribute name attributes = some (i, item)) :
    q.findAttribute name attributes = some (i, item) := by
  obtain ⟨hi, hname, hbefore⟩ := findAttribute_eq_some.1 hf
  exact findAttribute_eq_some.2 ⟨hi, utf8_of_le h hname, fun j hj other ho hq =>
    hbefore j hj other ho (utf8_of_utf8_of_le h hname hq)⟩

/-- An attribute of the same name in the place of the first one is the first one. -/
theorem findAttribute_set {name : String} {attributes : List Attribute} {i : Nat}
    {old item : Attribute} (h : p.findAttribute name attributes = some (i, old))
    (hname : p.utf8 item.name = .ok name) :
    p.findAttribute name (attributes.set i item) = some (i, item) := by
  obtain ⟨hi, -, hbefore⟩ := findAttribute_eq_some.1 h
  have hlt := (List.getElem?_eq_some_iff.1 hi).1
  refine findAttribute_eq_some.2 ⟨List.getElem?_set_self hlt, hname, fun j hj other ho => ?_⟩
  rw [List.getElem?_set_ne (by omega)] at ho
  exact hbefore j hj other ho

end ConstantPool

namespace ClassFile

variable {file : ClassFile} {position : Nat}

/-- The body of a method, for the shape that its declaration tells; `none` if it has no code. -/
def decodeMethod (file : ClassFile) (position : Nat) : Except ClassError (Option MethodBody) := do
  let method ← file.method position
  let name ← file.pool.utf8 method.name
  let descriptor ← file.pool.utf8 method.descriptor
  let shape ← MethodShape.parse (← file.name) name method.flags descriptor
  match ← file.methodCode position with
  | none => return none
  | some code => some <$> MethodBody.decode code file.pool shape

/-- Has a method code that can be decoded? -/
def Decodes (file : ClassFile) (position : Nat) : Prop :=
  ∃ body, file.decodeMethod position = .ok (some body)

/-- A declared method with its shape. -/
structure Declares (file : ClassFile) (position : Nat) (method : Method) (shape : MethodShape) :
    Prop where
  found : file.methods[position]? = some method
  parsed : ∃ name descriptor thisClass, file.pool.utf8 method.name = .ok name ∧
    file.pool.utf8 method.descriptor = .ok descriptor ∧ file.name = .ok thisClass ∧
    MethodShape.parse thisClass name method.flags descriptor = .ok shape

theorem method_eq_ok {method : Method} :
    file.method position = .ok method ↔ file.methods[position]? = some method := by
  unfold ClassFile.method
  cases file.methods[position]? with
  | some found => exact ⟨fun h => congrArg some (Except.ok.inj h), fun h => h ▸ rfl⟩
  | none => exact ⟨nofun, nofun⟩

theorem methodCode_eq_some {code : Code} :
    file.methodCode position = .ok (some code) ↔ ∃ method i item,
      file.methods[position]? = some method ∧
      file.pool.findAttribute Code.format.name method.attributes = some (i, item) ∧
      item.parse Code.format = .ok code := by
  unfold methodCode
  rw [except_bind_eq_ok]
  constructor
  · rintro ⟨method, hm, h⟩
    refine ⟨method, ?_⟩
    split at h
    · cases h
    · next i item hfound =>
      refine ⟨i, item, method_eq_ok.1 hm, hfound, ?_⟩
      cases hparse : item.parse Code.format with
      | ok found =>
        rw [hparse] at h
        exact congrArg Except.ok (Option.some.inj (Except.ok.inj h))
      | error problem =>
        rw [hparse] at h
        cases h
  · rintro ⟨method, i, item, hm, hfound, hparse⟩
    refine ⟨method, method_eq_ok.2 hm, ?_⟩
    rw [hfound]
    dsimp only
    rw [hparse]
    rfl

theorem decodes_iff : file.Decodes position ↔ ∃ method shape code body,
    file.Declares position method shape ∧ file.methodCode position = .ok (some code) ∧
      MethodBody.decode code file.pool shape = .ok body := by
  constructor
  · rintro ⟨body, h⟩
    obtain ⟨method, hm, h⟩ := except_bind_eq_ok.1 h
    obtain ⟨name, hname, h⟩ := except_bind_eq_ok.1 h
    obtain ⟨descriptor, hdescriptor, h⟩ := except_bind_eq_ok.1 h
    obtain ⟨thisClass, hclass, h⟩ := except_bind_eq_ok.1 h
    obtain ⟨shape, hshape, h⟩ := except_bind_eq_ok.1 h
    obtain ⟨code?, hcode, h⟩ := except_bind_eq_ok.1 h
    cases code? with
    | none => cases h
    | some code =>
      cases hdecode : MethodBody.decode code file.pool shape with
      | ok found =>
        exact ⟨method, shape, code, found, ⟨method_eq_ok.1 (mapError_eq_ok.1 hm), name, descriptor,
          thisClass, mapError_eq_ok.1 hname, mapError_eq_ok.1 hdescriptor, mapError_eq_ok.1 hclass,
          hshape⟩, mapError_eq_ok.1 hcode, hdecode⟩
      | error problem =>
        dsimp only at h
        rw [hdecode] at h
        cases h
  · rintro ⟨method, shape, code, body, ⟨hm, name, descriptor, thisClass, hname, hdescriptor, hclass,
      hshape⟩, hcode, hbody⟩
    refine ⟨body, except_bind_eq_ok.2 ⟨method, mapError_eq_ok.2 (method_eq_ok.2 hm), ?_⟩⟩
    refine except_bind_eq_ok.2 ⟨name, mapError_eq_ok.2 hname, ?_⟩
    refine except_bind_eq_ok.2 ⟨descriptor, mapError_eq_ok.2 hdescriptor, ?_⟩
    refine except_bind_eq_ok.2 ⟨thisClass, mapError_eq_ok.2 hclass, ?_⟩
    refine except_bind_eq_ok.2 ⟨shape, hshape, ?_⟩
    refine except_bind_eq_ok.2 ⟨some code, mapError_eq_ok.2 hcode, ?_⟩
    dsimp only
    rw [hbody]
    rfl

/-- A larger pool changes nothing about the methods that can be decoded. -/
theorem Declares.of_le {method : Method} {shape : MethodShape} (h : file.Declares position method shape)
    {pool : ConstantPool} (hle : file.pool ≤ pool) :
    ({ file with pool } : ClassFile).Declares position method shape := by
  obtain ⟨hm, name, descriptor, thisClass, hname, hdescriptor, hclass, hshape⟩ := h
  exact ⟨hm, name, descriptor, thisClass, ConstantPool.utf8_of_le hle hname,
    ConstantPool.utf8_of_le hle hdescriptor, ConstantPool.className_of_le hle hclass, hshape⟩

theorem methodCode_of_le {code : Code} (h : file.methodCode position = .ok (some code))
    {pool : ConstantPool} (hle : file.pool ≤ pool) :
    ({ file with pool } : ClassFile).methodCode position = .ok (some code) := by
  obtain ⟨method, i, item, hm, hfound, hparse⟩ := methodCode_eq_some.1 h
  exact methodCode_eq_some.2 ⟨method, i, item, hm, ConstantPool.findAttribute_of_le hle hfound, hparse⟩

theorem Decodes.of_le (h : file.Decodes position) {pool : ConstantPool} (hle : file.pool ≤ pool) :
    ({ file with pool } : ClassFile).Decodes position := by
  obtain ⟨method, shape, code, body, hdeclared, hcode, hbody⟩ := decodes_iff.1 h
  exact decodes_iff.2 ⟨method, shape, code, body, hdeclared.of_le hle, methodCode_of_le hcode hle,
    MethodBody.decode_of_le hle code shape body hbody⟩

/-- The class with other attributes at one method. -/
def setAttributes (file : ClassFile) (position : Nat) (method : Method)
    (attributes : List Attribute) : ClassFile :=
  { file with methods := file.methods.set position { method with attributes } }

variable {other : Nat} {method : Method} {attributes : List Attribute}

/-- The other methods do not change. -/
theorem Decodes.setAttributes_ne (h : file.Decodes other) (hne : position ≠ other) :
    (file.setAttributes position method attributes).Decodes other := by
  have hsame : (file.setAttributes position method attributes).methods[other]? = file.methods[other]? :=
    List.getElem?_set_ne hne
  obtain ⟨found, shape, code, body, ⟨hm, hparsed⟩, hcode, hbody⟩ := decodes_iff.1 h
  obtain ⟨_, i, item, hfound, hitem⟩ := methodCode_eq_some.1 hcode
  exact decodes_iff.2 ⟨found, shape, code, body, ⟨hsame.trans hm, hparsed⟩,
    methodCode_eq_some.2 ⟨_, i, item, hsame.trans hfound, hitem⟩, hbody⟩

end ClassFile

end ClassWeave
