import ClassWeave.Proofs.Code.Resolving
import ClassWeave.Proofs.Patch.Framing

/-!
Finding a method again. What a signature names depends on the declarations of the methods and on their constants, so
in a class with other attributes at its methods, and with more constants, it names the method that it named before.
-/

namespace ClassWeave

open ConstantPool

namespace ClassFile

variable {file file' file'' : ClassFile} {target other : MethodSignature} {thisClass : String} {pool : ConstantPool}
  {strategy : PatchStrategy} {limit : Nat} {located : LocatedMethod} {body : MethodBody}

/-- The same declaration, maybe with other attributes. -/
def SameDeclaration (method other : Method) : Prop := ∃ attributes, other = { method with attributes }

theorem SameDeclaration.refl (method : Method) : SameDeclaration method method := ⟨method.attributes, rfl⟩

theorem SameDeclaration.symm {method other : Method} (h : SameDeclaration method other) :
    SameDeclaration other method := by
  obtain ⟨attributes, rfl⟩ := h
  exact ⟨method.attributes, rfl⟩

/-- The same declarations of methods, and all the constants. -/
structure SameMethods (file file' : ClassFile) : Prop where
  pool : file.pool ≤ file'.pool
  thisClass : file'.thisClass = file.thisClass
  methods : List.Forall₂ SameDeclaration file.methods file'.methods

theorem SameMethods.of_le (h : file.pool ≤ pool) : file.SameMethods { file with pool } :=
  ⟨h, rfl, List.forall₂_same.2 fun method _ => .refl method⟩

theorem SameMethods.trans (h : file.SameMethods file') (h' : file'.SameMethods file'') : file.SameMethods file'' where
  pool := ConstantPool.le_trans h.pool h'.pool
  thisClass := h'.thisClass.trans h.thisClass
  methods := forall₂_comp h.methods h'.methods fun method other last hm ho => by
    obtain ⟨attributes, rfl⟩ := hm
    obtain ⟨attributes', rfl⟩ := ho
    exact ⟨attributes', rfl⟩

theorem forall₂_set {α : Type} {R : α → α → Prop} (refl : ∀ a, R a a) {items : List α} {i : Nat} {a b : α}
    (h : items[i]? = some a) (hab : R a b) : List.Forall₂ R items (items.set i b) := by
  induction items generalizing i with
  | nil => cases h
  | cons first rest ih =>
    cases i with
    | zero =>
      cases h
      exact .cons hab (List.forall₂_same.2 fun a _ => refl a)
    | succ i => exact .cons (refl first) (ih h)

theorem SameMethods.setAttributes (h : file.pool ≤ pool) {position : Nat} {method : Method}
    (hm : file.methods[position]? = some method) (attributes : List Attribute) :
    file.SameMethods (({ file with pool } : ClassFile).setAttributes position method attributes) :=
  ⟨h, rfl, forall₂_set .refl hm ⟨attributes, rfl⟩⟩

/-- What a method is called does not depend on its attributes, and is read from a larger pool as before. -/
theorem refines_matchMethod? (h : file.pool ≤ file'.pool) {method other : Method}
    (same : SameDeclaration method other) :
    Refines (file.matchMethod? thisClass target method) (file'.matchMethod? thisClass target other) := by
  obtain ⟨attributes, rfl⟩ := same
  refine .bind (.mapError _ (refines_utf8 h method.name)) fun _ => ?_
  dsimp only
  split
  · exact .refl _
  · exact .bind (.mapError _ (refines_utf8 h method.descriptor)) fun _ => .refl _

/-- A method is found again if attributes change. -/
theorem findMethod?_same (h : file.pool ≤ file'.pool) {methods others : List Method} {start position : Nat}
    {method : Method} {shape : MethodShape} (same : List.Forall₂ SameDeclaration methods others)
    (hfound : file.findMethod? thisClass target methods start = .ok (some (position, method, shape))) :
    ∃ other, SameDeclaration method other ∧
      file'.findMethod? thisClass target others start = .ok (some (position, other, shape)) := by
  induction same generalizing start with
  | nil => cases hfound
  | @cons first other rest others hsame _ ih =>
    unfold findMethod? at hfound
    split at hfound
    · cases hfound
    · next found hmatch =>
      cases hfound
      refine ⟨other, hsame, ?_⟩
      unfold findMethod?
      rw [refines_matchMethod? h hsame _ hmatch]
    · next hmatch =>
      obtain ⟨last, hlast, hagain⟩ := ih hfound
      refine ⟨last, hlast, ?_⟩
      unfold findMethod?
      rw [refines_matchMethod? h hsame _ hmatch]
      exact hagain

/-- If no method is named, then none is if attributes change. -/
theorem findMethod?_none (h : file.pool ≤ file'.pool) {methods others : List Method} {start : Nat}
    (same : List.Forall₂ SameDeclaration methods others)
    (hnone : file.findMethod? thisClass target methods start = .ok none) :
    file'.findMethod? thisClass target others start = .ok none := by
  induction same generalizing start with
  | nil => rfl
  | cons hsame _ ih =>
    unfold findMethod? at hnone ⊢
    split at hnone
    · cases hnone
    · cases hnone
    · next hmatch =>
      rw [refines_matchMethod? h hsame _ hmatch]
      exact ih hnone

/-- What `locate` finds first: the declaration of the method. -/
theorem findMethod?_of_locate (h : file.locate target = .ok (some located)) :
    file.name = .ok target.owner.text ∧ ∃ method, located.flags = method.flags ∧
      file.findMethod? target.owner.text target file.methods 0 =
        .ok (some (located.position, method, located.shape)) := by
  obtain ⟨thisClass, hclass, h⟩ := except_bind_eq_ok.1 h
  split at h
  · cases h
  next howner =>
  rw [Classical.not_not.1 howner] at hclass h
  obtain ⟨found, hfound, h⟩ := except_bind_eq_ok.1 h
  cases found with
  | none => cases h
  | some found =>
    obtain ⟨position, method, shape⟩ := found
    refine ⟨mapError_eq_ok.1 hclass, method, ?_⟩
    obtain ⟨code?, -, h⟩ := except_bind_eq_ok.1 h
    cases code? with
    | none =>
      cases h
      exact ⟨rfl, hfound⟩
    | some code =>
      obtain ⟨body, -, h⟩ := except_bind_eq_ok.1 h
      cases h
      exact ⟨rfl, hfound⟩

theorem SameMethods.name (same : file.SameMethods file') {name : String} (h : file.name = .ok name) :
    file'.name = .ok name := by
  unfold ClassFile.name at h ⊢
  rw [same.thisClass]
  exact className_of_le same.pool h

/-- With whatever code it has there, the method is located where it was. -/
theorem SameMethods.locate (same : file.SameMethods file') {code : Code}
    (h : file.locate target = .ok (some located)) (hcode : file'.methodCode located.position = .ok (some code))
    (hdecode : MethodBody.decode code file'.pool located.shape = .ok body) :
    file'.locate target = .ok (some ⟨located.position, located.flags, located.shape, some body⟩) := by
  obtain ⟨hname, method, hflags, hfound⟩ := findMethod?_of_locate h
  obtain ⟨other, ⟨attributes, rfl⟩, hagain⟩ := findMethod?_same same.pool same.methods hfound
  refine except_bind_eq_ok.2 ⟨_, mapError_eq_ok.2 (same.name hname), ?_⟩
  rw [if_neg (by simp)]
  refine except_bind_eq_ok.2 ⟨_, hagain, ?_⟩
  refine except_bind_eq_ok.2 ⟨_, mapError_eq_ok.2 hcode, ?_⟩
  rw [hflags]
  exact except_bind_eq_ok.2 ⟨_, hdecode, rfl⟩

/-- With the same attributes at the method, it is located with the same body. -/
theorem SameMethods.locate_at (same : file.SameMethods file') (h : file.locate target = .ok (some located))
    (hbody : located.body = some body)
    (there : file'.methods[located.position]? = file.methods[located.position]?) :
    file'.locate target = .ok (some located) := by
  obtain ⟨_, code, -, hcode, hdecode⟩ := locate_eq_some h hbody
  obtain ⟨method, i, item, hm, hfound, hparse⟩ := methodCode_eq_some.1 hcode
  have hagain : file'.methodCode located.position = .ok (some code) :=
    methodCode_eq_some.2 ⟨method, i, item, there.trans hm, findAttribute_of_le same.pool hfound, hparse⟩
  rw [same.locate h hagain (MethodBody.decode_of_le same.pool code located.shape body hdecode), ← hbody]

/-- A method whose code can be decoded is located with a body. -/
theorem SameMethods.locate_decoded (same : file.SameMethods file') (h : file.locate target = .ok (some located))
    (hbody : located.body = some body) (decodes : file'.Decodes located.position) :
    ∃ out, file'.locate target = .ok (some ⟨located.position, located.flags, located.shape, some out⟩) ∧
      out.shape = body.shape := by
  obtain ⟨_, _, declared, -, hdecode⟩ := locate_eq_some h hbody
  obtain ⟨hm, name, descriptor, thisClass, hname, hdescriptor, hclass, hparse⟩ := declared
  obtain ⟨other, shape, code, out, ⟨ho, name', descriptor', thisClass', hname', hdescriptor', hclass', hparse'⟩,
    hcode, hout⟩ := decodes_iff.1 decodes
  obtain ⟨found, hfound, attributes, rfl⟩ := exists_right_at same.methods hm
  cases hfound.symm.trans ho
  cases (utf8_of_le same.pool hname).symm.trans hname'
  cases (utf8_of_le same.pool hdescriptor).symm.trans hdescriptor'
  cases (same.name hclass).symm.trans hclass'
  cases hparse.symm.trans hparse'
  refine ⟨out, same.locate h hcode hout, ?_⟩
  rw [(MethodBody.keeps_of_decode hout).1, (MethodBody.keeps_of_decode hdecode).1]

/-- If the signature named no method, then it names none. -/
theorem SameMethods.locate_none (same : file.SameMethods file') (h : file.locate target = .ok none) :
    file'.locate target = .ok none := by
  obtain ⟨found, hclass, h⟩ := except_bind_eq_ok.1 h
  refine except_bind_eq_ok.2 ⟨found, mapError_eq_ok.2 (same.name (mapError_eq_ok.1 hclass)), ?_⟩
  split at h
  · next howner =>
    rw [if_pos howner]
    exact h
  next howner =>
  rw [if_neg howner]
  obtain ⟨result, hfound, h⟩ := except_bind_eq_ok.1 h
  cases result with
  | none => exact except_bind_eq_ok.2 ⟨none, findMethod?_none same.pool same.methods hfound, rfl⟩
  | some found =>
    obtain ⟨position, method, shape⟩ := found
    obtain ⟨code?, -, h⟩ := except_bind_eq_ok.1 h
    cases code? with
    | none => cases h
    | some code =>
      obtain ⟨body, -, h⟩ := except_bind_eq_ok.1 h
      cases h

/-- The patch found no method to apply to. -/
theorem locate_of_notFound (h : ClassFile.patch target strategy limit file = .ok .notFound file') :
    file.locate target = .ok none := by
  unfold ClassFile.patch at h
  rw [get_bind_eq_ok] at h
  cases hlocate : file.locate target with
  | error problem =>
    rw [hlocate] at h
    exact (throw_ne_ok.1 h).elim
  | ok found =>
    rw [hlocate] at h
    cases found with
    | none => rfl
    | some located =>
      obtain ⟨result, between, -, h⟩ := bind_eq_ok.1 h
      cases result with
      | none => cases (pure_eq_ok.1 h).1
      | some written =>
        dsimp only at h
        rw [get_bind_eq_ok] at h
        cases hcode : between.methodCode located.position with
        | error problem =>
          rw [hcode] at h
          exact (throw_ne_ok.1 h).elim
        | ok existing =>
          rw [hcode] at h
          dsimp only at h
          split at h
          · cases (pure_eq_ok.1 h).1
          · obtain ⟨_, _, -, h⟩ := bind_eq_ok.1 h
            cases (pure_eq_ok.1 h).1

/-- Signatures that name one method are the same. -/
theorem target_eq_of_locate {found : LocatedMethod} (h : file.locate target = .ok (some located))
    (h' : file.locate other = .ok (some found)) (same : found.position = located.position) : other = target := by
  obtain ⟨howner, ⟨method, hm, hnames⟩, -⟩ := names_of_locate h
  obtain ⟨howner', ⟨method', hm', hnames'⟩, -⟩ := names_of_locate h'
  rw [same, hm] at hm'
  cases hm'
  have hdescriptor : other.descriptor = target.descriptor := by
    have hrender := Except.ok.inj (hnames'.descriptor.symm.trans hnames.descriptor)
    have hparse := MethodDescriptor.parse_eq_ok.2 hrender.symm
    exact (Except.ok.inj ((MethodDescriptor.parse_eq_ok.2 rfl).symm.trans hparse)).symm
  obtain ⟨⟨owner, _⟩, ⟨name, _⟩, descriptor⟩ := target
  obtain ⟨⟨owner', _⟩, ⟨name', _⟩, descriptor'⟩ := other
  cases Except.ok.inj (howner'.symm.trans howner)
  cases Except.ok.inj (hnames'.name.symm.trans hnames.name)
  cases hdescriptor
  rfl

end ClassFile

end ClassWeave
