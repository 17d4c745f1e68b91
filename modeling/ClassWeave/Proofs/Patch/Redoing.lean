import ClassWeave.Proofs.Patch.Accumulating

/-!
Doing a patch again. With all its constants there a strategy makes of a body what it made of it before, and it writes
the same code in the same place. The class that is patched may have other code at its other methods.
-/

namespace ClassWeave

open ConstantPool

variable {p q r : ConstantPool} {old body : MethodBody}

/-- A handler that was put in is put in again, around the same body. -/
theorem WrapGuard.apply_of_patches {guard : WrapGuard} (patches : guard.Patches old p body q) (hle : q ≤ r) :
    guard.apply (some old) r = .ok (.patched body) r := by
  obtain ⟨method, code, fits, ⟨label, rehearsed, used, left, hrehearsed, hnew⟩, first, tail, labels, htail, rfl⟩ :=
    patches
  have hleft : left = q := (form_eq htail hrehearsed).1
  have found := (guard.settled_tail _ _ _ _ _ hrehearsed).2 r (hleft ▸ hle)
  have again := (guard.settled_tail _ _ _ _ _ htail).2 r hle
  unfold apply
  dsimp only
  rw [if_neg (by simp [method]), if_neg code, if_pos fits]
  refine bind_eq_ok.2 ⟨_, r, Patching.rehearse_eq_ok.2 ⟨rfl, r, found⟩, ?_⟩
  dsimp only
  rw [if_neg (by simp [hnew])]
  exact bind_eq_ok.2 ⟨_, r, again, rfl⟩

/-- So are guards. -/
theorem PrologueGuard.apply_of_patches {guard : PrologueGuard} (patches : guard.Patches old p body q) (hle : q ≤ r) :
    guard.apply (some old) r = .ok (.patched body) r := by
  obtain ⟨method, guards, ⟨rehearsed, used, left, hrehearsed, hnew⟩, code, labels, hcode, rfl⟩ := patches
  cases hrehearsed.symm.trans hcode
  have again := (guard.settled_code old _ _ _ hcode).2 r hle
  unfold apply
  dsimp only
  rw [if_neg (by simp [method]), if_neg (by simp [guards])]
  refine bind_eq_ok.2 ⟨_, r, Patching.rehearse_eq_ok.2 ⟨rfl, r, again⟩, ?_⟩
  dsimp only
  rw [if_neg (by simp [hnew])]
  exact bind_eq_ok.2 ⟨_, r, again, rfl⟩

/-- A strategy that made a body of another makes it again. -/
theorem PatchStrategy.apply_of_le {strategy : PatchStrategy}
    (h : strategy.apply (some old) p = .ok (.patched body) q) (hle : q ≤ r) :
    strategy.apply (some old) r = .ok (.patched body) r := by
  cases strategy with
  | wrap guard =>
    change guard.apply (some old) p = _ at h
    obtain ⟨_, ⟨⟩, patches⟩ := WrapGuard.patches_of_apply h
    exact WrapGuard.apply_of_patches patches hle
  | prologue guard =>
    change guard.apply (some old) p = _ at h
    obtain ⟨_, ⟨⟩, patches⟩ := PrologueGuard.patches_of_apply h
    exact PrologueGuard.apply_of_patches patches hle
  | replace replacement => exact (replacement.settled_apply (some old) _ _ _ h).2 r hle

/-- New code is made of any body with the declaration. -/
theorem PatchStrategy.apply_of_shape {strategy : PatchStrategy} {other : MethodBody}
    (replaces : strategy.keepsCode = false) (hshape : other.shape = old.shape)
    (h : strategy.apply (some old) p = .ok (.patched body) q) (hle : q ≤ r) :
    strategy.apply (some other) r = .ok (.patched body) r := by
  cases strategy with
  | wrap guard => cases replaces
  | prologue guard => cases replaces
  | replace replacement =>
    change replacement.apply (some old) p = _ at h
    change replacement.apply (some other) r = _
    rw [replacement.apply_congr hshape]
    exact (replacement.settled_apply (some old) _ _ _ h).2 r hle

namespace ClassFile

variable {file file' final other : ClassFile} {target : MethodSignature} {strategy : PatchStrategy} {limit : Nat}
  {located : LocatedMethod} {body : MethodBody} {code : Code} {pool : ConstantPool}

/-- The place of the code of a method that is located: the method and its first code attribute, the name that new code
gets, and the code that is there. -/
structure CodePlace (file : ClassFile) (position : Nat) (method : Method) (i : Nat) (index : PoolIndex)
    (existing : Code) : Prop where
  declared : file.methods[position]? = some method
  stored : ∃ item, file.pool.findAttribute Code.format.name method.attributes = some (i, item) ∧
    item.parse Code.format = .ok existing
  index : file.pool.find? (.utf8 Code.format.name) = some index

theorem exists_codePlace {position : Nat} {existing : Code}
    (h : file.methodCode position = .ok (some existing)) :
    ∃ method i index, file.CodePlace position method i index existing := by
  obtain ⟨method, i, item, hm, hfound, hparse⟩ := methodCode_eq_some.1 h
  obtain ⟨-, hname, -⟩ := findAttribute_eq_some.1 hfound
  have hslot := ConstantPool.get_eq_ok.1 (ConstantPool.utf8_eq_ok.1 hname)
  rw [← Array.getElem?_toList] at hslot
  cases hindex : file.pool.find? (.utf8 Code.format.name) with
  | none => exact absurd (List.mem_of_getElem? hslot) (ConstantPool.notMem_of_find? hindex)
  | some index => exact ⟨method, i, index, hm, ⟨item, hfound, hparse⟩, hindex⟩

namespace CodePlace

variable {position i : Nat} {method : Method} {index : PoolIndex} {existing : Code}

theorem methodCode (h : file.CodePlace position method i index existing) :
    file.methodCode position = .ok (some existing) := by
  obtain ⟨item, hfound, hparse⟩ := h.stored
  exact methodCode_eq_some.2 ⟨method, i, item, h.declared, hfound, hparse⟩

/-- New code is put there. -/
theorem setMethodCode_eq (h : file.CodePlace position method i index existing) (code : Code) :
    setMethodCode position code file =
      .ok () (file.setAttributes position method (method.attributes.set i ⟨index, code.bytes⟩)) := by
  obtain ⟨item, hfound, -⟩ := h.stored
  have hindex : internUtf8 Code.format.name file.pool = .ok index file.pool := intern_eq_ok.2 (.inl ⟨h.index, rfl⟩)
  have hstore : Code.format.store code file.pool = .ok ⟨index, code.bytes⟩ file.pool :=
    bind_eq_ok.2 ⟨index, file.pool, adaptExcept_eq_ok.2 hindex, rfl⟩
  refine bind_eq_ok.2 ⟨⟨index, code.bytes⟩, file, ?_, ?_⟩
  · unfold interning withPool
    rw [hstore]
  · rw [get_bind_eq_ok, method_eq_ok.2 h.declared]
    dsimp only
    rw [hfound]
    rfl

end CodePlace

/-- What comes of a patch for which a strategy writes code: nothing if the code is there, else the class with it. -/
theorem Rewrites.patch_eq (h : file.Rewrites target strategy limit located body code pool) :
    ∃ method i index existing,
      ({ file with pool } : ClassFile).CodePlace located.position method i index existing ∧
      ClassFile.patch target strategy limit file =
        if existing = code then .ok .unchanged { file with pool }
        else .ok (.applied located.position body.envelope) (({ file with pool } : ClassFile).setAttributes
          located.position method (method.attributes.set i ⟨index, code.bytes⟩)) := by
  obtain ⟨middle, happly, -⟩ := h.patched
  obtain ⟨before, hbefore, -⟩ := PatchStrategy.follows_of_apply happly
  obtain ⟨_, existing, -, hcode, -⟩ := locate_eq_some h.found hbefore
  have hexisting := methodCode_of_le hcode h.le
  obtain ⟨method, i, index, place⟩ := exists_codePlace hexisting
  refine ⟨method, i, index, existing, place, ?_⟩
  have hcoded : file.withPool (patchedCode file.version strategy limit located) =
      .ok (some (code, body.envelope)) { file with pool } := by
    unfold withPool
    rw [h.patchedCode_eq]
  split
  · next hsame =>
    unfold ClassFile.patch
    rw [get_bind_eq_ok, h.found]
    refine bind_eq_ok.2 ⟨_, _, hcoded, ?_⟩
    dsimp only
    rw [get_bind_eq_ok, hexisting]
    dsimp only
    rw [if_pos (congrArg some hsame)]
    rfl
  · next hother =>
    unfold ClassFile.patch
    rw [get_bind_eq_ok, h.found]
    refine bind_eq_ok.2 ⟨_, _, hcoded, ?_⟩
    dsimp only
    rw [get_bind_eq_ok, hexisting]
    dsimp only
    rw [if_neg fun he => hother (Option.some.inj he)]
    exact bind_eq_ok.2 ⟨(), _, adaptExcept_eq_ok.2 (place.setMethodCode_eq code), rfl⟩

/-- Code is put in the place of other code. -/
structure Puts (file : ClassFile) (target : MethodSignature) (strategy : PatchStrategy) (limit : Nat)
    (located : LocatedMethod) (body : MethodBody) (code : Code) (file' : ClassFile) : Prop where
  rewrites : file.Rewrites target strategy limit located body code file'.pool
  put : ∃ method i index existing,
    ({ file with pool := file'.pool } : ClassFile).CodePlace located.position method i index existing ∧
    existing ≠ code ∧ file' = ({ file with pool := file'.pool } : ClassFile).setAttributes located.position method
      (method.attributes.set i ⟨index, code.bytes⟩)

/-- The other methods stay as they were. -/
theorem Puts.methods_eq (h : file.Puts target strategy limit located body code file') {position : Nat}
    (hne : position ≠ located.position) : file'.methods[position]? = file.methods[position]? := by
  obtain ⟨-, method, i, index, existing, -, -, hfile⟩ := h
  have hmethods : file'.methods = file.methods.set located.position _ := congrArg ClassFile.methods hfile
  rw [hmethods, List.getElem?_set_ne hne.symm]

theorem Puts.decodes (h : file.Puts target strategy limit located body code file') :
    file.Decodes located.position := by
  obtain ⟨middle, happly, -⟩ := h.rewrites.patched
  obtain ⟨before, hbefore, -⟩ := PatchStrategy.follows_of_apply happly
  obtain ⟨method, code, declared, hcode, hdecode⟩ := locate_eq_some h.rewrites.found hbefore
  exact decodes_iff.2 ⟨method, located.shape, code, before, declared, hcode, hdecode⟩

theorem puts_of_applied {position : Nat} {envelope : Envelope}
    (h : ClassFile.patch target strategy limit file = .ok (.applied position envelope) file') :
    ∃ located body code, file.Puts target strategy limit located body code file' := by
  obtain ⟨located, body, code, pool, rewrites, -⟩ := patch_eq_applied h
  obtain ⟨method, i, index, existing, place, hpatch⟩ := rewrites.patch_eq
  rw [hpatch] at h
  split at h
  · cases h
  · next hother =>
    cases h
    exact ⟨located, body, code, rewrites, method, i, index, existing, place, hother, rfl⟩

/-- The same code is written in a class that has the constants, if the same body is made there. -/
theorem Rewrites.again (h : file.Rewrites target strategy limit located body code pool) (hle : pool ≤ other.pool)
    (version : other.version = file.version) {found : LocatedMethod} (hfound : other.locate target = .ok (some found))
    (happly : ∀ middle, strategy.apply located.body file.pool = .ok (.patched body) middle → middle ≤ other.pool →
      strategy.apply found.body other.pool = .ok (.patched body) other.pool) :
    other.Rewrites target strategy limit found body code other.pool := by
  obtain ⟨middle, hbody, ⟨observed, hcheck⟩, hencode⟩ := h.patched
  obtain ⟨hmiddle, again⟩ := body.settled_encodeWithLimit _ _ _ _ _ hencode
  have grown := ConstantPool.le_trans hmiddle hle
  exact ⟨hfound, other.pool, happly middle hbody grown,
    ⟨observed, body.refines_checkEnvelope grown observed hcheck⟩, version ▸ again other.pool hle⟩

/-- The same method, or the same with other code in the place of the first. -/
def SameButCode (pool : ConstantPool) (method other : Method) : Prop :=
  other = method ∨ ∃ i old item, pool.findAttribute Code.format.name method.attributes = some (i, old) ∧
    pool.utf8 item.name = .ok Code.format.name ∧ other = { method with attributes := method.attributes.set i item }

namespace SameButCode

variable {method other last : Method} {i : Nat} {old : Attribute}

theorem sameDeclaration (h : SameButCode pool method other) : SameDeclaration method other := by
  obtain rfl | ⟨i, old, item, -, -, rfl⟩ := h
  · exact .refl _
  · exact ⟨_, rfl⟩

theorem of_le (h : SameButCode p method other) (hle : p ≤ q) : SameButCode q method other :=
  h.imp id fun ⟨i, old, item, hfound, hname, hsame⟩ =>
    ⟨i, old, item, findAttribute_of_le hle hfound, utf8_of_le hle hname, hsame⟩

/-- There is code in the same place, and putting other code there makes no difference. -/
theorem place (h : SameButCode pool method other)
    (hfound : pool.findAttribute Code.format.name method.attributes = some (i, old)) (item : Attribute) :
    (∃ found, pool.findAttribute Code.format.name other.attributes = some (i, found)) ∧
      ({ other with attributes := other.attributes.set i item } : Method) =
        { method with attributes := method.attributes.set i item } := by
  obtain rfl | ⟨j, first, found, hfirst, hname, rfl⟩ := h
  · exact ⟨⟨old, hfound⟩, rfl⟩
  · cases hfirst.symm.trans hfound
    refine ⟨⟨found, findAttribute_set hfirst hname⟩, ?_⟩
    dsimp only
    rw [List.set_set]

theorem trans (h : SameButCode pool method other) (h' : SameButCode pool other last) :
    SameButCode pool method last := by
  obtain rfl | ⟨i, old, item, hfound, hname, rfl⟩ := h
  · exact h'
  · obtain rfl | ⟨j, first, found, hfirst, hagain, rfl⟩ := h'
    · exact .inr ⟨i, old, item, hfound, hname, rfl⟩
    · cases (findAttribute_set hfound hname).symm.trans hfirst
      refine .inr ⟨i, old, found, hfound, hagain, ?_⟩
      dsimp only
      rw [List.set_set]

end SameButCode

/-- Of a method with other code comes the same if new code is put in. -/
theorem CodePlace.put_eq {position position' i i' : Nat} {method method' : Method} {index index' : PoolIndex}
    {existing existing' : Code} (place : file.CodePlace position method i index existing)
    (place' : other.CodePlace position' method' i' index' existing') (hle : file.pool ≤ other.pool)
    (related : SameButCode other.pool method method') (content : Bytes) :
    ({ method' with attributes := method'.attributes.set i' ⟨index', content⟩ } : Method) =
      { method with attributes := method.attributes.set i ⟨index, content⟩ } := by
  obtain ⟨item, hstored, -⟩ := place.stored
  obtain ⟨item', hstored', -⟩ := place'.stored
  obtain ⟨⟨found, hfound⟩, hput⟩ := related.place (findAttribute_of_le hle hstored) ⟨index, content⟩
  cases hstored'.symm.trans hfound
  cases place'.index.symm.trans (find?_of_le hle place.index)
  exact hput

/-- The class with more constants, and with other code at some of its methods. -/
structure Evolves (file file' : ClassFile) : Prop where
  pool : file.pool ≤ file'.pool
  methods : List.Forall₂ (SameButCode file'.pool) file.methods file'.methods
  rest : file' = { file with pool := file'.pool, methods := file'.methods }

namespace Evolves

theorem refl (file : ClassFile) : file.Evolves file :=
  ⟨ConstantPool.le_refl _, List.forall₂_same.2 fun _ _ => .inl rfl, rfl⟩

theorem trans (h : file.Evolves file') (h' : file'.Evolves final) : file.Evolves final where
  pool := ConstantPool.le_trans h.pool h'.pool
  methods := forall₂_comp h.methods h'.methods fun _ _ _ first second => (first.of_le h'.pool).trans second
  rest := by rw [h'.rest, h.rest]

theorem sameMethods (h : file.Evolves file') : file.SameMethods file' :=
  ⟨h.pool, by rw [h.rest], h.methods.imp fun _ _ => SameButCode.sameDeclaration⟩

theorem of_puts (h : file.Puts target strategy limit located body code file') : file.Evolves file' := by
  obtain ⟨rewrites, method, i, index, existing, place, -, hfile⟩ := h
  obtain ⟨item, hfound, -⟩ := place.stored
  have hname : file'.pool.utf8 index = .ok Code.format.name :=
    utf8_eq_ok.2 (get_of_find? place.index)
  refine ⟨rewrites.le, ?_, by rw [hfile]; rfl⟩
  have hset := forall₂_set (fun _ => .inl rfl) place.declared
    (show SameButCode file'.pool method _ from .inr ⟨i, item, ⟨index, code.bytes⟩, hfound, hname, rfl⟩)
  rw [hfile]
  exact hset

end Evolves

/-- A guard stays there if code is put in at another method, or around or in front of the old code. -/
theorem Has.of_applied {other : MethodSignature} {further : PatchStrategy} {position : Nat} {envelope : Envelope}
    (h : file.Has target strategy)
    (hpatch : ClassFile.patch other further limit file = .ok (.applied position envelope) file')
    (keeps : other = target → further.keepsCode = true) (stored : file'.Fits)
    (fits : ∀ located body code pool, file.Rewrites other further limit located body code pool →
      WritesFit file.version further located.body body code pool) : file'.Has target strategy := by
  by_cases hsame : other = target
  · subst hsame
    exact (has_of_applied hpatch (keeps rfl) stored fits).2 strategy h
  · obtain ⟨located, body, code, puts⟩ := puts_of_applied hpatch
    obtain ⟨found, old, hfound, hold, present⟩ := h
    have evolves := Evolves.of_puts puts
    have hne : found.position ≠ located.position := fun he =>
      hsame (target_eq_of_locate hfound puts.rewrites.found he.symm)
    exact ⟨found, old, evolves.sameMethods.locate_at hfound hold (puts.methods_eq hne), hold,
      present.of_le evolves.pool⟩

end ClassFile

end ClassWeave
