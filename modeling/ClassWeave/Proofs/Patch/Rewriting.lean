import ClassWeave.Proofs.Class.Decoding
import ClassWeave.Proofs.Script.Guarding
import ClassWeave.Patch.Method

/-!
Patching leaves a class readable. The method that is patched can be decoded again, and the others are
not touched.
-/

namespace ClassWeave

namespace ClassFile

variable {file : ClassFile} {target : MethodSignature} {thisClass : String}

theorem matchMethod?_eq_some {method : Method} {shape : MethodShape}
    (h : file.matchMethod? thisClass target method = .ok (some shape)) :
    ∃ name descriptor, file.pool.utf8 method.name = .ok name ∧
      file.pool.utf8 method.descriptor = .ok descriptor ∧
      MethodShape.parse thisClass name method.flags descriptor = .ok shape := by
  obtain ⟨name, hname, h⟩ := except_bind_eq_ok.1 h
  split at h
  · cases h
  next hsame =>
  obtain ⟨descriptor, hdescriptor, h⟩ := except_bind_eq_ok.1 h
  refine ⟨name, descriptor, mapError_eq_ok.1 hname, mapError_eq_ok.1 hdescriptor, ?_⟩
  rw [Classical.not_not.1 hsame]
  split at h
  · cases h
  · split at h
    · cases h
    · cases hparse : MethodShape.parse thisClass target.name.text method.flags descriptor with
      | ok found =>
        rw [hparse] at h
        exact congrArg Except.ok (Option.some.inj (Except.ok.inj h))
      | error problem =>
        rw [hparse] at h
        cases h

theorem findMethod?_eq_some {methods : List Method} {start position : Nat} {method : Method}
    {shape : MethodShape}
    (h : file.findMethod? thisClass target methods start = .ok (some (position, method, shape))) :
    ∃ i, position = start + i ∧ methods[i]? = some method ∧
      file.matchMethod? thisClass target method = .ok (some shape) := by
  induction methods generalizing start with
  | nil => cases h
  | cons first rest ih =>
    unfold findMethod? at h
    split at h
    · cases h
    · next found hmatch =>
      cases h
      exact ⟨0, rfl, rfl, hmatch⟩
    · obtain ⟨i, rfl, hm, hmatch⟩ := ih h
      exact ⟨i + 1, by omega, hm, hmatch⟩

/-- A method is found with its shape, and with the body that its code decodes to. -/
theorem locate_eq_some {located : LocatedMethod} {body : MethodBody}
    (h : file.locate target = .ok (some located)) (hb : located.body = some body) :
    ∃ method code, file.Declares located.position method located.shape ∧
      file.methodCode located.position = .ok (some code) ∧
      MethodBody.decode code file.pool located.shape = .ok body := by
  obtain ⟨thisClass, hclass, h⟩ := except_bind_eq_ok.1 h
  split at h
  · cases h
  obtain ⟨found, hfound, h⟩ := except_bind_eq_ok.1 h
  cases found with
  | none => cases h
  | some found =>
    obtain ⟨position, method, shape⟩ := found
    obtain ⟨i, hi, hm, hmatch⟩ := findMethod?_eq_some hfound
    obtain ⟨name, descriptor, hname, hdescriptor, hshape⟩ := matchMethod?_eq_some hmatch
    obtain ⟨code?, hcode, h⟩ := except_bind_eq_ok.1 h
    cases code? with
    | none =>
      cases h
      cases hb
    | some code =>
      obtain ⟨decoded, hdecode, h⟩ := except_bind_eq_ok.1 h
      cases h
      cases hb
      rw [Nat.zero_add] at hi
      cases hi
      exact ⟨method, code, ⟨hm, name, descriptor, thisClass, hname, hdescriptor,
        mapError_eq_ok.1 hclass, hshape⟩, mapError_eq_ok.1 hcode, hdecode⟩

/-- What a strategy writes for the method that a signature names: a body in the place of the old one,
as code, with the pool that is left then. -/
structure Rewrites (file : ClassFile) (target : MethodSignature) (strategy : PatchStrategy)
    (limit : Nat) (located : LocatedMethod) (body : MethodBody) (code : Code) (pool : ConstantPool) :
    Prop where
  found : file.locate target = .ok (some located)
  patched : ∃ middle, strategy.apply located.body file.pool = .ok (.patched body) middle ∧
    (∃ observed, body.checkEnvelope middle = .ok observed) ∧
      body.encodeWithLimit file.version limit middle = .ok code pool

variable {strategy : PatchStrategy} {limit : Nat} {located : LocatedMethod} {body : MethodBody}
  {code : Code} {pool : ConstantPool}

/-- All constants of the class stay where they are. -/
theorem Rewrites.le (h : file.Rewrites target strategy limit located body code pool) : file.pool ≤ pool := by
  obtain ⟨middle, happly, -, hencode⟩ := h.patched
  obtain ⟨before, hbefore, hle, -⟩ := PatchStrategy.follows_of_apply happly
  exact ConstantPool.le_trans hle (body.settled_encodeWithLimit _ _ _ _ _ hencode).1

theorem patchedCode_eq_some {version : Version} {envelope : Envelope} {start : ConstantPool}
    (h : patchedCode version strategy limit located start = .ok (some (code, envelope)) pool) :
    ∃ body middle, strategy.apply located.body start = .ok (.patched body) middle ∧
      (∃ observed, body.checkEnvelope middle = .ok observed) ∧
      body.encodeWithLimit version limit middle = .ok code pool ∧ envelope = body.envelope := by
  obtain ⟨outcome, middle, happly, h⟩ := bind_eq_ok.1 h
  cases outcome with
  | unchanged => cases (pure_eq_ok.1 h).1
  | patched body =>
    refine ⟨body, middle, happly, ?_⟩
    dsimp only at h
    rw [get_bind_eq_ok] at h
    cases hcheck : body.checkEnvelope middle with
    | error problem =>
      rw [hcheck] at h
      exact (throw_ne_ok.1 h).elim
    | ok observed =>
      rw [hcheck] at h
      obtain ⟨written, p, hencode, h⟩ := bind_eq_ok.1 h
      obtain ⟨he, rfl⟩ := pure_eq_ok.1 h
      cases he
      exact ⟨⟨observed, rfl⟩, adaptExcept_eq_ok.1 hencode, rfl⟩

theorem withPool_eq_ok {α ε : Type} {step : EStateM ε ConstantPool α} {value : α}
    {file' : ClassFile} (h : file.withPool step = .ok value file') :
    ∃ pool, step file.pool = .ok value pool ∧ file' = { file with pool } := by
  unfold withPool at h
  split at h
  · next pool hstep =>
    cases h
    exact ⟨pool, hstep, rfl⟩
  · cases h

/-- A text that the pool holds is interned without a change. -/
theorem internUtf8_of_utf8 {text : String} {p q : ConstantPool} {known index : PoolIndex}
    (hk : p.utf8 known = .ok text) (h : ConstantPool.internUtf8 text p = .ok index q) :
    q = p ∧ p.utf8 index = .ok text := by
  have hsame : q = p := by
    rcases ConstantPool.intern_eq_ok.1 h with ⟨-, rfl⟩ | ⟨hnone, -⟩
    · rfl
    · have hslot := ConstantPool.get_eq_ok.1 (ConstantPool.utf8_eq_ok.1 hk)
      rw [← Array.getElem?_toList] at hslot
      exact absurd (List.mem_of_getElem? hslot) (ConstantPool.notMem_of_find? hnone)
  exact ⟨hsame, hsame ▸ ConstantPool.utf8_of_internUtf8 h⟩

/-- New code takes the place of the old code, under the same name. -/
theorem setMethodCode_eq_ok {position : Nat} {u : Unit} {file' : ClassFile}
    (h : setMethodCode position code file = .ok u file') {existing : Code}
    (hcode : file.methodCode position = .ok (some existing)) :
    ∃ method i old item, file.methods[position]? = some method ∧
      file.pool.findAttribute Code.format.name method.attributes = some (i, old) ∧
      file.pool.utf8 item.name = .ok Code.format.name ∧ item.content = code.bytes ∧
      file' = file.setAttributes position method (method.attributes.set i item) := by
  obtain ⟨method, i, old, hm, hfound, -⟩ := methodCode_eq_some.1 hcode
  obtain ⟨-, hname, -⟩ := ConstantPool.findAttribute_eq_some.1 hfound
  obtain ⟨item, file₁, hitem, h⟩ := bind_eq_ok.1 h
  obtain ⟨pool, hstore, rfl⟩ := withPool_eq_ok hitem
  obtain ⟨index, p, hindex, hstore⟩ := bind_eq_ok.1 hstore
  obtain ⟨content, hcontent, hstore⟩ := except_bind_run.1 hstore
  obtain ⟨rfl, rfl⟩ := pure_eq_ok.1 hstore
  cases Except.ok.inj (mapError_eq_ok.1 hcontent)
  obtain ⟨rfl, hname'⟩ := internUtf8_of_utf8 hname (adaptExcept_eq_ok.1 hindex)
  refine ⟨method, i, old, ⟨index, code.bytes⟩, hm, hfound, hname', rfl, ?_⟩
  rw [get_bind_eq_ok] at h
  have hmethod : ({ file with pool := file.pool } : ClassFile).method position = .ok method :=
    method_eq_ok.2 hm
  rw [hmethod] at h
  dsimp only at h
  rw [hfound] at h
  exact set_eq_ok.1 h

/-- A patch that is applied changes the pool and the code of the one method. -/
theorem patch_eq_applied {position : Nat} {envelope : Envelope} {file' : ClassFile}
    (h : ClassFile.patch target strategy limit file = .ok (.applied position envelope) file') :
    ∃ located body code pool, file.Rewrites target strategy limit located body code pool ∧
      position = located.position ∧ envelope = body.envelope ∧ ∃ method i old item,
        file.methods[located.position]? = some method ∧
        pool.findAttribute Code.format.name method.attributes = some (i, old) ∧
        pool.utf8 item.name = .ok Code.format.name ∧ item.content = code.bytes ∧
        file' = ({ file with pool } : ClassFile).setAttributes located.position method
          (method.attributes.set i item) := by
  unfold ClassFile.patch at h
  rw [get_bind_eq_ok] at h
  cases hlocated : file.locate target with
  | error problem =>
    rw [hlocated] at h
    exact (throw_ne_ok.1 h).elim
  | ok found =>
    rw [hlocated] at h
    cases found with
    | none => cases (pure_eq_ok.1 h).1
    | some located =>
      obtain ⟨result, p, hresult, h⟩ := bind_eq_ok.1 h
      obtain ⟨pool, hpatched, rfl⟩ := withPool_eq_ok hresult
      cases result with
      | none => cases (pure_eq_ok.1 h).1
      | some written =>
        obtain ⟨code, envelope⟩ := written
        dsimp only at h
        rw [get_bind_eq_ok] at h
        cases hexisting : ({ file with pool } : ClassFile).methodCode located.position with
        | error problem =>
          rw [hexisting] at h
          exact (throw_ne_ok.1 h).elim
        | ok existing =>
          rw [hexisting] at h
          dsimp only at h
          split at h
          · cases (pure_eq_ok.1 h).1
          · obtain ⟨_, file₂, hset, h⟩ := bind_eq_ok.1 h
            obtain ⟨he, rfl⟩ := pure_eq_ok.1 h
            cases he
            obtain ⟨body, middle, happly, hcheck, hencode, rfl⟩ := patchedCode_eq_some hpatched
            have rewrites : file.Rewrites target strategy limit located body code pool :=
              ⟨hlocated, middle, happly, hcheck, hencode⟩
            obtain ⟨before, hbefore, -⟩ := PatchStrategy.follows_of_apply happly
            obtain ⟨_, existing, -, hcode, -⟩ := locate_eq_some hlocated hbefore
            exact ⟨located, body, code, pool, rewrites, rfl, rfl,
              setMethodCode_eq_ok (adaptExcept_eq_ok.1 hset) (methodCode_of_le hcode rewrites.le)⟩

end ClassFile

end ClassWeave
