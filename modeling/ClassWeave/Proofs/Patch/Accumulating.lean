import ClassWeave.Proofs.Patch.Remaining

/-!
Guards do not accumulate. The method of a class is patched by one guard after the other, and the class is written and
parsed again after each of them, also after one that fails. A guard that was put in is there from then on, so the
same guard is never put in again, if what is written fits the fields that hold it.
-/

namespace ClassWeave

namespace ClassFile

variable {file file' : ClassFile} {target : MethodSignature} {strategy further : PatchStrategy} {limit : Nat}
  {image : Bytes}

/-- Result of a patch that puts in new code. -/
def isApplied : EStateM.Result PatchError ClassFile MethodPatch → Bool
  | .ok (.applied _ _) _ => true
  | _ => false

theorem isApplied_eq_true {result : EStateM.Result PatchError ClassFile MethodPatch} :
    isApplied result = true ↔ ∃ position envelope file, result = .ok (.applied position envelope) file := by
  unfold isApplied
  split
  · next position envelope file => exact ⟨fun _ => ⟨position, envelope, file, rfl⟩, fun _ => rfl⟩
  · next hother => exact ⟨nofun, fun ⟨position, envelope, file, h⟩ => (hother position envelope file h).elim⟩

/-- The class that a patch leaves, however it ends. -/
def left (target : MethodSignature) (strategy : PatchStrategy) (limit : Nat) (file : ClassFile) : ClassFile :=
  stateAfter (ClassFile.patch target strategy limit) file

/-- The class is patched by one strategy after the other, and written and parsed again in between. What comes of each
patch, up to where the class cannot be parsed. -/
def patchAll (target : MethodSignature) (limit : Nat) :
    List PatchStrategy → ClassFile → List (EStateM.Result PatchError ClassFile MethodPatch)
  | [], _ => []
  | strategy :: rest, file =>
    ClassFile.patch target strategy limit file ::
      match ClassFile.parse (file.left target strategy limit).bytes with
      | .error _ => []
      | .ok reread => patchAll target limit rest reread

theorem patchAll_cons {rest : List PatchStrategy} {reread : ClassFile}
    (h : ClassFile.parse (file.left target strategy limit).bytes = .ok reread) :
    patchAll target limit (strategy :: rest) file =
      ClassFile.patch target strategy limit file :: patchAll target limit rest reread := by
  change _ :: (match ClassFile.parse (file.left target strategy limit).bytes with
    | .error _ => []
    | .ok reread => patchAll target limit rest reread) = _
  rw [h]

/-- What each of the patches writes fits, and so do the constants that it leaves. -/
def AllFit (target : MethodSignature) (limit : Nat) : List PatchStrategy → ClassFile → Prop
  | [], _ => True
  | strategy :: rest, file =>
    (∀ located body code pool, file.Rewrites target strategy limit located body code pool →
      WritesFit file.version strategy located.body body code pool) ∧
    (∀ constant ∈ (file.left target strategy limit).pool.constants, constant.Fits) ∧
    ∀ reread, ClassFile.parse (file.left target strategy limit).bytes = .ok reread → AllFit target limit rest reread

section Leaving

variable {holds : ConstantPool → Prop}

/-- A patch reaches the pool only by interning, however it ends. -/
theorem leaves_patch (interns : KeptByInterning holds) (target : MethodSignature) (strategy : PatchStrategy)
    (limit : Nat) : Leaves (Pooled holds) (ClassFile.patch target strategy limit) := by
  refine .get fun file _ => ?_
  split
  · exact .throw _
  · exact .pure _
  · next located _ =>
    refine .bind (leaves_withPool fun file => leaves_patchedCode interns file.version strategy limit located)
      fun result => ?_
    cases result with
    | none => exact .pure _
    | some written =>
      obtain ⟨code, envelope⟩ := written
      refine .get fun file _ => ?_
      split
      · exact .throw _
      · exact .ite (.pure _) (.bind (.adaptExcept _ (leaves_setMethodCode interns _ code)) fun _ => .pure _)

theorem le_left (file : ClassFile) (target : MethodSignature) (strategy : PatchStrategy) (limit : Nat) :
    file.pool ≤ (file.left target strategy limit).pool :=
  leaves_patch (ConstantPool.kept_le file.pool) target strategy limit file (ConstantPool.le_refl _)

theorem canonical_left (h : file.pool.Canonical) : (file.left target strategy limit).pool.Canonical :=
  leaves_patch ConstantPool.kept_canonical target strategy limit file h

end Leaving

/-- Unless a patch is applied, it leaves the class with more constants at most. -/
theorem left_cases (file : ClassFile) (target : MethodSignature) (strategy : PatchStrategy) (limit : Nat) :
    (∃ position envelope, ClassFile.patch target strategy limit file =
      .ok (.applied position envelope) (file.left target strategy limit)) ∨
    isApplied (ClassFile.patch target strategy limit file) = false ∧
      file.left target strategy limit = { file with pool := (file.left target strategy limit).pool } := by
  have untouched := repooled_of_patch file target strategy limit
  unfold left stateAfter
  cases hpatch : ClassFile.patch target strategy limit file with
  | error problem file' =>
    rw [hpatch] at untouched
    exact .inr ⟨rfl, untouched.same⟩
  | ok outcome file' =>
    rw [hpatch] at untouched
    cases outcome with
    | notFound => exact .inr ⟨rfl, by rw [show file' = file from untouched]⟩
    | unchanged => exact .inr ⟨rfl, untouched.same⟩
    | applied position envelope => exact .inl ⟨position, envelope, rfl⟩

/-- What a patch leaves is written and parsed again as it is, if what is written fits. -/
theorem parse_left (parsed : ClassFile.parse image = .ok file)
    (fits : ∀ located body code pool, file.Rewrites target strategy limit located body code pool →
      WritesFit file.version strategy located.body body code pool)
    (constants : ∀ constant ∈ (file.left target strategy limit).pool.constants, constant.Fits) :
    (file.left target strategy limit).Fits ∧
      ClassFile.parse (file.left target strategy limit).bytes = .ok (file.left target strategy limit) := by
  have stored := fits_of_parse parsed
  have kept : (file.left target strategy limit).Fits := by
    obtain ⟨position, envelope, happlied⟩ | ⟨-, hsame⟩ := left_cases file target strategy limit
    · exact (storable_of_patch happlied stored fits).1.1
    · rw [hsame]
      obtain ⟨stored, -⟩ := stored
      exact ⟨stored.superClass, stored.interfaces, stored.fields, stored.fieldsFit, stored.methods,
        stored.methodsFit, stored.attributes, stored.contents⟩
  exact ⟨kept, parse_bytes_of_canonical (canonical_left (canonical_of_parse parsed)) kept constants⟩

/-- The method that the target names has the guard of the strategy. -/
def Has (file : ClassFile) (target : MethodSignature) (strategy : PatchStrategy) : Prop :=
  ∃ located body, file.locate target = .ok (some located) ∧ located.body = some body ∧
    strategy.Present body file.pool

/-- The body that a patch writes is read again but for the names of its labels. -/
theorem Rewrites.sameCode {located : LocatedMethod} {body out : MethodBody} {code : Code} {pool : ConstantPool}
    (h : file.Rewrites target strategy limit located body code pool)
    (fit : WritesFit file.version strategy located.body body code pool)
    (hout : MethodBody.decode code pool located.shape = .ok out) : body.SameCode out := by
  obtain ⟨⟨layout, tables, written⟩, hshape, sized, inside⟩ := h.writtenAs fit.behind
  rw [← hshape] at hout
  obtain ⟨entries, known, back⟩ := written.readBack fit.tables sized inside hout
  obtain ⟨layout', -, matching⟩ := Layout.compute_of_alike back.alike back.nodup_labels written.placed
  have same := back.sameUpToLabels matching
  exact ⟨same.shape, same.nodes, same.handlers⟩

/-- A guard that was applied is there, and guards that were there still are. -/
theorem has_of_applied {position : Nat} {envelope : Envelope}
    (h : ClassFile.patch target strategy limit file = .ok (.applied position envelope) file')
    (keeps : strategy.keepsCode = true) (stored : file'.Fits)
    (fits : ∀ located body code pool, file.Rewrites target strategy limit located body code pool →
      WritesFit file.version strategy located.body body code pool) :
    file'.Has target strategy ∧
      ∀ earlier : PatchStrategy, file.Has target earlier → file'.Has target earlier := by
  obtain ⟨located, body, code, before, out, rewrites, -, hbefore, hout, hlocate, -⟩ :=
    rereads_of_patch h (fun _ _ _ _ rewrites => ⟨(fits _ _ _ _ rewrites).tables, (fits _ _ _ _ rewrites).behind⟩)
      stored
  have same := rewrites.sameCode (fits _ _ _ _ rewrites) hout
  have hle := rewrites.le
  obtain ⟨middle, happly, -, hencode⟩ := rewrites.patched
  rw [hbefore] at happly
  have unique := MethodBody.nodup_of_encode hencode
  have grown : middle ≤ file'.pool := (body.settled_encodeWithLimit _ _ _ _ _ hencode).1
  refine ⟨⟨_, out, hlocate, rfl, (PatchStrategy.present_of_apply keeps unique happly grown).sameCode same⟩,
    fun earlier hhas => ?_⟩
  obtain ⟨found, old, hfound, hold, present⟩ := hhas
  cases rewrites.found.symm.trans hfound
  cases hbefore.symm.trans hold
  obtain ⟨offset, part⟩ := PatchStrategy.part_of_apply keeps unique happly
  exact ⟨_, out, hlocate, rfl, ((present.of_le hle).within part).sameCode same⟩

/-- A guard that is there stays there when another is put in, or is not. -/
theorem Has.left (h : file.Has target further) (keeps : strategy.keepsCode = true)
    (stored : (file.left target strategy limit).Fits)
    (fits : ∀ located body code pool, file.Rewrites target strategy limit located body code pool →
      WritesFit file.version strategy located.body body code pool) :
    (file.left target strategy limit).Has target further := by
  obtain ⟨position, envelope, happlied⟩ | ⟨-, hsame⟩ := left_cases file target strategy limit
  · exact (has_of_applied happlied keeps stored fits).2 further h
  · obtain ⟨located, body, hlocate, hbody, present⟩ := h
    have hle := file.le_left target strategy limit
    rw [hsame]
    exact ⟨located, body, (SameMethods.of_le hle).locate_at hlocate hbody rfl, hbody, present.of_le hle⟩

/-- A guard that is there is not applied. -/
theorem Has.isApplied_eq_false (h : file.Has target strategy) :
    isApplied (ClassFile.patch target strategy limit file) = false := by
  by_contra happlied
  rw [Bool.not_eq_false, isApplied_eq_true] at happlied
  obtain ⟨position, envelope, file', hpatch⟩ := happlied
  obtain ⟨located, patched, code, pool, rewrites, -⟩ := patch_eq_applied hpatch
  obtain ⟨found, body, hfound, hbody, present⟩ := h
  cases rewrites.found.symm.trans hfound
  obtain ⟨middle, happly, -⟩ := rewrites.patched
  obtain ⟨_, code, -, -, hdecode⟩ := locate_eq_some hfound hbody
  rw [hbody] at happly
  exact present.ne_patched (MethodBody.nodup_of_decode hdecode) (MethodBody.apart_of_decode hdecode) happly

variable {strategies : List PatchStrategy}

/-- Each of the patches takes place. -/
theorem length_patchAll (parsed : ClassFile.parse image = .ok file) (fits : AllFit target limit strategies file) :
    (patchAll target limit strategies file).length = strategies.length := by
  induction strategies generalizing file image with
  | nil => rfl
  | cons strategy rest ih =>
    obtain ⟨first, constants, others⟩ := fits
    obtain ⟨-, hparse⟩ := parse_left parsed first constants
    rw [patchAll_cons hparse]
    exact congrArg Nat.succ (ih hparse (others _ hparse))

/-- A guard that is there is not applied, whatever guards are put in before. -/
theorem Has.patchAll (h : file.Has target further) (parsed : ClassFile.parse image = .ok file)
    (guards : ∀ strategy ∈ strategies, strategy.keepsCode = true) (fits : AllFit target limit strategies file)
    {i : Nat} (hi : strategies[i]? = some further) :
    ∀ result ∈ (patchAll target limit strategies file)[i]?, isApplied result = false := by
  induction strategies generalizing file image i with
  | nil => cases hi
  | cons strategy rest ih =>
    obtain ⟨first, constants, others⟩ := fits
    obtain ⟨keeps, guards⟩ := List.forall_mem_cons.1 guards
    obtain ⟨stored, hparse⟩ := parse_left parsed first constants
    rw [patchAll_cons hparse]
    intro result hresult
    cases i with
    | zero =>
      cases hi
      cases hresult
      exact h.isApplied_eq_false
    | succ i => exact ih (h.left keeps stored first) hparse guards (others _ hparse) hi result hresult

/-- Each of the patches takes place, and once a guard is applied, it is never applied again. -/
theorem applied_once (parsed : ClassFile.parse image = .ok file)
    (guards : ∀ strategy ∈ strategies, strategy.keepsCode = true) (fits : AllFit target limit strategies file) :
    (patchAll target limit strategies file).length = strategies.length ∧
      ∀ i j : Nat, i < j → strategies[j]? = strategies[i]? →
        (∃ result ∈ (patchAll target limit strategies file)[i]?, isApplied result = true) →
        ∀ result ∈ (patchAll target limit strategies file)[j]?, isApplied result = false := by
  refine ⟨length_patchAll parsed fits, ?_⟩
  induction strategies generalizing file image with
  | nil =>
    rintro i j - - ⟨result, hresult, -⟩
    cases hresult
  | cons strategy rest ih =>
    obtain ⟨first, constants, others⟩ := fits
    obtain ⟨keeps, guards⟩ := List.forall_mem_cons.1 guards
    obtain ⟨stored, hparse⟩ := parse_left parsed first constants
    rw [patchAll_cons hparse]
    rintro i j hlt hsame ⟨result, hresult, happlied⟩
    obtain ⟨j, rfl⟩ := Nat.exists_eq_add_one_of_ne_zero (Nat.ne_zero_of_lt hlt)
    cases i with
    | zero =>
      cases hresult
      obtain ⟨position, envelope, file', hpatch⟩ := isApplied_eq_true.1 happlied
      have hleft : file.left target strategy limit = file' := stateAfter_of_ok hpatch
      have has : (file.left target strategy limit).Has target strategy :=
        (has_of_applied (hleft ▸ hpatch) keeps stored first).1
      exact has.patchAll hparse guards (others _ hparse) hsame
    | succ i =>
      have hbefore : i < j := Nat.lt_of_succ_lt_succ hlt
      exact ih hparse guards (others _ hparse) i j hbefore hsame ⟨result, hresult, happlied⟩

/-- Whether what the patches write and leave fits, found by patching. -/
def fitsAll (target : MethodSignature) (limit : Nat) : List PatchStrategy → ClassFile → Bool
  | [], _ => true
  | strategy :: rest, file =>
    file.checksFit target strategy limit &&
      (file.left target strategy limit).pool.constants.all (fun constant => decide constant.Fits) &&
      (ClassFile.parse (file.left target strategy limit).bytes).toOption.all fun reread =>
        fitsAll target limit rest reread

theorem allFit_of_fitsAll (h : fitsAll target limit strategies file = true) :
    AllFit target limit strategies file := by
  induction strategies generalizing file with
  | nil => trivial
  | cons strategy rest ih =>
    unfold fitsAll at h
    rw [Bool.and_eq_true, Bool.and_eq_true] at h
    obtain ⟨⟨first, constants⟩, others⟩ := h
    refine ⟨fun _ _ _ _ => writesFit_of_checksFit first, fun constant hm => ?_, fun reread hreread => ?_⟩
    · exact of_decide_eq_true (List.all_eq_true.1 constants constant hm)
    · exact ih ((Option.all_eq_true _ _).1 others reread (toOption_eq_some.2 hreread))

/-- A handler around the code and guards in front of it, each of them twice. -/
def repeated : List PatchStrategy :=
  [.suppressing, .zeroCheck, .suppressing, .zeroCheck]

theorem applied_once_brief : ∃ file, ClassFile.parse brief.bytes = .ok file ∧
    (∀ strategy ∈ repeated, strategy.keepsCode = true) ∧ AllFit singleTarget 65535 repeated file ∧
    (patchAll singleTarget 65535 repeated file).map isApplied = [true, true, false, false] ∧
    (patchAll singleTarget 65535 repeated file).length = repeated.length ∧
      ∀ i j : Nat, i < j → repeated[j]? = repeated[i]? →
        (∃ result ∈ (patchAll singleTarget 65535 repeated file)[i]?, isApplied result = true) →
        ∀ result ∈ (patchAll singleTarget 65535 repeated file)[j]?, isApplied result = false := by
  have computed : ((ClassFile.parse brief.bytes).toOption.any fun file =>
      fitsAll singleTarget 65535 repeated file &&
        (patchAll singleTarget 65535 repeated file).map isApplied == [true, true, false, false]) = true := by
    decide +kernel
  obtain ⟨file, hparse, h⟩ := (Option.any_eq_true _ _).1 computed
  rw [toOption_eq_some] at hparse
  rw [Bool.and_eq_true, beq_iff_eq] at h
  obtain ⟨hfits, happlied⟩ := h
  have guards : ∀ strategy ∈ repeated, strategy.keepsCode = true := by
    simp [repeated, PatchStrategy.suppressing, PatchStrategy.zeroCheck, PatchStrategy.keepsCode]
  exact ⟨file, hparse, guards, allFit_of_fitsAll hfits, happlied,
    applied_once hparse guards (allFit_of_fitsAll hfits)⟩

end ClassFile

end ClassWeave
