import ClassWeave.Proofs.Descriptor.Rendering
import ClassWeave.Proofs.Patch.Enveloping
import ClassWeave.Proofs.Patch.Loading
import ClassWeave.Proofs.Script.Leaving

/-!
A patch touches only its target. However it ends, the old constants stay where they are; nothing else of
the class changes but, if the patch is applied, the first code attribute of the first method that the
signature names.
-/

namespace ClassWeave

section Strategies

variable {holds : ConstantPool → Prop} {α : Type}

theorem Compiling.leaves_build {step : Compiling α} (h : Leaves (Compiler.Pooled holds) step)
    (labels : LabelSupply) (shape : MethodShape) (entry : EditFrame) :
    Leaves holds (step.build labels shape entry) := by
  intro pool hpool
  have hend : Compiler.Pooled holds (stateAfter step (.start (.start pool labels shape entry) 0)) := h _ hpool
  unfold Compiler.Pooled stateAfter Compiling.build at *
  cases hstep : step (.start (.start pool labels shape entry) 0) <;> simpa only [hstep] using hend

/-- What a rehearsal interns is gone behind it. -/
theorem Patching.leaves_rehearse (step : Patching α) : Leaves holds step.rehearse := by
  intro pool hpool
  unfold stateAfter Patching.rehearse
  cases step pool <;> exact hpool

variable (interns : KeptByInterning holds)

include interns

theorem Fallback.leaves_push (fallback : Fallback) (returnType : Option FieldType) :
    Leaves (Builder.Pooled holds) (fallback.push returnType) := by
  have composes := Builder.composes_leaves interns
  unfold push
  split
  · exact .pure _
  · exact composes.zero _
  · exact composes.constInt _
  · exact composes.constInt _
  · exact composes.constLong _
  · exact composes.constString _

theorem LogCall.leaves_push (log : LogCall) : Leaves (Compiler.Pooled holds) log.push := by
  have invoked : Leaves (Compiler.Pooled holds)
      (Builder.invoke .static log.owner log.name log.descriptor : Compiling Unit) :=
    Compiler.leaves_lift ((Builder.composes_leaves interns).invoke _ _ _ _)
  unfold push
  split
  · exact .refuse
  · exact .bind (Compiler.leaves_lift Builder.leaves_pop) fun _ => invoked
  · exact invoked
  · exact .refuse

namespace WrapGuard

theorem leaves_tail (guard : WrapGuard) (labels : LabelSupply) (shape : MethodShape) :
    Leaves holds (guard.tail labels shape) := by
  have handled : Leaves (Compiler.Pooled holds) guard.handler := by
    have composes := Compiler.composes_leaves interns
    refine composes.labelled fun label =>
      .bind (Compiler.leaves_lift (Builder.leaves_placeWith label _)) fun _ => ?_
    have filled (fallback : Option FieldType) : Leaves (Compiler.Pooled holds)
        (liftM (guard.fallback.push fallback) : Compiling Unit) :=
      Compiler.leaves_lift (guard.fallback.leaves_push interns _)
    have left : Leaves (Compiler.Pooled holds) (do
        guard.fallback.push (← Compiler.shape).returnType
        Builder.leave
        return label : Compiling Label) :=
      .bind composes.shape fun _ => .bind (filled _) fun _ =>
        .bind (Compiler.leaves_lift Builder.leaves_leave) fun _ => .pure _
    dsimp only
    split
    · exact .bind (Compiler.leaves_lift Builder.leaves_pop) fun _ => left
    · exact .bind (LogCall.leaves_push interns _) fun _ => left
  exact .bind (Compiling.leaves_build handled _ _ _) fun _ => .pure _

theorem leaves_apply (guard : WrapGuard) (old : Option MethodBody) : Leaves holds (guard.apply old) := by
  cases old with
  | none => exact .pure _
  | some old =>
    refine .ite .refuse (.ite .refuse ?_)
    dsimp only
    split
    · exact .bind (Patching.leaves_rehearse _) fun _ => .ite (.pure _) <|
        .bind (guard.leaves_tail interns _ _) fun _ => .pure _
    · exact .refuse

end WrapGuard

namespace PrologueGuard

theorem leaves_chain (entry : EditFrame) (resume : Label) :
    ∀ guards : List Guard, Leaves (Compiler.Pooled holds) (chain entry resume guards)
  | [] => .pure _
  | [guard] => by
    have composes := Compiler.composes_leaves interns
    exact .bind (composes.cond false resume guard.condition) fun _ =>
      .bind (composes.block guard.tail) fun _ => composes.gotoIfReachable resume
  | guard :: second :: rest => by
    have composes := Compiler.composes_leaves interns
    exact composes.labelled fun next => .bind (composes.cond false next guard.condition) fun _ =>
      .bind (composes.block guard.tail) fun _ => .bind (composes.gotoIfReachable resume) fun _ =>
      .bind (composes.isJumpedTo next) fun _ => .ite (.bind (composes.lift (Builder.leaves_placeWith next entry))
        fun _ => leaves_chain entry resume (second :: rest)) (.pure _)

theorem leaves_code (guard : PrologueGuard) (old : MethodBody) : Leaves holds (guard.code old) :=
  .bind (Compiling.leaves_build ((Compiler.composes_leaves interns).labelled fun resume =>
    .bind (leaves_chain interns _ resume guard.guards) fun _ =>
      Compiler.leaves_lift (Builder.leaves_placeWith resume _)) _ _ _) fun _ => .pure _

theorem leaves_apply (guard : PrologueGuard) (old : Option MethodBody) : Leaves holds (guard.apply old) := by
  cases old with
  | none => exact .pure _
  | some old =>
    refine .ite .refuse ?_
    exact .ite (.pure _) <| .bind (Patching.leaves_rehearse _) fun _ => .ite (.pure _) <|
      .bind (guard.leaves_code interns old) fun _ => .pure _

end PrologueGuard

theorem Replacement.leaves_apply (replacement : Replacement) (old : Option MethodBody) :
    Leaves holds (replacement.apply old) := by
  cases old with
  | none => exact .throw _
  | some old =>
    have block := (Compiler.composes_leaves interns).block replacement.body
    unfold apply
    dsimp only
    split
    · exact .refuse
    · refine .ite .refuse <| .ite .refuse <| .bind (Compiling.leaves_build block _ _ _) fun built =>
        .ite .refuse <| .get fun pool _ => ?_
      split
      · exact .throw _
      · exact .pure _

/-- A strategy reaches the pool only by interning, however it ends. -/
theorem PatchStrategy.leaves_apply (strategy : PatchStrategy) (old : Option MethodBody) :
    Leaves holds (strategy.apply old) := by
  cases strategy with
  | wrap guard => exact guard.leaves_apply interns old
  | prologue guard => exact guard.leaves_apply interns old
  | replace replacement => exact replacement.leaves_apply interns old

/-- So does all that is done for a method, up to its new code. -/
theorem ClassFile.leaves_patchedCode (version : Version) (strategy : PatchStrategy) (limit : Nat)
    (located : LocatedMethod) : Leaves holds (patchedCode version strategy limit located) := by
  refine .bind (strategy.leaves_apply interns located.body) fun outcome => ?_
  cases outcome with
  | unchanged => exact .pure _
  | patched body =>
    refine .get fun pool _ => ?_
    split
    · exact .throw _
    · exact .bind (.adaptExcept _ (body.leaves_encodeWithLimit interns _ _)) fun _ => .pure _

end Strategies

theorem ConstantPool.prefix_of_le {p q : ConstantPool} (h : p ≤ q) :
    p.slots.toList <+: q.slots.toList ∧ p.constants <+: q.constants := by
  obtain ⟨more, hslots, -⟩ := le_def.1 h
  have hconstants : q.constants = p.constants ++ more.filterMap id := by
    unfold constants
    rw [hslots, List.filterMap_append]
  exact ⟨⟨more, hslots.symm⟩, ⟨_, hconstants.symm⟩⟩

namespace ClassFile

variable {file file' : ClassFile} {version : Version} {target : MethodSignature} {strategy : PatchStrategy}
  {limit : Nat}

/-- The same class, maybe with more constants behind the old ones. -/
structure Repooled (file file' : ClassFile) : Prop where
  slots : file.pool.slots.toList <+: file'.pool.slots.toList
  constants : file.pool.constants <+: file'.pool.constants
  same : file' = { file with pool := file'.pool }

theorem Repooled.of_le {pool : ConstantPool} (h : file.pool ≤ pool) : file.Repooled { file with pool } :=
  ⟨(ConstantPool.prefix_of_le h).1, (ConstantPool.prefix_of_le h).2, rfl⟩

theorem Repooled.refl (file : ClassFile) : file.Repooled file := .of_le (ConstantPool.le_refl _)

theorem Repooled.trans {file'' : ClassFile} (h : file.Repooled file') (h' : file'.Repooled file'') :
    file.Repooled file'' :=
  ⟨h.slots.trans h'.slots, h.constants.trans h'.constants, by rw [h'.same, h.same]⟩

/-- Has the declaration the name of the target, and its descriptor? -/
structure Names (file : ClassFile) (target : MethodSignature) (method : Method) : Prop where
  name : file.pool.utf8 method.name = .ok target.name.text
  descriptor : file.pool.utf8 method.descriptor = .ok target.descriptor.render

/-- The class with other code at the first method that the target names. The new code is in the place of
the first code attribute, and has the given envelope. -/
structure Recoded (file : ClassFile) (target : MethodSignature) (position : Nat) (envelope : Envelope)
    (file' : ClassFile) : Prop where
  slots : file.pool.slots.toList <+: file'.pool.slots.toList
  constants : file.pool.constants <+: file'.pool.constants
  owner : file.name = .ok target.owner.text
  least : ∀ before < position, ∀ method, file.methods[before]? = some method → ¬file.Names target method
  replaced : ∃ method i old item code, file.methods[position]? = some method ∧ file.Names target method ∧
    file.pool.findAttribute Code.format.name method.attributes = some (i, old) ∧
    file' = { file with
      pool := file'.pool
      methods := file.methods.set position { method with attributes := method.attributes.set i item } } ∧
    file'.pool.utf8 item.name = .ok Code.format.name ∧ item.content = code.bytes ∧
    code.envelope = envelope ∧
    (code.exceptions.length < 65536 → (∀ inner ∈ code.attributes, inner.Fits) →
      item.parse Code.format = .ok code)

/-- What the result of a patch says of the class it leaves. -/
def Frames (file : ClassFile) (applied : Nat → Envelope → ClassFile → Prop) :
    EStateM.Result PatchError ClassFile MethodPatch → Prop
  | .error _ file' => file.Repooled file'
  | .ok .unchanged file' => file.Repooled file'
  | .ok .notFound file' => file' = file
  | .ok (.applied position envelope) file' => applied position envelope file'

theorem matchMethod?_eq_none {thisClass : String} {method : Method}
    (h : file.matchMethod? thisClass target method = .ok none) : ¬file.Names target method := by
  intro ⟨hname, hdescriptor⟩
  obtain ⟨name, hread, h⟩ := except_bind_eq_ok.1 h
  cases hname.symm.trans (mapError_eq_ok.1 hread)
  rw [if_neg (by simp)] at h
  obtain ⟨descriptor, hread, h⟩ := except_bind_eq_ok.1 h
  cases hdescriptor.symm.trans (mapError_eq_ok.1 hread)
  rw [MethodDescriptor.parse_eq_ok.2 rfl] at h
  dsimp only at h
  rw [if_neg (by simp)] at h
  cases hshape : MethodShape.parse thisClass target.name.text method.flags target.descriptor.render with
  | error problem =>
    rw [hshape] at h
    cases h
  | ok shape =>
    rw [hshape] at h
    cases h

theorem names_of_matchMethod? {thisClass : String} {method : Method} {shape : MethodShape}
    (h : file.matchMethod? thisClass target method = .ok (some shape)) : file.Names target method := by
  obtain ⟨name, hname, h⟩ := except_bind_eq_ok.1 h
  split at h
  · cases h
  next hsame =>
  obtain ⟨text, htext, h⟩ := except_bind_eq_ok.1 h
  rw [Classical.not_not.1 hsame] at hname
  split at h
  · cases h
  next descriptor hparse =>
  split at h
  · cases h
  next hequal =>
  rw [Classical.not_not.1 hequal] at hparse
  exact ⟨mapError_eq_ok.1 hname, MethodDescriptor.parse_eq_ok.1 hparse ▸ mapError_eq_ok.1 htext⟩

/-- No method in front of the one that is found has the name and descriptor. -/
theorem least_of_findMethod? {thisClass : String} {methods : List Method} {start position : Nat}
    {method : Method} {shape : MethodShape}
    (h : file.findMethod? thisClass target methods start = .ok (some (position, method, shape))) :
    ∀ i, start + i < position → ∀ other, methods[i]? = some other → ¬file.Names target other := by
  induction methods generalizing start with
  | nil => cases h
  | cons first rest ih =>
    unfold findMethod? at h
    intro i hi other ho
    split at h
    · cases h
    · cases h
      omega
    · next hfirst =>
      cases i with
      | zero =>
        cases ho
        exact matchMethod?_eq_none hfirst
      | succ i => exact ih h i (by omega) other ho

theorem names_of_locate {located : LocatedMethod} (h : file.locate target = .ok (some located)) :
    file.name = .ok target.owner.text ∧
      (∃ method, file.methods[located.position]? = some method ∧ file.Names target method) ∧
      ∀ before < located.position, ∀ method, file.methods[before]? = some method →
        ¬file.Names target method := by
  obtain ⟨thisClass, hclass, h⟩ := except_bind_eq_ok.1 h
  split at h
  · cases h
  next howner =>
  rw [Classical.not_not.1 howner] at hclass
  obtain ⟨found, hfound, h⟩ := except_bind_eq_ok.1 h
  cases found with
  | none => cases h
  | some found =>
    obtain ⟨position, method, shape⟩ := found
    have hposition : located.position = position := by
      obtain ⟨code?, -, h⟩ := except_bind_eq_ok.1 h
      cases code? with
      | none =>
        cases h
        rfl
      | some code =>
        obtain ⟨body, -, h⟩ := except_bind_eq_ok.1 h
        cases h
        rfl
    obtain ⟨i, hi, hm, hmatch⟩ := findMethod?_eq_some hfound
    rw [Nat.zero_add] at hi
    subst hi
    rw [hposition]
    exact ⟨mapError_eq_ok.1 hclass, ⟨method, hm, names_of_matchMethod? hmatch⟩, fun before hlt =>
      least_of_findMethod? hfound before (by omega)⟩

/-- A step on the pool leaves the rest of the class as it was, however it ends. -/
theorem repooled_withPool {α ε : Type} {step : EStateM ε ConstantPool α}
    (leaves : ∀ start, Leaves (start ≤ ·) step) (file : ClassFile) :
    (∀ value file', file.withPool step = .ok value file' → file.Repooled file') ∧
      ∀ problem file', file.withPool step = .error problem file' → file.Repooled file' := by
  have hle : file.pool ≤ stateAfter step file.pool := leaves file.pool file.pool (ConstantPool.le_refl _)
  unfold stateAfter at hle
  unfold withPool
  cases hstep : step file.pool with
  | ok value pool =>
    rw [hstep] at hle
    exact ⟨fun _ _ h => by cases h; exact .of_le hle, nofun⟩
  | error problem pool =>
    rw [hstep] at hle
    exact ⟨nofun, fun _ _ h => by cases h; exact .of_le hle⟩

/-- Code that cannot be put in leaves the old code. -/
theorem repooled_of_setMethodCode {position : Nat} {code : Code} {problem : ClassError}
    (h : setMethodCode position code file = .error problem file') : file.Repooled file' := by
  have stored := repooled_withPool (fun start =>
    Code.format.leaves_store (ConstantPool.kept_le start) code) file
  rcases bind_eq_error.1 h with h | ⟨item, between, hitem, h⟩
  · exact stored.2 _ _ h
  · have hbetween : file.Repooled between := stored.1 _ _ hitem
    rw [get_bind_eq_error] at h
    cases hmethod : between.method position with
    | error missing =>
      rw [hmethod] at h
      cases h
      exact hbetween
    | ok method =>
      rw [hmethod] at h
      cases h

/-- Unless it puts in new code, a patch changes nothing but the pool. -/
theorem repooled_of_patch (file : ClassFile) (target : MethodSignature) (strategy : PatchStrategy)
    (limit : Nat) : file.Frames (fun _ _ _ => True) (ClassFile.patch target strategy limit file) := by
  refine result_bind (fun _ _ h => by cases h) fun _ _ hget => ?_
  cases hget
  cases file.locate target with
  | error problem => exact .refl file
  | ok found =>
    cases found with
    | none => exact rfl
    | some located =>
      have coded := repooled_withPool (fun start =>
        leaves_patchedCode (ConstantPool.kept_le start) file.version strategy limit located) file
      refine result_bind (fun problem file' h => coded.2 problem file' h) fun result between hresult => ?_
      have hbetween : file.Repooled between := coded.1 _ _ hresult
      cases result with
      | none => exact hbetween
      | some written =>
        obtain ⟨code, envelope⟩ := written
        refine result_bind (fun _ _ h => by cases h) fun _ _ hget => ?_
        cases hget
        cases between.methodCode located.position with
        | error problem => exact hbetween
        | ok existing =>
          dsimp only
          split
          · exact hbetween
          · refine result_bind (fun problem file' h => ?_) fun _ _ _ => trivial
            obtain ⟨cause, hset, -⟩ := adaptExcept_eq_error.1 h
            exact hbetween.trans (repooled_of_setMethodCode hset)

theorem recoded_of_patch {position : Nat} {envelope : Envelope}
    (h : ClassFile.patch target strategy limit file = .ok (.applied position envelope) file') :
    file.Recoded target position envelope file' := by
  obtain ⟨located, body, code, pool, rewrites, rfl, rfl, method, i, old, item, hm, hfound, hname, hcontent,
    rfl⟩ := patch_eq_applied h
  obtain ⟨middle, happly, -, hencode⟩ := rewrites.patched
  obtain ⟨before, hbefore, -⟩ := PatchStrategy.follows_of_apply happly
  obtain ⟨hslots, hconstants⟩ := ConstantPool.prefix_of_le rewrites.le
  obtain ⟨howner, ⟨found, hf, hnames⟩, hleast⟩ := names_of_locate rewrites.found
  obtain ⟨_, _, -, hcode, -⟩ := locate_eq_some rewrites.found hbefore
  obtain ⟨_, i', old', hm', hfound', -⟩ := methodCode_eq_some.1 hcode
  cases hm.symm.trans hf
  cases hm.symm.trans hm'
  have hsame : file.pool.findAttribute Code.format.name method.attributes = some (i, old) := by
    rw [hfound', ← ConstantPool.findAttribute_of_le rewrites.le hfound', hfound]
  refine ⟨hslots, hconstants, howner, hleast, method, i, old, item, code, hm, hnames, hsame, rfl, hname,
    hcontent, MethodBody.envelope_of_encode hencode, fun hexceptions hcontents => ?_⟩
  obtain ⟨layout, tables, written⟩ := MethodBody.writtenAs_of_encode hencode
  exact parse_of_content hcontent (written.fits_of_contents hexceptions hcontents)

/-- However a patch ends, it touches only its target. -/
theorem frames_patch (file : ClassFile) (target : MethodSignature) (strategy : PatchStrategy) (limit : Nat) :
    file.Frames (file.Recoded target) (ClassFile.patch target strategy limit file) := by
  have untouched := repooled_of_patch file target strategy limit
  cases hpatch : ClassFile.patch target strategy limit file with
  | error problem file' =>
    rw [hpatch] at untouched
    exact untouched
  | ok outcome file' =>
    rw [hpatch] at untouched
    cases outcome with
    | notFound => exact untouched
    | unchanged => exact untouched
    | applied position envelope => exact recoded_of_patch hpatch

end ClassFile

end ClassWeave
