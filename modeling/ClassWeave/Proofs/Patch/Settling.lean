import ClassWeave.Proofs.Class.Reachable
import ClassWeave.Proofs.Frame.Compressing
import ClassWeave.Proofs.Patch.Refinding
import ClassWeave.Proofs.Patch.Replaying
import ClassWeave.Proofs.Script.Bounding
import ClassWeave.Proofs.Script.Settling

/-!
Replacing the code of a method settles. What a replacement writes depends on nothing but the declaration of
the method and on the constants that it adds itself, so the second time it finds its own code.
-/

namespace ClassWeave

open ConstantPool

variable {p q : ConstantPool}

theorem refines_lift {α : Type} {x y : Except ClassError α} (h : Refines x y) :
    Refines (liftM x : Except PatchError α) (liftM y : Except PatchError α) := fun a ha =>
  Replay.lift_eq_ok.2 (h a (Replay.lift_eq_ok.1 ha))

namespace Replay

theorem refines_visit (h : p ≤ q) (positions : NatMap Nat) (walk : Walk) (node : Node) (position height : Nat) :
    Refines (visit p positions walk node position height) (visit q positions walk node position height) := by
  cases node with
  | insn i => exact .bind (refines_lift (i.refines_stackEffect h)) fun _ => .refl _
  | label | branch => exact .refl _

theorem refines_run (h : p ≤ q) (positions : NatMap Nat) (nodes : Array Node) (fuel : Nat) (replay : Replay) :
    Refines (run p positions nodes fuel replay) (run q positions nodes fuel replay) := by
  induction fuel generalizing replay with
  | zero => exact .refl _
  | succ fuel ih =>
    obtain ⟨⟨heights, waiting⟩, maxStack, peakAt, maxLocals⟩ := replay
    cases waiting with
    | nil => exact .refl _
    | cons position waiting =>
      unfold run
      dsimp only
      cases nodes[position]? with
      | none => exact ih _
      | some node =>
        dsimp only
        have hvisit := refines_visit h positions ⟨heights, waiting⟩ node position ((heights[position]?.join).getD 0)
        cases hp : visit p positions ⟨heights, waiting⟩ node position ((heights[position]?.join).getD 0) with
        | error problem =>
          intro out hrun
          cases hrun
        | ok visited =>
          rw [hvisit _ hp]
          dsimp only
          split
          · exact ih _
          · exact ih _

end Replay

namespace MethodBody

theorem refines_observe (h : p ≤ q) (body : MethodBody) : Refines (body.observe p) (body.observe q) :=
  .bind (.refl _) fun _ => .bind (.refl _) fun _ => .bind (Replay.refines_run h _ _ _ _) fun _ => .refl _

theorem refines_checkEnvelope (h : p ≤ q) (body : MethodBody) :
    Refines (body.checkEnvelope p) (body.checkEnvelope q) := by
  unfold checkEnvelope
  dsimp only
  split
  · exact .refl _
  · exact .bind (refines_observe h body) fun _ => .refl _

end MethodBody

variable {α β : Type}

theorem settled_build {labels : LabelSupply} {shape : MethodShape} {entry : EditFrame} {step : Compiling α}
    (h : Compiler.pooled.Settles step) {next : α × Compiler → Patching β} (hn : ∀ built, Settled (next built))
    (hsame : ∀ a c r, next (a, Compiler.pooled.on c r) = next (a, c)) :
    Settled (step.build labels shape entry >>= next) := by
  intro p b q hrun
  obtain ⟨⟨a, c⟩, t, hbuild, hnext⟩ := bind_eq_ok.1 hrun
  obtain ⟨hstep, rfl⟩ := Replacement.build_eq_ok hbuild
  obtain ⟨hle, again⟩ := h _ _ _ hstep
  obtain ⟨hle', again'⟩ := hn (a, c) _ _ _ hnext
  refine ⟨ConstantPool.le_trans hle hle', fun r hr => bind_eq_ok.2 ⟨(a, Compiler.pooled.on c r), r, ?_, ?_⟩⟩
  · have hagain := again r (ConstantPool.le_trans hle' hr)
    change step (.start (.start r labels shape entry) 0) = _ at hagain
    unfold Compiling.build
    rw [hagain]
    rfl
  · rw [hsame]
    exact again' r hr

/-- A check that succeeds on a pool succeeds on every larger one, with the same result. -/
theorem settled_checked {check : ConstantPool → Except PatchError α}
    (h : ∀ p q, p ≤ q → Refines (check p) (check q)) {next : ConstantPool → Patching β} {use : α → Patching β}
    (hn : ∀ a, Settled (use a)) (hthrow : ∀ p problem, check p = .error problem → next p = throw problem)
    (huse : ∀ p a, check p = .ok a → next p = use a) : Settled (get >>= next) := by
  intro p b q hrun
  rw [get_bind_eq_ok] at hrun
  cases hp : check p with
  | error problem =>
    rw [hthrow p problem hp] at hrun
    exact (throw_ne_ok.1 hrun).elim
  | ok found =>
    rw [huse p found hp] at hrun
    obtain ⟨hle, again⟩ := hn found p b q hrun
    refine ⟨hle, fun r hr => ?_⟩
    rw [get_bind_eq_ok, huse r found (h p r (ConstantPool.le_trans hle hr) found hp)]
    exact again r hr

theorem Replacement.settled_apply (replacement : Replacement) (old : Option MethodBody) :
    Settled (replacement.apply old) := by
  cases old with
  | none => exact .throw _
  | some old =>
    have compiled := Compiler.composes_settles.block replacement.body
    unfold apply
    dsimp only
    split
    · exact fun _ _ _ h => (throw_bind_ne_ok.1 h).elim
    · exact .check <| .check <| settled_build compiled (fun built => .check <|
        settled_checked (fun p q h => MethodBody.refines_observe h _) (fun _ => .pure _)
          (fun p problem h => by rw [h]) fun p a h => by rw [h]) fun _ _ _ => rfl

/-- Only the declaration of the old body matters. -/
theorem Replacement.apply_congr (replacement : Replacement) {old other : MethodBody} (h : other.shape = old.shape) :
    replacement.apply (some other) = replacement.apply (some old) := by
  unfold apply
  dsimp only
  rw [h]

namespace ClassFile

variable {file file' : ClassFile} {target : MethodSignature} {replacement : Replacement} {limit : Nat}

theorem settled_patchedCode (version : Version) (replacement : Replacement) (limit : Nat)
    (located : LocatedMethod) : Settled (patchedCode version (.replace replacement) limit located) := by
  refine .bind (replacement.settled_apply located.body) fun outcome => ?_
  cases outcome with
  | unchanged => exact .pure _
  | patched body =>
    have written (_ : Envelope) : Settled (do
        return some (← body.encodeWithLimit version limit, body.envelope) : Patching (Option (Code × Envelope))) :=
      .bind (.adaptExcept _ (body.settled_encodeWithLimit version limit)) fun _ => .pure _
    exact settled_checked (fun p q h => body.refines_checkEnvelope h) written
      (fun p problem h => by rw [h]) fun p a h => by rw [h]

/-- The code that a strategy writes is what the patch goes on with. -/
theorem Rewrites.patchedCode_eq {strategy : PatchStrategy} {located : LocatedMethod} {body : MethodBody}
    {code : Code} {pool : ConstantPool} (h : file.Rewrites target strategy limit located body code pool) :
    patchedCode file.version strategy limit located file.pool = .ok (some (code, body.envelope)) pool := by
  obtain ⟨middle, happly, ⟨observed, hcheck⟩, hencode⟩ := h.patched
  refine bind_eq_ok.2 ⟨_, middle, happly, ?_⟩
  dsimp only
  rw [get_bind_eq_ok, hcheck]
  exact bind_eq_ok.2 ⟨code, pool, adaptExcept_eq_ok.2 hencode, rfl⟩

/-- Of the method, only its declaration matters. -/
theorem patchedCode_congr {version : Version} {located other : LocatedMethod} {before after : MethodBody}
    (hbefore : located.body = some before) (hafter : other.body = some after)
    (hshape : after.shape = before.shape) :
    patchedCode version (.replace replacement) limit other =
      patchedCode version (.replace replacement) limit located := by
  have happly : replacement.apply other.body = replacement.apply located.body := by
    rw [hbefore, hafter]
    exact replacement.apply_congr hshape
  unfold patchedCode PatchStrategy.apply
  dsimp only
  rw [happly]

/-- The method that is located has the descriptor of the target. -/
theorem descriptor_of_locate {located : LocatedMethod} {body : MethodBody}
    (h : file.locate target = .ok (some located)) (hbody : located.body = some body) :
    located.shape.descriptor = target.descriptor := by
  obtain ⟨method, code, ⟨hm, name, text, thisClass, -, htext, -, hshape⟩, -⟩ := locate_eq_some h hbody
  obtain ⟨-, ⟨_, hm', names⟩, -⟩ := names_of_locate h
  cases hm.symm.trans hm'
  cases htext.symm.trans names.descriptor
  unfold MethodShape.parse at hshape
  rw [MethodDescriptor.parse_eq_ok.2 rfl] at hshape
  rw [← Except.ok.inj hshape]

/-- The tables of a replaced body fit their fields, since its instructions fit the code. -/
theorem Rewrites.fits_replace {located : LocatedMethod} {body : MethodBody} {code : Code} {pool : ConstantPool}
    (h : file.Rewrites target (.replace replacement) limit located body code pool)
    (few : target.descriptor.parameterSlots false ≤ 255) : body.Fits := by
  obtain ⟨middle, happly, ⟨observed, hcheck⟩, hencode⟩ := h.patched
  have covered := MethodBody.coveredBy_of_checkEnvelope (MethodBody.nodup_of_encode hencode) hcheck
  obtain ⟨layout, tables, written⟩ := MethodBody.writtenAs_of_encode hencode
  have hcount : body.instructionCount ≤ 65535 := by
    obtain ⟨⟨flagged, hnodes, rfl⟩, -⟩ := Layout.isOf_of_compute written.placed
    have hshort : Layout.reach 0 flagged ≤ 65535 := written.short
    have hreach := Layout.countP_le_reach 0 flagged
    rw [MethodBody.instructionCount, ← hnodes]
    omega
  have accesses : ∀ insn, .insn insn ∈ body.nodes → insn.slots ≤ 65535 := fun insn hm => by
    cases haccess : insn.localAccess? with
    | none => exact Insn.slots_of_none haccess ▸ Nat.zero_le _
    | some access =>
      have hslot := covered.locals insn access.1 access.2 hm haccess
      have hmax := body.envelope.maxLocals.toNat_lt
      rw [Insn.slots_of_access haccess]
      omega
  have few' : ∀ before, located.body = some before →
      before.shape.descriptor.parameterSlots (!before.shape.isStatic) ≤ 65535 := fun before hbefore => by
    obtain ⟨_, _, -, -, hdecode⟩ := locate_eq_some h.found hbefore
    rw [(MethodBody.keeps_of_decode hdecode).1, descriptor_of_locate h.found hbefore]
    unfold MethodDescriptor.parameterSlots at few ⊢
    have hthis := Bool.toNat_le (!located.shape.isStatic)
    omega
  obtain ⟨hhandlers, hframes⟩ := Replacement.bounded_of_apply happly few' accesses
  obtain ⟨before, builder, -, -, compiled⟩ := Replacement.compiled_of_apply happly
  obtain ⟨hlines, hlocals, htypes⟩ := compiled.tables
  refine ⟨by omega, hlines ▸ Nat.zero_lt_succ _, hlocals ▸ Nat.zero_lt_succ _, htypes ▸ Nat.zero_lt_succ _,
    fun entry hm => ?_⟩
  obtain ⟨hstack, hlocals⟩ := hframes entry hm
  have hcompact := Frame.length_compactLocals entry.2
  exact ⟨by omega, by omega⟩

/-- The patched method is located again, with the body that the new code decodes to. -/
theorem rereads_of_patch {strategy : PatchStrategy} {position : Nat} {envelope : Envelope}
    (h : ClassFile.patch target strategy limit file = .ok (.applied position envelope) file')
    (fits : ∀ located body code pool, file.Rewrites target strategy limit located body code pool →
      body.Fits ∧ (file.version.hasStackMaps = false → strategy.isPrologue = true →
        ∀ before, located.body = some before → before.instructionCount ≠ 0)) (stored : file'.Fits) :
    ∃ located body code before out, file.Rewrites target strategy limit located body code file'.pool ∧
      file'.version = file.version ∧ located.body = some before ∧
      MethodBody.decode code file'.pool located.shape = .ok out ∧
      file'.locate target = .ok (some ⟨located.position, located.flags, located.shape, some out⟩) ∧
      file'.methodCode located.position = .ok (some code) := by
  obtain ⟨located, body, code, pool, rewrites, -, -, method, i, old, item, hm, hfound, hname, hcontent, hfile⟩ :=
    patch_eq_applied h
  obtain ⟨tables, behind⟩ := fits located body code pool rewrites
  obtain ⟨middle, happly, -, hencode⟩ := rewrites.patched
  obtain ⟨before, hbefore, -⟩ := PatchStrategy.follows_of_apply happly
  obtain ⟨layout, codeTables, written⟩ := MethodBody.writtenAs_of_encode hencode
  have hpool : file'.pool = pool := by rw [hfile]; rfl
  have hset : file'.methods[located.position]? = some { method with attributes := method.attributes.set i item } := by
    rw [hfile]
    exact List.getElem?_set_self (List.getElem?_eq_some_iff.1 hm).1
  have hitem : item ∈ method.attributes.set i item :=
    List.mem_set (List.getElem?_eq_some_iff.1 (findAttribute_eq_some.1 hfound).1).1 item
  have hlength : code.bytes.length < 4294967296 :=
    hcontent ▸ (stored.methodsFit _ (List.mem_of_getElem? hset)).contents item hitem
  have hcode : file'.methodCode located.position = .ok (some code) :=
    methodCode_eq_some.2 ⟨_, i, item, hset, by rw [hpool]; exact findAttribute_set hfound hname,
      parse_of_content hcontent (written.fits tables.handlers hlength)⟩
  obtain ⟨out, hout⟩ := rewrites.decode_ok tables behind
  rw [← hpool] at hout
  have same : file.SameMethods file' := hfile ▸ .setAttributes rewrites.le hm _
  exact ⟨located, body, code, before, out, hpool.symm ▸ rewrites, by rw [hfile]; rfl, hbefore, hout,
    same.locate rewrites.found hcode hout, hcode⟩

/-- A method whose code is replaced is located again, with the same declaration. -/
theorem located_of_patch {position : Nat} {envelope : Envelope}
    (h : ClassFile.patch target (.replace replacement) limit file = .ok (.applied position envelope) file')
    (few : target.descriptor.parameterSlots false ≤ 255) (stored : file'.Fits) :
    ∃ located body code before after,
      file.Rewrites target (.replace replacement) limit located body code file'.pool ∧
      file'.version = file.version ∧ located.body = some before ∧
      file'.locate target = .ok (some ⟨located.position, located.flags, located.shape, some after⟩) ∧
      file'.methodCode located.position = .ok (some code) ∧ after.shape = before.shape := by
  obtain ⟨located, body, code, before, after, rewrites, hversion, hbefore, hafter, hlocate, hcode⟩ :=
    rereads_of_patch h (fun _ _ _ _ rewrites => ⟨rewrites.fits_replace few, nofun⟩) stored
  obtain ⟨_, _, -, -, hdecode⟩ := locate_eq_some rewrites.found hbefore
  refine ⟨located, body, code, before, after, rewrites, hversion, hbefore, hlocate, hcode, ?_⟩
  rw [(MethodBody.keeps_of_decode hafter).1, (MethodBody.keeps_of_decode hdecode).1]

/-- A replacement that was put in finds its own code there, and leaves the class as it is. -/
theorem patch_again {position : Nat} {envelope : Envelope}
    (h : ClassFile.patch target (.replace replacement) limit file = .ok (.applied position envelope) file')
    (few : target.descriptor.parameterSlots false ≤ 255) (stored : file'.Fits) :
    ClassFile.patch target (.replace replacement) limit file' = .ok .unchanged file' := by
  obtain ⟨located, body, code, before, after, rewrites, hversion, hbefore, hlocate, hcode, hshape⟩ :=
    located_of_patch h few stored
  have hsettled := (settled_patchedCode file.version replacement limit located _ _ _ rewrites.patchedCode_eq).2
    file'.pool (ConstantPool.le_refl _)
  rw [← @patchedCode_congr replacement limit _ located ⟨located.position, located.flags, located.shape, some after⟩
    before after hbefore rfl hshape, ← hversion] at hsettled
  unfold ClassFile.patch
  rw [get_bind_eq_ok, hlocate]
  refine bind_eq_ok.2 ⟨some (code, body.envelope), file', ?_, ?_⟩
  · unfold withPool
    rw [hsettled]
  · dsimp only
    rw [get_bind_eq_ok, hcode]
    dsimp only
    rw [if_pos rfl]
    rfl

/-- The class is written and parsed again and then patched, time after time. What comes of it: the outcome of each
patch, and the class that is left. -/
def rounds (target : MethodSignature) (strategy : PatchStrategy) (limit : Nat) :
    Nat → ClassFile → Option (List MethodPatch × ClassFile)
  | 0, file => some ([], file)
  | count + 1, file =>
    match ClassFile.parse file.bytes with
    | .error _ => none
    | .ok reread =>
      match ClassFile.patch target strategy limit reread with
      | .error _ _ => none
      | .ok outcome file' =>
        (rounds target strategy limit count file').map fun (outcomes, last) => (outcome :: outcomes, last)

theorem rounds_of_fixed {strategy : PatchStrategy} (hparse : ClassFile.parse file.bytes = .ok file)
    (hpatch : ClassFile.patch target strategy limit file = .ok .unchanged file) (count : Nat) :
    rounds target strategy limit count file = some (List.replicate count .unchanged, file) := by
  induction count with
  | zero => rfl
  | succ count ih =>
    unfold rounds
    rw [hparse]
    dsimp only
    rw [hpatch]
    dsimp only
    rw [ih]
    rfl

/-- A replacement that is applied settles: the class can be written and parsed again, and every further time the
same replacement leaves it as it is, constants included, if what was written fits the fields for its lengths. -/
theorem settles_of_patch {position : Nat} {envelope : Envelope} (canonical : file.pool.Canonical)
    (few : target.descriptor.parameterSlots false ≤ 255)
    (h : ClassFile.patch target (.replace replacement) limit file = .ok (.applied position envelope) file')
    (storable : file'.Storable) :
    ClassFile.parse file'.bytes = .ok file' ∧
      ClassFile.patch target (.replace replacement) limit file' = .ok .unchanged file' ∧
      ∀ count, rounds target (.replace replacement) limit count file' =
        some (List.replicate count .unchanged, file') := by
  obtain ⟨located, body, code, before, after, rewrites, -⟩ := located_of_patch h few storable.1
  have kept : file'.pool.Canonical := by
    have hleft := leaves_patchedCode ConstantPool.kept_canonical file.version (.replace replacement) limit located
      file.pool canonical
    rwa [stateAfter_of_ok rewrites.patchedCode_eq] at hleft
  have hparse := parse_bytes_of_canonical kept storable.1 storable.2
  have hpatch := patch_again h few storable.1
  exact ⟨hparse, hpatch, rounds_of_fixed hparse hpatch⟩

/-- Makes an array and sets an argument on one of two ways that meet, with the array in the frame there. -/
def arraying : Replacement where
  descriptor := "(I)V"
  body := [
    .declare "made" "Ljava/lang/Object;" (.objectArray "java/lang/Object" []),
    .branch (.isTrue (.argument 0)) [.setArgument 0 (.int 1)] [],
    .leave none]

/-- Was the patch applied, with a class left that can be stored? -/
def storesApplied : EStateM.Result PatchError ClassFile MethodPatch → Bool
  | .ok (.applied _ _) file => decide file.Storable
  | _ => false

theorem storesApplied_eq_true {result : EStateM.Result PatchError ClassFile MethodPatch}
    (h : storesApplied result = true) :
    ∃ position envelope file, result = .ok (.applied position envelope) file ∧ file.Storable := by
  unfold storesApplied at h
  split at h
  · next position envelope file => exact ⟨position, envelope, file, rfl, of_decide_eq_true h⟩
  · cases h

theorem settles_of_patch_arraying : ∃ file file' position envelope, ClassFile.parse brief.bytes = .ok file ∧
    singleTarget.descriptor.parameterSlots false ≤ 255 ∧
    ClassFile.patch singleTarget (.replace arraying) 65535 file = .ok (.applied position envelope) file' ∧
    file'.Storable ∧ ClassFile.parse file'.bytes = .ok file' ∧
    ClassFile.patch singleTarget (.replace arraying) 65535 file' = .ok .unchanged file' ∧
    ∀ count, rounds singleTarget (.replace arraying) 65535 count file' =
      some (List.replicate count .unchanged, file') := by
  have fitting : ((ClassFile.parse brief.bytes).toOption.any fun file =>
      storesApplied (ClassFile.patch singleTarget (.replace arraying) 65535 file)) = true := by decide +kernel
  obtain ⟨file, hparse, hstores⟩ := (Option.any_eq_true _ _).1 fitting
  rw [toOption_eq_some] at hparse
  obtain ⟨position, envelope, file', hpatch, storable⟩ := storesApplied_eq_true hstores
  have few : singleTarget.descriptor.parameterSlots false ≤ 255 := by decide
  exact ⟨file, file', position, envelope, hparse, few, hpatch, storable,
    settles_of_patch (canonical_of_parse hparse) few hpatch storable⟩

end ClassFile

end ClassWeave
