import ClassWeave.Proofs.Patch.Redoing
import ClassWeave.Proofs.Rule.Isolating

/-!
Transforming a class again. At every rule the class has, method by method, what it had there the first time or what it
finally has. New code is made again of both, and so are guards of what they were put into; in the final class they are
found. In the end every method is as it was, if no rule is applied that was not applied the first time, and if no code
was replaced that had guards put in.
-/

namespace ClassWeave

open ConstantPool

theorem forall₂_of_getElem? {α β : Type} {R : α → β → Prop} {xs : List α} {ys : List β}
    (h : ∀ i : Nat, Option.Rel R xs[i]? ys[i]?) : List.Forall₂ R xs ys := by
  induction xs generalizing ys with
  | nil =>
    cases ys with
    | nil => exact .nil
    | cons y ys => cases h 0
  | cons x xs ih =>
    cases ys with
    | nil => cases h 0
    | cons y ys =>
      have hfirst : Option.Rel R (some x) (some y) := h 0
      obtain ⟨hfirst⟩ := hfirst
      exact .cons hfirst (ih fun i => h (i + 1))

theorem getElem?_of_forall₂ {α β : Type} {R : α → β → Prop} {xs : List α} {ys : List β} (h : List.Forall₂ R xs ys)
    (i : Nat) : Option.Rel R xs[i]? ys[i]? := by
  induction h generalizing i with
  | nil => exact .none
  | cons hfirst _ ih =>
    cases i with
    | zero => exact .some hfirst
    | succ i => exact ih i

namespace ClassFile

variable {file file' final mixed : ClassFile}

/-- A class with the constants of the final one. At each of its methods it is as it was or as it finally is. -/
structure Between (file final mixed : ClassFile) : Prop where
  rest : mixed = { final with methods := mixed.methods }
  each : ∀ position : Nat, mixed.methods[position]? = file.methods[position]? ∨
    mixed.methods[position]? = final.methods[position]?

namespace Between

theorem refl (file final : ClassFile) : file.Between final final := ⟨rfl, fun _ => .inr rfl⟩

variable (between : file.Between final mixed) (evolves : file.Evolves final)

include between

theorem pool_eq : mixed.pool = final.pool := by rw [between.rest]

theorem eq_final (same : file = final) : mixed = final := by
  have hmethods : mixed.methods = final.methods :=
    List.ext_getElem? fun i => (between.each i).elim (fun h => same ▸ h) id
  rw [between.rest, hmethods]

include evolves

theorem sameMethods : file.SameMethods mixed where
  pool := between.pool_eq ▸ evolves.pool
  thisClass := by rw [between.rest, evolves.rest]
  methods := forall₂_of_getElem? fun i => by
    rcases between.each i with h | h
    · rw [h]
      exact getElem?_of_forall₂ (List.forall₂_same.2 fun method _ => .refl method) i
    · rw [h]
      exact getElem?_of_forall₂ evolves.sameMethods.methods i

theorem sameFinal : final.SameMethods mixed where
  pool := between.pool_eq ▸ ConstantPool.le_refl _
  thisClass := by rw [between.rest]
  methods := forall₂_of_getElem? fun i => by
    rcases between.each i with h | h
    · rw [h]
      have back := evolves.sameMethods.methods.flip.imp fun _ _ => SameDeclaration.symm
      exact getElem?_of_forall₂ back i
    · rw [h]
      exact getElem?_of_forall₂ (List.forall₂_same.2 fun method _ => .refl method) i

theorem sameButCode {position : Nat} {method method' : Method} (hmethod : file.methods[position]? = some method)
    (hmethod' : mixed.methods[position]? = some method') : SameButCode mixed.pool method method' := by
  rcases between.each position with hold | hfinal
  · exact .inl (Option.some.inj (hmethod'.symm.trans (hold.trans hmethod)))
  · obtain ⟨last, hlast, related⟩ := exists_right_at evolves.methods hmethod
    cases hlast.symm.trans (hfinal.symm.trans hmethod')
    exact between.pool_eq ▸ related

end Between

/-- Where new code was put, there was other code. -/
theorem Puts.ne_of_codePlace {target : MethodSignature} {strategy : PatchStrategy} {limit i : Nat}
    {located : LocatedMethod} {body : MethodBody} {code existing : Code} {method : Method} {index : PoolIndex}
    (h : file.Puts target strategy limit located body code file') (hle : file'.pool ≤ mixed.pool)
    (place : mixed.CodePlace located.position method i index existing)
    (hold : mixed.methods[located.position]? = file.methods[located.position]?) : existing ≠ code := by
  rintro rfl
  obtain ⟨-, first, j, index', old, there, hnew, -⟩ := h
  obtain ⟨item, hitem, hparse⟩ := there.stored
  obtain ⟨item', hitem', hparse'⟩ := place.stored
  cases (hold.symm.trans place.declared).symm.trans there.declared
  cases hitem'.symm.trans (ConstantPool.findAttribute_of_le hle hitem)
  cases hparse.symm.trans hparse'
  exact hnew rfl

end ClassFile

namespace PatchRule

variable {limit : Nat} {rule : PatchRule} {progress : Progress} {file file' final mixed : ClassFile} {image : Bytes}

/-- A rule is applied, or it leaves everything as it was. -/
theorem step_cases (limit : Nat) (rule : PatchRule) (progress : Progress) :
    (∃ position envelope file, ClassFile.patch rule.target rule.strategy limit progress.file =
      .ok (.applied position envelope) file ∧ rule.step limit progress = (.applied, ⟨file, file.bytes⟩)) ∨
    ((rule.step limit progress).1 ≠ .applied ∧ (rule.step limit progress).2 = progress ∧
      ClassFile.isApplied (ClassFile.patch rule.target rule.strategy limit progress.file) = false) := by
  unfold step
  cases hpatch : ClassFile.patch rule.target rule.strategy limit progress.file with
  | error problem file => exact .inr ⟨nofun, rfl, rfl⟩
  | ok outcome file =>
    cases outcome with
    | notFound => exact .inr ⟨nofun, rfl, rfl⟩
    | unchanged => exact .inr ⟨nofun, rfl, rfl⟩
    | applied position envelope => exact .inl ⟨position, envelope, file, rfl, rfl⟩

theorem step_of_isApplied_eq_false
    (h : ClassFile.isApplied (ClassFile.patch rule.target rule.strategy limit progress.file) = false) :
    (rule.step limit progress).2 = progress := by
  obtain ⟨position, envelope, file, hpatch, -⟩ | ⟨-, hsame, -⟩ := step_cases limit rule progress
  · rw [hpatch] at h
    cases h
  · exact hsame

section Again

variable {located : LocatedMethod} {body : MethodBody} {code : Code} (between : file.Between final mixed)
  (evolves : file'.Evolves final) (puts : file.Puts rule.target rule.strategy limit located body code file')

include between puts in
/-- What is as it finally is can stay so. -/
theorem between_of_stays (hfinal : mixed.methods[located.position]? = final.methods[located.position]?) :
    file'.Between final mixed := by
  refine ⟨between.rest, fun position => ?_⟩
  by_cases h : position = located.position
  · exact .inr (h ▸ hfinal)
  · rw [puts.methods_eq h]
    exact between.each position

include between evolves puts

/-- The same code is written again where the same body is made. -/
theorem rewrites_between {found : LocatedMethod} (hfound : mixed.locate rule.target = .ok (some found))
    (happly : ∀ middle, rule.strategy.apply located.body file.pool = .ok (.patched body) middle →
      middle ≤ mixed.pool → rule.strategy.apply found.body mixed.pool = .ok (.patched body) mixed.pool) :
    mixed.Rewrites rule.target rule.strategy limit found body code mixed.pool := by
  have hversion : mixed.version = file.version := by
    rw [between.rest, ((ClassFile.Evolves.of_puts puts).trans evolves).rest]
  exact puts.rewrites.again (between.pool_eq ▸ evolves.pool) hversion hfound happly

/-- Where the same code is written again, there is then what there was the first time, or what there finally is. -/
theorem between_of_rewrites {found : LocatedMethod}
    (again : mixed.Rewrites rule.target rule.strategy limit found body code mixed.pool)
    (hposition : found.position = located.position) :
    file'.Between final (rule.step limit ⟨mixed, image⟩).2.file := by
  have hle : file'.pool ≤ mixed.pool := between.pool_eq ▸ evolves.pool
  obtain ⟨method', i', index', existing', place', hpatch⟩ := again.patch_eq
  rw [hposition] at place' hpatch
  by_cases hsame : existing' = code
  · have hunchanged : (rule.step limit ⟨mixed, image⟩).2.file = mixed := by
      rw [step_of_isApplied_eq_false]
      rw [hpatch, if_pos hsame]
      rfl
    rw [hunchanged]
    exact between_of_stays between puts
      ((between.each _).resolve_left fun hold => puts.ne_of_codePlace hle place' hold hsame)
  · have hstep : (rule.step limit ⟨mixed, image⟩).2.file = mixed.setAttributes
        located.position method' (method'.attributes.set i' ⟨index', code.bytes⟩) := by
      unfold step
      dsimp only
      rw [hpatch, if_neg hsame]
    have whole := (ClassFile.Evolves.of_puts puts).trans evolves
    obtain ⟨-, method, i, index, existing, place, -, hfile⟩ := id puts
    have related := between.sameButCode whole place.declared place'.declared
    have hput := place.put_eq place' hle related code.bytes
    have hmethods : file'.methods = file.methods.set located.position _ := congrArg ClassFile.methods hfile
    rw [hstep]
    refine ⟨by rw [between.rest]; rfl, fun position => ?_⟩
    unfold ClassFile.setAttributes
    dsimp only
    by_cases h : position = located.position
    · rw [h, hput, hmethods, List.getElem?_set_self (List.getElem?_eq_some_iff.1 place'.declared).1,
        List.getElem?_set_self (List.getElem?_eq_some_iff.1 place.declared).1]
      exact .inl rfl
    · rw [List.getElem?_set_ne (Ne.symm h), puts.methods_eq h]
      exact between.each position

/-- If the method is as it was, the rule is applied to it again. -/
theorem between_of_old (hold : mixed.methods[located.position]? = file.methods[located.position]?) :
    file'.Between final (rule.step limit ⟨mixed, image⟩).2.file := by
  have whole := (ClassFile.Evolves.of_puts puts).trans evolves
  obtain ⟨middle, happly, -⟩ := puts.rewrites.patched
  obtain ⟨before, hbefore, -⟩ := PatchStrategy.follows_of_apply happly
  have hlocate := (between.sameMethods whole).locate_at puts.rewrites.found hbefore hold
  have again := rewrites_between between evolves puts hlocate fun middle happly hle => by
    rw [hbefore] at happly ⊢
    exact PatchStrategy.apply_of_le happly hle
  exact between_of_rewrites between evolves puts again rfl

/-- If the method is as it finally is, new code is written again, and a guard is found. -/
theorem between_of_final (hfinal : mixed.methods[located.position]? = final.methods[located.position]?)
    (decodes : final.Decodes located.position)
    (has : rule.strategy.keepsCode = true → final.Has rule.target rule.strategy) :
    file'.Between final (rule.step limit ⟨mixed, image⟩).2.file := by
  have whole := (ClassFile.Evolves.of_puts puts).trans evolves
  obtain ⟨middle, happly, -⟩ := puts.rewrites.patched
  obtain ⟨before, hbefore, -⟩ := PatchStrategy.follows_of_apply happly
  obtain ⟨out, hout, hshape⟩ := whole.sameMethods.locate_decoded puts.rewrites.found hbefore decodes
  have hlocate := (between.sameFinal whole).locate_at hout rfl hfinal
  cases keeps : rule.strategy.keepsCode with
  | true =>
    obtain ⟨found, old, hfound, hold, present⟩ := has keeps
    cases hout.symm.trans hfound
    have there : mixed.Has rule.target rule.strategy := ⟨_, old, hlocate, hold, between.pool_eq ▸ present⟩
    have hunchanged : (rule.step limit ⟨mixed, image⟩).2 = ⟨mixed, image⟩ :=
      step_of_isApplied_eq_false there.isApplied_eq_false
    rw [hunchanged]
    exact between_of_stays between puts hfinal
  | false =>
    have again := rewrites_between between evolves puts hlocate fun middle happly hle => by
      rw [hbefore] at happly
      exact PatchStrategy.apply_of_shape keeps hshape happly hle
    exact between_of_rewrites between evolves puts again rfl

/-- A rule that was applied leads to what there was behind it, or to what there finally is. -/
theorem between_step (decodes : final.Decodes located.position)
    (has : rule.strategy.keepsCode = true → final.Has rule.target rule.strategy) :
    file'.Between final (rule.step limit ⟨mixed, image⟩).2.file := by
  rcases between.each located.position with hold | hfinal
  · exact between_of_old between evolves puts hold
  · exact between_of_final between evolves puts hfinal decodes has

end Again

variable {rules : List PatchRule}

theorem run_cons (rule : PatchRule) (rest : List PatchRule) : run limit (rule :: rest) progress =
    (⟨rule.description, rule.target.text, (rule.step limit progress).1⟩ ::
      (run limit rest (rule.step limit progress).2).1, (run limit rest (rule.step limit progress).2).2) := rfl

/-- The rules that are applied, in order. -/
def appliedIn (limit : Nat) : List PatchRule → Progress → List PatchRule
  | [], _ => []
  | rule :: rest, progress =>
    let (outcome, next) := rule.step limit progress
    if outcome = .applied then rule :: appliedIn limit rest next else appliedIn limit rest next

/-- Guards of the first rule are not followed by new code for their method. -/
def KeptBy (first later : PatchRule) : Prop :=
  later.target = first.target → first.strategy.keepsCode = true → later.strategy.keepsCode = true

instance (first later : PatchRule) : Decidable (first.KeptBy later) :=
  inferInstanceAs (Decidable (later.target = first.target → first.strategy.keepsCode = true →
    later.strategy.keepsCode = true))

theorem evolves_run (rules : List PatchRule) : progress.file.Evolves (run limit rules progress).2.file := by
  induction rules generalizing progress with
  | nil => exact .refl _
  | cons rule rest ih =>
    rw [run_cons]
    obtain ⟨position, envelope, file, hpatch, hstep⟩ | ⟨-, hsame, -⟩ := step_cases limit rule progress
    · obtain ⟨located, body, code, puts⟩ := ClassFile.puts_of_applied hpatch
      rw [hstep]
      exact (ClassFile.Evolves.of_puts puts).trans (@ih ⟨file, file.bytes⟩)
    · rw [hsame]
      exact ih

/-- A guard that is there is there finally, unless new code is put in its place. -/
theorem has_run {target : MethodSignature} {strategy : PatchStrategy} (loads : progress.Loads)
    (fits : WriteFitting limit rules progress)
    (guards : ∀ rule ∈ appliedIn limit rules progress, rule.target = target → rule.strategy.keepsCode = true)
    (h : progress.file.Has target strategy) : (run limit rules progress).2.file.Has target strategy := by
  induction rules generalizing progress with
  | nil => exact h
  | cons rule rest ih =>
    obtain ⟨first, others⟩ := fits
    obtain ⟨loaded, -⟩ := loads_step loads first
    rw [run_cons]
    unfold appliedIn at guards
    dsimp only at guards
    obtain ⟨position, envelope, file, hpatch, hstep⟩ | ⟨hnot, hsame, -⟩ := step_cases limit rule progress
    · rw [hstep] at guards loaded others ⊢
      rw [if_pos rfl] at guards
      obtain ⟨keeps, guards⟩ := List.forall_mem_cons.1 guards
      exact ih loaded others guards (h.of_applied hpatch keeps loaded.storable.1 first)
    · rw [if_neg hnot] at guards
      rw [hsame] at guards others ⊢
      exact ih loads others guards h

theorem step_of_noMatch (h : (rule.step limit progress).1 = .noMatch) :
    progress.file.locate rule.target = .ok none := by
  unfold step at h
  cases hpatch : ClassFile.patch rule.target rule.strategy limit progress.file with
  | error problem file =>
    rw [hpatch] at h
    cases h
  | ok outcome file =>
    rw [hpatch] at h
    cases outcome with
    | notFound => exact ClassFile.locate_of_notFound hpatch
    | unchanged => cases h
    | applied position envelope => cases h

theorem step_of_locate (h : progress.file.locate rule.target = .ok none) :
    (rule.step limit progress).1 = .noMatch := by
  have hpatch : ClassFile.patch rule.target rule.strategy limit progress.file = .ok .notFound progress.file := by
    unfold ClassFile.patch
    rw [get_bind_eq_ok, h]
    rfl
  unfold step
  rw [hpatch]

/-- If the rule is applied the second time, it was applied the first time, or named no method then. -/
def SettledBy (before after : RuleReport) : Prop :=
  after.outcome = .applied → before.outcome = .applied ∨ before.outcome = .noMatch

instance (before after : RuleReport) : Decidable (SettledBy before after) :=
  inferInstanceAs (Decidable (after.outcome = .applied → before.outcome = .applied ∨ before.outcome = .noMatch))

/-- From a class between that at a rule and the final one, the rules lead to the final one. -/
theorem file_run_again {rules : List PatchRule} (loads : progress.Loads) (fits : WriteFitting limit rules progress)
    (ordered : (appliedIn limit rules progress).Pairwise KeptBy)
    (settled : List.Forall₂ SettledBy (run limit rules progress).1 (run limit rules ⟨mixed, image⟩).1)
    (between : progress.file.Between (run limit rules progress).2.file mixed) :
    (run limit rules ⟨mixed, image⟩).2.file = (run limit rules progress).2.file := by
  induction rules generalizing progress mixed image with
  | nil => exact between.eq_final rfl
  | cons rule rest ih =>
    have evolves := @evolves_run limit progress (rule :: rest)
    have decodes := (loads_run loads fits).2
    obtain ⟨first, others⟩ := fits
    obtain ⟨loaded, -⟩ := loads_step loads first
    rw [run_cons, run_cons] at settled
    obtain ⟨hhead, hrest⟩ := List.forall₂_cons.1 settled
    unfold appliedIn at ordered
    dsimp only at ordered
    rw [run_cons] at between evolves decodes ⊢
    rw [run_cons]
    obtain ⟨position, envelope, file', hpatch, hstep⟩ | ⟨hnot, hsame, -⟩ := step_cases limit rule progress
    · rw [hstep] at between evolves decodes ordered loaded others hrest ⊢
      rw [if_pos rfl] at ordered
      obtain ⟨hkept, ordered⟩ := List.pairwise_cons.1 ordered
      obtain ⟨located, body, code, puts⟩ := ClassFile.puts_of_applied hpatch
      have has (keeps : rule.strategy.keepsCode = true) :
          (run limit rest ⟨file', file'.bytes⟩).2.file.Has rule.target rule.strategy :=
        has_run loaded others (fun later hm htarget => hkept later hm htarget keeps)
          (ClassFile.has_of_applied hpatch keeps loaded.storable.1 first).1
      have hbetween : file'.Between (run limit rest ⟨file', file'.bytes⟩).2.file
          (rule.step limit ⟨mixed, image⟩).2.file :=
        between_step between (@evolves_run limit ⟨file', file'.bytes⟩ rest) puts
          (decodes located.position puts.decodes) has
      exact @ih ⟨file', file'.bytes⟩ _ _ loaded others ordered hrest hbetween
    · rw [if_neg hnot] at ordered
      rw [hsame] at between evolves decodes ordered others hrest ⊢
      have hagain : (rule.step limit ⟨mixed, image⟩).1 ≠ .applied := fun happlied => by
        rcases hhead happlied with hfirst | hfirst
        · exact hnot hfirst
        · have hnone := (between.sameMethods evolves).locate_none (step_of_noMatch hfirst)
          have hnoMatch : (rule.step limit ⟨mixed, image⟩).1 = .noMatch := step_of_locate hnone
          rw [happlied] at hnoMatch
          cases hnoMatch
      rw [step_of_ne_applied hagain] at hrest ⊢
      exact ih loads others ordered hrest between

theorem canonical_run (h : progress.file.pool.Canonical) (rules : List PatchRule) :
    (run limit rules progress).2.file.pool.Canonical := by
  induction rules generalizing progress with
  | nil => exact h
  | cons rule rest ih =>
    rw [run_cons]
    obtain ⟨position, envelope, file', hpatch, hstep⟩ | ⟨-, hsame, -⟩ := step_cases limit rule progress
    · have hleft : progress.file.left rule.target rule.strategy limit = file' := stateAfter_of_ok hpatch
      rw [hstep]
      exact @ih ⟨file', file'.bytes⟩ (hleft ▸ ClassFile.canonical_left h)
    · rw [hsame]
      exact ih h

/-- The image behind rules is read as the class that they leave, if what they write fits. -/
theorem parse_run {rules : List PatchRule} (parsed : ClassFile.parse image = .ok file)
    (fits : WriteFitting limit rules ⟨file, image⟩) :
    ClassFile.parse (run limit rules ⟨file, image⟩).2.image = .ok (run limit rules ⟨file, image⟩).2.file := by
  obtain ⟨-, pool, hslots, hparse⟩ := (loads_run (Progress.loads_of_parse parsed) fits).1
  have kept := @canonical_run limit ⟨file, image⟩ (ClassFile.canonical_of_parse parsed) rules
  have hpool : pool = (run limit rules ⟨file, image⟩).2.file.pool := by
    refine (ClassFile.canonical_of_parse hparse).built.eq_of_constants kept.built ?_
    unfold ConstantPool.constants
    rw [hslots]
  subst hpool
  exact hparse

/-- The second time the image stays as it is. -/
theorem image_run_again {rules : List PatchRule} (parsed : ClassFile.parse image = .ok file)
    (fits : WriteFitting limit rules ⟨file, image⟩) (ordered : (appliedIn limit rules ⟨file, image⟩).Pairwise KeptBy)
    (hfinal : (run limit rules ⟨file, image⟩).2 = progress) (changed : progress.image ≠ image)
    (settled : List.Forall₂ SettledBy (run limit rules ⟨file, image⟩).1 (run limit rules progress).1) :
    (run limit rules progress).2.image = progress.image := by
  have hfile : (run limit rules progress).2.file = progress.file := by
    subst hfinal
    exact file_run_again (Progress.loads_of_parse parsed) fits ordered settled (.refl _ _)
  have hfirst := @progress_run limit ⟨file, image⟩ rules
  have hsecond := @progress_run limit progress rules
  dsimp only at hfirst hsecond
  rw [hfinal] at hfirst
  split at hfirst
  · split at hsecond
    · rw [hsecond, hfile, ← hfirst]
    · rw [hsecond]
  · rw [hfirst] at changed
    exact (changed rfl).elim

/-- Whether what each of the rules writes fits, found by writing it. -/
def checksFit (limit : Nat) : List PatchRule → Progress → Bool
  | [], _ => true
  | rule :: rest, progress =>
    progress.file.checksFit rule.target rule.strategy limit && checksFit limit rest (rule.step limit progress).2

theorem writeFitting_of_checksFit {rules : List PatchRule} (h : checksFit limit rules progress = true) :
    WriteFitting limit rules progress := by
  induction rules generalizing progress with
  | nil => trivial
  | cons rule rest ih =>
    unfold checksFit at h
    rw [Bool.and_eq_true] at h
    exact ⟨fun _ _ _ _ => ClassFile.writesFit_of_checksFit h.1, ih h.2⟩

end PatchRule

namespace Transformer

variable {transformer : Transformer} {name : String} {image : Bytes} {file : ClassFile}

theorem vetted_eq_ok {settings : Settings} :
    vetted settings name image = .ok file ↔ ClassFile.parse image = .ok file ∧ ∃ actual, file.name = .ok actual ∧
      ¬(actual ≠ ClassName.exchange '.' '/' name ∧ settings.strictClassName = true) := by
  constructor
  · intro h
    refine ⟨parse_of_vetted h, ?_⟩
    unfold vetted at h
    split at h
    · cases h
    · next parsed actual hparsed =>
      obtain ⟨found, -, hparsed⟩ := except_bind_eq_ok.1 hparsed
      obtain ⟨name, hname, hparsed⟩ := except_bind_eq_ok.1 hparsed
      cases hparsed
      split at h
      · cases h
      · next hsame =>
        cases h
        exact ⟨actual, mapError_eq_ok.1 hname, hsame⟩
  · rintro ⟨hparse, actual, hname, hsame⟩
    have hread : (do let file ← ClassFile.parse image; return (file, ← file.name) : Except ClassError _) =
        .ok (file, actual) :=
      except_bind_eq_ok.2 ⟨file, hparse, except_bind_eq_ok.2 ⟨actual, mapError_eq_ok.2 hname, rfl⟩⟩
    unfold vetted
    rw [hread]
    dsimp only
    rw [if_neg hsame]

/-- A class that is changed is one that the rules for it get to see. -/
theorem vetted_of_changed (h : (transformer.transform name image).image ≠ image) :
    (transformer.rulesFor name).isEmpty = false ∧ ∃ file, vetted transformer.settings name image = .ok file := by
  rw [transform_eq] at h
  split at h
  · exact (h rfl).elim
  · next hrules =>
    refine ⟨Bool.eq_false_iff.2 hrules, ?_⟩
    cases hvetted : vetted transformer.settings name image with
    | error rejected =>
      rw [hvetted] at h
      exact (h rfl).elim
    | ok file => exact ⟨file, rfl⟩

theorem transform_of_vetted (some : (transformer.rulesFor name).isEmpty = false)
    (h : vetted transformer.settings name image = .ok file) :
    transformer.transform name image =
      ⟨(PatchRule.run transformer.settings.maxCodeLength (transformer.rulesFor name) ⟨file, image⟩).2.image,
        (PatchRule.run transformer.settings.maxCodeLength (transformer.rulesFor name) ⟨file, image⟩).1, none⟩ := by
  unfold rulesFor at some
  rw [transform_eq, if_neg (Bool.eq_false_iff.1 some), h]
  rfl

/-- A class that was transformed is transformed to itself, if what the rules write fits, if no rule puts new code in the
place of code that an earlier one put guards into, and if no rule is applied the second time that failed the first
time or found its patch there. -/
theorem transform_again
    (fits : ∀ file, ClassFile.parse image = .ok file →
      PatchRule.WriteFitting transformer.settings.maxCodeLength (transformer.rulesFor name) ⟨file, image⟩)
    (ordered : ∀ file, ClassFile.parse image = .ok file → (PatchRule.appliedIn transformer.settings.maxCodeLength
      (transformer.rulesFor name) ⟨file, image⟩).Pairwise PatchRule.KeptBy)
    (settled : List.Forall₂ PatchRule.SettledBy (transformer.transform name image).reports
      (transformer.transform name (transformer.transform name image).image).reports) :
    (transformer.transform name (transformer.transform name image).image).image =
      (transformer.transform name image).image := by
  by_cases changed : (transformer.transform name image).image = image
  · rw [changed]
    exact changed
  obtain ⟨some, file, hvetted⟩ := vetted_of_changed changed
  obtain ⟨parsed, actual, hname, haccepted⟩ := vetted_eq_ok.1 hvetted
  have hfirst := transform_of_vetted some hvetted
  cases hfinal : PatchRule.run transformer.settings.maxCodeLength (transformer.rulesFor name) ⟨file, image⟩ with
  | mk reports progress =>
    have rewritten := PatchRule.parse_run parsed (fits file parsed)
    have evolves := @PatchRule.evolves_run transformer.settings.maxCodeLength ⟨file, image⟩ (transformer.rulesFor name)
    rw [hfinal] at hfirst rewritten evolves
    have hagain := vetted_eq_ok.2 ⟨rewritten, actual, evolves.sameMethods.name hname, haccepted⟩
    have hsecond := transform_of_vetted some hagain
    rw [hfirst] at settled changed ⊢
    dsimp only at settled changed hsecond ⊢
    rw [hsecond] at settled ⊢
    dsimp only at settled ⊢
    refine PatchRule.image_run_again parsed (fits file parsed) (ordered file parsed) (by rw [hfinal]) changed ?_
    rw [hfinal]
    exact settled

/-- New code for the method, and guards put into that: a handler around it, and a check in front of it. -/
def layered : Transformer where
  table := .ofList [
    ⟨"suppress", ClassFile.singleTarget, .suppressing, 1⟩,
    ⟨"check", ClassFile.singleTarget, .zeroCheck, 0⟩,
    ⟨"replace", ClassFile.singleTarget, .replace ClassFile.arraying, 2⟩]
  settings := .default

theorem transform_again_layered : ∃ file, ClassFile.parse ClassFile.brief.bytes = .ok file ∧
    PatchRule.WriteFitting layered.settings.maxCodeLength (layered.rulesFor "a.B")
      ⟨file, ClassFile.brief.bytes⟩ ∧
    (PatchRule.appliedIn layered.settings.maxCodeLength (layered.rulesFor "a.B")
      ⟨file, ClassFile.brief.bytes⟩).Pairwise PatchRule.KeptBy ∧
    (layered.transform "a.B" ClassFile.brief.bytes).reports.map RuleReport.applied = [true, true, true] ∧
    List.Forall₂ PatchRule.SettledBy (layered.transform "a.B" ClassFile.brief.bytes).reports
      (layered.transform "a.B" (layered.transform "a.B" ClassFile.brief.bytes).image).reports ∧
    (layered.transform "a.B" (layered.transform "a.B" ClassFile.brief.bytes).image).image =
      (layered.transform "a.B" ClassFile.brief.bytes).image := by
  have checked : ((ClassFile.parse ClassFile.brief.bytes).toOption.any fun file =>
      PatchRule.checksFit layered.settings.maxCodeLength (layered.rulesFor "a.B") ⟨file, ClassFile.brief.bytes⟩ &&
        decide ((PatchRule.appliedIn layered.settings.maxCodeLength (layered.rulesFor "a.B")
          ⟨file, ClassFile.brief.bytes⟩).Pairwise PatchRule.KeptBy)) = true := by decide +kernel
  have applied : (layered.transform "a.B" ClassFile.brief.bytes).reports.map RuleReport.applied =
      [true, true, true] := by decide +kernel
  have settled : List.Forall₂ PatchRule.SettledBy (layered.transform "a.B" ClassFile.brief.bytes).reports
      (layered.transform "a.B" (layered.transform "a.B" ClassFile.brief.bytes).image).reports := by decide +kernel
  obtain ⟨file, hparse, h⟩ := (Option.any_eq_true _ _).1 checked
  rw [toOption_eq_some] at hparse
  rw [Bool.and_eq_true, decide_eq_true_eq] at h
  obtain ⟨fits, ordered⟩ := h
  have written := PatchRule.writeFitting_of_checksFit fits
  refine ⟨file, hparse, written, ordered, applied, settled, transform_again ?_ ?_ settled⟩
  · intro other hother
    cases hparse.symm.trans hother
    exact written
  · intro other hother
    cases hparse.symm.trans hother
    exact ordered

/-- A short method is too long for a handler around it, but not for new code that is shorter. -/
def cramped : Transformer where
  table := .ofList [
    ⟨"suppress", ClassFile.singleTarget, .wrap ⟨some "java/lang/RuntimeException", none, .default⟩, 1⟩,
    ⟨"return", ClassFile.singleTarget, .replace ⟨"(I)V", [.leave none]⟩, 0⟩]
  settings := ⟨8, false, true⟩

/-- The first time the handler does not fit, the second time it does, and its constants stay. -/
theorem not_transform_again_cramped : ¬ ∀ (transformer : Transformer) (name : String) (image : Bytes),
    (transformer.transform name (transformer.transform name image).image).image =
      (transformer.transform name image).image := by
  intro again
  have grows : (cramped.transform "a.B" (cramped.transform "a.B"
      (ClassFile.single ⟨52, 0⟩ [0, 0, 0, 0, 0, 0, 0xB1]).bytes).image).image.length ≠
      (cramped.transform "a.B" (ClassFile.single ⟨52, 0⟩ [0, 0, 0, 0, 0, 0, 0xB1]).bytes).image.length := by
    decide +kernel
  exact grows (congrArg List.length (again _ _ _))

end Transformer

end ClassWeave
