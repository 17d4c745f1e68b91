import ClassWeave.Proofs.Patch.Replaying
import ClassWeave.Proofs.Patch.Rewriting

/-!
Envelopes of patched methods. Code is stored only with an envelope that covers it, and a guard never
lowers the bounds that the method had.
-/

namespace ClassWeave

namespace Envelope

/-- Neither bound is larger than that of the other envelope. -/
def Within (inner outer : Envelope) : Prop :=
  inner.maxStack ≤ outer.maxStack ∧ inner.maxLocals ≤ outer.maxLocals

theorem within_dominate (inner other : Envelope) : inner.Within (inner.dominate other) := by
  unfold Within dominate
  dsimp only
  constructor
  · split
    · next h => exact h
    · exact UInt16.le_refl _
  · split
    · next h => exact h
    · exact UInt16.le_refl _

end Envelope

/-- The bounds in front of the code. -/
def Code.envelope (code : Code) : Envelope := ⟨code.maxStack, code.maxLocals⟩

namespace MethodBody

variable {body : MethodBody} {version : Version} {limit : Nat} {pool pool' : ConstantPool} {code : Code}

/-- Code is written with the envelope of the body. -/
theorem envelope_of_encode (h : body.encodeWithLimit version limit pool = .ok code pool') :
    code.envelope = body.envelope := by
  obtain ⟨layout, -, h⟩ := except_bind_run.1 h
  split at h
  · exact (throw_bind_ne_ok.1 h).elim
  obtain ⟨bytes, -, h⟩ := except_bind_run.1 h
  obtain ⟨exceptions, p, -, h⟩ := bind_eq_ok.1 h
  split at h
  · obtain ⟨frames, p₁, -, h⟩ := bind_eq_ok.1 h
    obtain ⟨stackMaps, p₂, -, h⟩ := bind_eq_ok.1 h
    obtain ⟨debug, p₃, -, h⟩ := bind_eq_ok.1 h
    obtain ⟨rfl, -⟩ := pure_eq_ok.1 h
    rfl
  · obtain ⟨debug, p₃, -, h⟩ := bind_eq_ok.1 (pure_bind_eq_ok.1 h)
    obtain ⟨rfl, -⟩ := pure_eq_ok.1 h
    rfl

/-- The labels of a body that is written are placed once each. -/
theorem nodup_of_encode (h : body.encodeWithLimit version limit pool = .ok code pool') :
    (body.nodes.filterMap Node.label?).Nodup := by
  obtain ⟨layout, tables, written⟩ := writtenAs_of_encode h
  exact (Layout.isOf_of_compute written.placed).2

theorem envelope_of_decode {shape : MethodShape} (h : decode code pool shape = .ok body) :
    body.envelope = code.envelope := by
  obtain ⟨decoded, -, h⟩ := except_bind_eq_ok.1 h
  obtain ⟨tables, -, h⟩ := except_bind_eq_ok.1 h
  obtain ⟨labels, -, h⟩ := except_bind_eq_ok.1 h
  obtain ⟨nodes, -, h⟩ := except_bind_eq_ok.1 h
  obtain ⟨handlers, -, h⟩ := except_bind_eq_ok.1 h
  obtain ⟨frames, -, h⟩ := except_bind_eq_ok.1 h
  obtain ⟨lines, -, h⟩ := except_bind_eq_ok.1 h
  obtain ⟨locals, -, h⟩ := except_bind_eq_ok.1 h
  obtain ⟨localTypes, -, h⟩ := except_bind_eq_ok.1 h
  cases h
  rfl

end MethodBody

namespace PatchStrategy

/-- Is code put around or in front of the old body, rather than in its place? -/
def isGuard : PatchStrategy → Bool
  | .replace _ => false
  | _ => true

/-- A guard keeps to at least the bounds of the body it is for. -/
theorem within_of_apply {strategy : PatchStrategy} (hguard : strategy.isGuard = true)
    {before body : MethodBody} {pool pool' : ConstantPool}
    (h : strategy.apply (some before) pool = .ok (.patched body) pool') :
    before.envelope.Within body.envelope := by
  cases strategy with
  | wrap guard =>
    have happly : guard.apply (some before) pool = .ok (.patched body) pool' := h
    obtain ⟨_, ⟨⟩, patches⟩ := WrapGuard.patches_of_apply happly
    obtain ⟨_, tail, _, -, rfl⟩ := patches.put
    exact before.envelope.within_dominate tail.envelope
  | prologue guard =>
    have happly : guard.apply (some before) pool = .ok (.patched body) pool' := h
    obtain ⟨_, ⟨⟩, patches⟩ := PrologueGuard.patches_of_apply happly
    obtain ⟨code, _, -, rfl⟩ := patches.put
    exact before.envelope.within_dominate code.envelope
  | replace => cases hguard

end PatchStrategy

namespace ClassFile

variable {file file' : ClassFile} {target : MethodSignature} {strategy : PatchStrategy} {limit : Nat}

/-- The code that a patch stores for the body of a method. -/
structure Stores (file : ClassFile) (target : MethodSignature) (strategy : PatchStrategy) (limit : Nat)
    (position : Nat) (body : MethodBody) (code : Code) (file' : ClassFile) : Prop where
  patched : ∃ located middle, file.locate target = .ok (some located) ∧
    located.position = position ∧ strategy.apply located.body file.pool = .ok (.patched body) middle ∧
      body.encodeWithLimit file.version limit middle = .ok code file'.pool
  stored : ∃ method i item, file'.methods[position]? = some method ∧
    file'.pool.findAttribute Code.format.name method.attributes = some (i, item) ∧
      item.content = code.bytes

/-- A patch that is applied stores a body with an envelope that covers it, which is the one reported,
and the bounds of a guarded method do not shrink. -/
theorem covered_of_patch {position : Nat} {envelope : Envelope}
    (h : ClassFile.patch target strategy limit file = .ok (.applied position envelope) file') :
    ∃ body code, file.Stores target strategy limit position body code file' ∧
      code.envelope = body.envelope ∧ envelope = body.envelope ∧
      body.CoveredBy file'.pool code.envelope ∧
      (strategy.isGuard = true → ∀ original, file.methodCode position = .ok (some original) →
        original.envelope.Within code.envelope) := by
  obtain ⟨located, body, code, pool, rewrites, rfl, rfl, method, i, old, item, hm, hfound, hname, hcontent,
    rfl⟩ := patch_eq_applied h
  obtain ⟨middle, happly, ⟨observed, hcheck⟩, hencode⟩ := rewrites.patched
  have hsame := MethodBody.envelope_of_encode hencode
  have covered := (MethodBody.coveredBy_of_checkEnvelope (MethodBody.nodup_of_encode hencode) hcheck).of_le
    (body.settled_encodeWithLimit _ _ _ _ _ hencode).1
  obtain ⟨hlt, -⟩ := List.getElem?_eq_some_iff.1 hm
  refine ⟨body, code, ⟨⟨located, middle, rewrites.found, rfl, happly, hencode⟩,
    ⟨{ method with attributes := method.attributes.set i item }, i, item, List.getElem?_set_self hlt,
      ConstantPool.findAttribute_set hfound hname, hcontent⟩⟩, hsame, rfl, hsame ▸ covered,
    fun hguard original horiginal => ?_⟩
  obtain ⟨before, hbefore, -⟩ := PatchStrategy.follows_of_apply happly
  obtain ⟨_, found, -, hcode, hdecode⟩ := locate_eq_some rewrites.found hbefore
  obtain rfl := Option.some.inj (Except.ok.inj (hcode.symm.trans horiginal))
  rw [hbefore] at happly
  rw [hsame, ← MethodBody.envelope_of_decode hdecode]
  exact PatchStrategy.within_of_apply hguard happly

/-- A class with the given code for its only method, which takes an int. -/
def single (version : Version) (code : Bytes) : ClassFile :=
  let names : Interning (PoolIndex × PoolIndex × PoolIndex × PoolIndex) := do
    let thisClass ← ConstantPool.internClass "a/B"
    let name ← ConstantPool.internUtf8 "run"
    let descriptor ← ConstantPool.internUtf8 "(I)V"
    return (thisClass, name, descriptor, ← ConstantPool.internUtf8 "Code")
  match names .empty with
  | .ok (thisClass, name, descriptor, stored) pool =>
    { version := version
      pool := pool
      flags := .ofBits .ofClass 0x21
      thisClass := thisClass
      superClass := none
      interfaces := []
      fields := []
      methods := [⟨.ofBits .ofMethod 9, name, descriptor, [⟨stored, Code.bytes ⟨0, 1, code, [], []⟩⟩]⟩]
      attributes := [] }
  | .error _ pool => ⟨version, pool, .ofBits .ofClass 0, ⟨0⟩, none, [], [], [], []⟩

/-- The method returns at once. -/
def brief : ClassFile := single ⟨52, 0⟩ [0xB1]

theorem classNameProblem_single : classNameProblem "a/B" = none := by decide

def singleTarget : MethodSignature :=
  ⟨⟨"a/B", classNameProblem_single⟩, ⟨"run", by decide⟩, ⟨[.base .int], none⟩⟩

/-- Raises the argument to two, in a loop, before the method runs. -/
def raising : PatchStrategy :=
  .prologue ⟨[⟨.compare .lt (.argument 0) (.int 2),
    [.loop (.compare .ne (.argument 0) (.int 2)) [.setArgument 0 (.int 2)]]⟩]⟩

theorem brief_patched : ∃ file',
    patch singleTarget raising 65535 brief = .ok (.applied 0 ⟨2, 1⟩) file' := by
  have patched : (match patch singleTarget raising 65535 brief with
    | .ok (.applied 0 envelope) _ => decide (envelope = ⟨2, 1⟩)
    | _ => false) = true := by decide +kernel
  split at patched
  · next envelope file' h => exact ⟨file', of_decide_eq_true patched ▸ h⟩
  · cases patched

theorem covered_raising_of_patch : ∃ file' body code,
    patch singleTarget raising 65535 brief = .ok (.applied 0 ⟨2, 1⟩) file' ∧
      brief.Stores singleTarget raising 65535 0 body code file' ∧
      code.envelope = body.envelope ∧ ⟨2, 1⟩ = body.envelope ∧
      body.CoveredBy file'.pool code.envelope ∧
      (raising.isGuard = true → ∀ original, brief.methodCode 0 = .ok (some original) →
        original.envelope.Within code.envelope) := by
  obtain ⟨file', h⟩ := brief_patched
  obtain ⟨body, code, rest⟩ := covered_of_patch h
  exact ⟨file', body, code, h, rest⟩

end ClassFile

end ClassWeave
