import ClassWeave.Patch.Strategy
import ClassWeave.Proofs.Code.FrameTable
import ClassWeave.Proofs.Steps

/-!
How a body is patched. A guard is patched in only if it is not there yet, and the patched body is put
together from the old one and the code of the guard.
-/

namespace ClassWeave

theorem Patching.rehearse_eq_ok {α : Type} {step : Patching α} {pool pool' : ConstantPool} {a : α} :
    step.rehearse pool = .ok a pool' ↔ pool' = pool ∧ ∃ left, step pool = .ok a left := by
  unfold Patching.rehearse
  split
  · next value left h =>
    rw [h]
    constructor
    · rintro ⟨⟩
      exact ⟨rfl, left, rfl⟩
    · rintro ⟨rfl, other, he⟩
      cases he
      rfl
  · next problem left h =>
    rw [h]
    exact ⟨nofun, fun ⟨_, _, he⟩ => nomatch he⟩

/-- Frames of other labels stay. -/
theorem FrameTable.find?_setAll {frames added : FrameTable} {label : Label} (h : ∀ entry ∈ added, entry.1 ≠ label) :
    (frames.setAll added).find? label = frames.find? label := by
  unfold setAll
  induction added generalizing frames with
  | nil => rfl
  | cons entry rest ih =>
    have hne : label ≠ entry.1 := fun he => h entry List.mem_cons_self he.symm
    rw [List.foldl_cons, ih fun other hm => h other (List.mem_cons_of_mem _ hm), find?_set, if_neg hne]

namespace WrapGuard

/-- The body with the handler behind it, around all of its instructions. -/
def around (guard : WrapGuard) (before : MethodBody) (label : Label) (tail : Fragment)
    (labels : LabelSupply) : MethodBody :=
  let (start, body) := before.labelAt before.firstInstruction
  { body with
    nodes := body.nodes ++ tail.nodes
    frames := body.frames.setAll tail.frames
    handlers := body.handlers ++ [⟨start, label, label, guard.catchType⟩]
    envelope := before.envelope.dominate tail.envelope
    labels := labels }

/-- When a guard is patched in, and what it makes of the body. -/
structure Patches (guard : WrapGuard) (before : MethodBody) (pool : ConstantPool) (body : MethodBody)
    (pool' : ConstantPool) : Prop where
  method : before.shape.isConstructor = false
  code : before.instructionCount ≠ 0
  fits : guard.fallback.fits before.shape.returnType = true
  new : ∃ label rehearsed labels left,
    guard.tail before.labels before.shape pool = .ok (label, rehearsed, labels) left ∧
      guard.alreadyWraps before rehearsed = false
  put : ∃ label tail labels,
    guard.tail (before.labelAt before.firstInstruction).2.labels before.shape pool =
      .ok (label, tail, labels) pool' ∧ body = guard.around before label tail labels

theorem patches_of_apply {guard : WrapGuard} {old : Option MethodBody} {body : MethodBody}
    {pool pool' : ConstantPool} (h : guard.apply old pool = .ok (.patched body) pool') :
    ∃ before, old = some before ∧ guard.Patches before pool body pool' := by
  unfold apply at h
  cases old with
  | none => cases (pure_eq_ok.1 h).1
  | some before =>
    refine ⟨before, rfl, ?_⟩
    dsimp only at h
    split at h
    · exact (throw_bind_ne_ok.1 h).elim
    next hmethod =>
    split at h
    · exact (throw_bind_ne_ok.1 h).elim
    next hcode =>
    split at h
    · next hfits =>
      obtain ⟨⟨first, rehearsed, unused⟩, p, hrehearsed, h⟩ := bind_eq_ok.1 h
      obtain ⟨hsame, left, hstep⟩ := Patching.rehearse_eq_ok.1 hrehearsed
      rw [hsame] at h
      split at h
      · cases (pure_eq_ok.1 h).1
      · next hnew =>
        obtain ⟨⟨label, tail, labels⟩, _, htail, h⟩ := bind_eq_ok.1 h
        obtain ⟨he, rfl⟩ := pure_eq_ok.1 h
        cases he
        exact ⟨by simpa using hmethod, hcode, hfits,
          ⟨first, rehearsed, unused, left, hstep, by simpa using hnew⟩, label, tail, labels, htail, rfl⟩
    · exact (throw_bind_ne_ok.1 h).elim

end WrapGuard

namespace PrologueGuard

/-- The body with the code of the guards in front of it. -/
def inFront (before : MethodBody) (code : Fragment) (labels : LabelSupply) : MethodBody :=
  { before with
    nodes := code.nodes ++ before.nodes
    frames := before.frames.setAll code.frames
    handlers := code.handlers ++ before.handlers
    envelope := before.envelope.dominate code.envelope
    labels := labels }

/-- When guards are patched in, and what they make of the body. -/
structure Patches (guard : PrologueGuard) (before : MethodBody) (pool : ConstantPool)
    (body : MethodBody) (pool' : ConstantPool) : Prop where
  method : before.shape.isConstructor = false
  guards : guard.guards ≠ []
  new : ∃ rehearsed labels left, guard.code before pool = .ok (rehearsed, labels) left ∧
    CanonicalNode.occursIn (CanonicalNode.ofNodes rehearsed.nodes) before.nodes = false
  put : ∃ code labels, guard.code before pool = .ok (code, labels) pool' ∧
    body = inFront before code labels

theorem patches_of_apply {guard : PrologueGuard} {old : Option MethodBody} {body : MethodBody}
    {pool pool' : ConstantPool} (h : guard.apply old pool = .ok (.patched body) pool') :
    ∃ before, old = some before ∧ guard.Patches before pool body pool' := by
  unfold apply at h
  cases old with
  | none => cases (pure_eq_ok.1 h).1
  | some before =>
    refine ⟨before, rfl, ?_⟩
    dsimp only at h
    split at h
    · exact (throw_bind_ne_ok.1 h).elim
    next hmethod =>
    split at h
    · cases (pure_eq_ok.1 h).1
    next hguards =>
    obtain ⟨⟨rehearsed, unused⟩, p, hrehearsed, h⟩ := bind_eq_ok.1 h
    obtain ⟨hsame, left, hstep⟩ := Patching.rehearse_eq_ok.1 hrehearsed
    rw [hsame] at h
    split at h
    · cases (pure_eq_ok.1 h).1
    · next hnew =>
      obtain ⟨⟨code, labels⟩, _, hcode, h⟩ := bind_eq_ok.1 h
      obtain ⟨he, rfl⟩ := pure_eq_ok.1 h
      cases he
      exact ⟨by simpa using hmethod, fun hnone => hguards (by rw [hnone]; rfl),
        ⟨rehearsed, unused, left, hstep, by simpa using hnew⟩, code, labels, hcode, rfl⟩

end PrologueGuard

end ClassWeave
