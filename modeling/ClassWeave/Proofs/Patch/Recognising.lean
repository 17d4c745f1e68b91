import ClassWeave.Proofs.Code.Canonical
import ClassWeave.Proofs.Machine.Mirroring
import ClassWeave.Proofs.Patch.Fronting
import ClassWeave.Proofs.Patch.Wrapping

/-!
What it means that a patch changes nothing. The code of the patch is somewhere in the body: a handler for the
class does what that of the guard does, or a run of nodes does what the guards do. Nothing is said about what
the handler protects, about where the run is, or about the handlers of the guards.
-/

namespace ClassWeave

namespace Program

variable {M : Machine} {program : Program} {code before run after : List Node} {first last : Nat}

/-- A run of nodes is like some code of its form, if no label is among the nodes twice. -/
theorem mirrors_of_ofNodes {pool : ConstantPool}
    (unique : ((before ++ run ++ after).filterMap Node.label?).Nodup)
    (closed : (code.filterMap Node.label?).Nodup)
    (inside : ∀ node ∈ code, ∀ target ∈ node.jumpTargets, .label target ∈ code)
    (form : CanonicalNode.ofNodes run = CanonicalNode.ofNodes code) :
    (Program.mk (before ++ run ++ after) [] pool).Mirrors code before run after := by
  rw [List.filterMap_append, List.filterMap_append, List.append_assoc] at unique
  obtain ⟨-, hrest, hapart⟩ := List.nodup_append.1 unique
  have hrun : (run.filterMap Node.label?).Nodup := (List.nodup_append.1 hrest).1
  refine ⟨rfl, rfl, CanonicalNode.alike_of_ofNodes closed hrun inside form.symm, fun label hm hbefore => ?_⟩
  have hright : label ∈ run.filterMap Node.label? := Builder.mem_labels_iff.2 hm
  exact hapart label (Builder.mem_labels_iff.2 hbefore) label (List.mem_append_left _ hright) rfl

theorem Imitates.endsAs (h : program.Imitates code first last) {locals : Locals M} {stack : List M.Slot}
    {world : World M} {result : EStateM.Result (Fault M) (World M) (List M.Slot)}
    (ends : (Program.mk code [] program.pool).EndsAs ⟨0, locals, stack, world⟩ result) :
    program.EndsAs ⟨first, locals, stack, world⟩ result := by
  cases result with
  | ok values world' =>
    obtain ⟨n, hn⟩ := ends
    exact h.returns locals stack world n values world' hn
  | error fault world' =>
    cases fault with
    | thrown exception =>
      obtain ⟨n, hn⟩ := ends
      exact h.throws locals stack world n exception world' hn
    | stuck => exact ends

/-- Code that comes to an end of statements does so in the run, too. -/
theorem Imitates.resumes (h : program.Imitates code first last) {shape : MethodShape} {s : State M}
    {ending : Ending M} {steps : Nat} (start : s.position = 0) (ends : ∀ world, ending ≠ .running world)
    (resumes : (Program.mk code [] program.pool).Resumes shape code.length steps s ending) :
    program.Resumes shape last steps (s.behind first) ending := by
  obtain ⟨position, locals, stack, world⟩ := s
  subst start
  cases ending with
  | next store world' =>
    obtain ⟨locals', hreaches, holds⟩ := resumes
    exact ⟨locals', h.passes locals stack world locals' [] world' hreaches, holds⟩
  | left values world' =>
    obtain ⟨n, hn⟩ := resumes
    exact h.returns locals stack world n values world' hn
  | thrown exception store world' =>
    obtain ⟨n, hn⟩ := resumes
    exact h.throws locals stack world n exception world' hn
  | running world' => exact (ends world' rfl).elim
  | stuck => exact resumes

end Program

namespace WrapGuard

variable {guard : WrapGuard} {body : MethodBody} {pool pool' : ConstantPool}

/-- A row that is taken for that of the guard. It is for the same class, its range ends at its handler, and
there, but for handlers, the code does what the guard does with an exception. -/
structure Shown (guard : WrapGuard) (body : MethodBody) (pool : ConstantPool) (handler : Handler)
    (start position : Nat) : Prop where
  listed : handler ∈ body.handlers
  catchType : handler.catchType = guard.catchType
  stop : handler.stop = handler.handler
  starts : body.labelPosition? handler.start = some start
  placed : body.labelPosition? handler.handler = some position
  ordered : start ≤ position
  value : (guard.fallback.literal body.shape.returnType).IsOf body.shape.returnType
  rescues : ∃ left, pool ≤ left ∧ ∀ {M : Machine} (locals : Locals M) (exception : M.Slot) (world : World M),
    (Program.mk body.nodes [] left).EndsAs ⟨position, locals, [exception], world⟩
      (guard.rescue body.shape.returnType [exception] world)

theorem eq_unchanged (h : guard.apply (some body) pool = .ok .unchanged pool') :
    pool' = pool ∧ guard.fallback.fits body.shape.returnType = true ∧ ∃ label tail labels left,
      guard.tail body.labels body.shape pool = .ok (label, tail, labels) left ∧
        guard.alreadyWraps body tail = true := by
  unfold apply at h
  dsimp only at h
  split at h
  · exact (throw_bind_ne_ok.1 h).elim
  split at h
  · exact (throw_bind_ne_ok.1 h).elim
  split at h
  · next hfits =>
    obtain ⟨⟨label, rehearsed, labels⟩, p, hrehearsed, h⟩ := bind_eq_ok.1 h
    obtain ⟨hsame, left, hstep⟩ := Patching.rehearse_eq_ok.1 hrehearsed
    split at h
    · next hfound =>
      obtain ⟨-, rfl⟩ := pure_eq_ok.1 h
      exact ⟨hsame, hfits, label, rehearsed, labels, left, hstep, hfound⟩
    · obtain ⟨_, _, -, h⟩ := bind_eq_ok.1 h
      cases (pure_eq_ok.1 h).1
  · exact (throw_bind_ne_ok.1 h).elim

theorem alreadyWraps_iff {tail : Fragment} : guard.alreadyWraps body tail = true ↔
    ∃ handler ∈ body.handlers, handler.catchType = guard.catchType ∧ handler.stop = handler.handler ∧
      ∃ start position, body.labelPosition? handler.start = some start ∧
        body.labelPosition? handler.handler = some position ∧ start ≤ position ∧
          CanonicalNode.matchesAt (CanonicalNode.ofNodes tail.nodes) (body.nodes.drop position) = true := by
  unfold alreadyWraps
  rw [List.any_eq_true]
  refine exists_congr fun handler => and_congr_right fun _ => ?_
  cases body.labelPosition? handler.start with
  | none => simp
  | some start =>
    cases body.labelPosition? handler.handler with
    | none => simp
    | some position => simp [and_assoc]

/-- The code of the handler has one label, and no jumps. -/
theorem Handles.labelled {labels : LabelSupply} {shape : MethodShape} {left : ConstantPool} {label : Label}
    {tail : Fragment} (h : guard.Handles labels shape pool left label tail) :
    (tail.nodes.filterMap Node.label?).Nodup ∧
      ∀ node ∈ tail.nodes, ∀ target ∈ node.jumpTargets, .label target ∈ tail.nodes := by
  obtain ⟨insns, hnodes⟩ := h.nodes
  constructor
  · have hlabels : tail.nodes.filterMap Node.label? = [label] := by
      rw [hnodes]
      simp [List.filterMap_append, Node.label?]
    rw [hlabels]
    exact List.nodup_singleton _
  · intro node hm target ht
    rw [hnodes] at hm
    rcases List.mem_cons.1 hm with rfl | hm
    · cases ht
    rcases List.mem_append.1 hm with hm | hm
    · obtain ⟨insn, -, rfl⟩ := List.mem_map.1 hm
      cases ht
    · rw [List.mem_singleton.1 hm] at ht
      cases ht

theorem Handles.mirrors {labels : LabelSupply} {shape : MethodShape} {left : ConstantPool} {label : Label}
    {tail : Fragment} {before run after : List Node} (h : guard.Handles labels shape pool left label tail)
    (unique : ((before ++ run ++ after).filterMap Node.label?).Nodup)
    (form : CanonicalNode.ofNodes run = CanonicalNode.ofNodes tail.nodes) :
    (Program.mk (before ++ run ++ after) [] left).Mirrors tail.nodes before run after :=
  Program.mirrors_of_ofNodes unique h.labelled.1 h.labelled.2 form

theorem exists_shown (unique : (body.nodes.filterMap Node.label?).Nodup)
    (h : guard.apply (some body) pool = .ok .unchanged pool') :
    pool' = pool ∧ ∃ handler start position, guard.Shown body pool handler start position := by
  obtain ⟨hsame, hfits, label, tail, labels, left, htail, hfound⟩ := eq_unchanged h
  obtain ⟨handler, hm, hcatch, hstop, start, position, hstart, hposition, hle, hmatches⟩ :=
    alreadyWraps_iff.1 hfound
  obtain ⟨run, after, hdrop, -, hform⟩ := CanonicalNode.matchesAt_iff.1 hmatches
  have handles := handles_of_tail hfits htail
  have hnodes : body.nodes = body.nodes.take position ++ run ++ after := by
    rw [List.append_assoc, ← hdrop, List.take_append_drop]
  have hlength : (body.nodes.take position).length = position := by
    have hlt : position < body.nodes.length := (List.findIdx?_eq_some_iff_findIdx_eq.1 hposition).1
    rw [List.length_take]
    omega
  rw [hnodes] at unique
  have imitates := (handles.mirrors unique hform).imitates
  rw [hlength, ← hnodes] at imitates
  refine ⟨hsame, handler, start, position, hm, hcatch, hstop, hstart, hposition, hle,
    Fallback.isOf_literal hfits, left, handles.pool, fun locals exception world => ?_⟩
  exact imitates.endsAs (handles.endsAs locals exception world)

end WrapGuard

namespace PrologueGuard

variable {guard : PrologueGuard} {body : MethodBody} {pool pool' : ConstantPool}

/-- A run of nodes that is taken for the guards. But for handlers it does what their code does; if that has no
handlers, the run decides between the guards, and goes on behind itself where the guards let the method go on. -/
structure Shown (guard : PrologueGuard) (body : MethodBody) (pool left : ConstantPool) (code : Fragment)
    (front run back : List Node) : Prop where
  grown : pool ≤ left
  compiled : ∃ labels, guard.code body pool = .ok (code, labels) left
  nodes : body.nodes = front ++ run ++ back
  alike : Node.Alike code.nodes run
  imitates : (Program.mk body.nodes [] left).Imitates code.nodes front.length (front.length + run.length)
  chooses : code.handlers = [] → body.shape.descriptor.parameterSlots (!body.shape.isStatic) ≤ 65535 →
    ∀ {M : Machine} (call : body.shape.Call M) (world : World M) (fuel : Nat) (ending : Ending M),
      Guard.execAll body.shape fuel [] guard.guards call.store world = ending →
      (∀ world, ending ≠ .running world) →
        (Program.mk body.nodes [] left).Resumes body.shape (front.length + run.length) fuel
          ((call.entry world).behind front.length) ending

theorem eq_unchanged (h : guard.apply (some body) pool = .ok .unchanged pool') :
    pool' = pool ∧ (guard.guards = [] ∨ body.shape.isConstructor = false ∧ guard.guards ≠ [] ∧
      ∃ code labels left, guard.code body pool = .ok (code, labels) left ∧
        CanonicalNode.occursIn (CanonicalNode.ofNodes code.nodes) body.nodes = true) := by
  unfold apply at h
  dsimp only at h
  split at h
  · exact (throw_bind_ne_ok.1 h).elim
  next hmethod =>
  split at h
  · next hnone =>
    obtain ⟨-, rfl⟩ := pure_eq_ok.1 h
    exact ⟨rfl, .inl (List.isEmpty_iff.1 hnone)⟩
  · next hguards =>
    obtain ⟨⟨rehearsed, labels⟩, p, hrehearsed, h⟩ := bind_eq_ok.1 h
    obtain ⟨hsame, left, hstep⟩ := Patching.rehearse_eq_ok.1 hrehearsed
    split at h
    · next hfound =>
      obtain ⟨-, rfl⟩ := pure_eq_ok.1 h
      exact ⟨hsame, .inr ⟨by simpa using hmethod, fun hnone => hguards (List.isEmpty_iff.2 hnone),
        rehearsed, labels, left, hstep, hfound⟩⟩
    · obtain ⟨_, _, -, h⟩ := bind_eq_ok.1 h
      cases (pure_eq_ok.1 h).1

/-- The code of guards places no label twice, and places all that it jumps to. -/
theorem Built.labelled {old : MethodBody} {resume : Label} {opened chained : Compiler} {builder : Builder}
    (h : guard.Built old pool resume opened chained builder) :
    (builder.finish.nodes.filterMap Node.label?).Nodup ∧
      ∀ node ∈ builder.finish.nodes, ∀ target ∈ node.jumpTargets, .label target ∈ builder.finish.nodes := by
  obtain ⟨-, tidy, closed⟩ := h.closed
  have hnodes : builder.finish.nodes = builder.nodes.reverse := rfl
  constructor
  · rw [hnodes, List.filterMap_reverse]
    exact List.nodup_reverse.2 tidy.bookkept.nodup
  · intro node hm target ht
    rw [hnodes, List.mem_reverse] at hm ⊢
    cases node with
    | label label => cases ht
    | insn insn => cases ht
    | branch branch => exact tidy.target_mem closed hm ht

theorem exists_shown (unique : (body.nodes.filterMap Node.label?).Nodup)
    (h : guard.apply (some body) pool = .ok .unchanged pool') :
    pool' = pool ∧ (guard.guards = [] ∨
      ∃ left code front run back, guard.Shown body pool left code front run back) := by
  obtain ⟨hsame, hnone | ⟨method, hsome, code, labels, left, hcode, hfound⟩⟩ := eq_unchanged h
  · exact ⟨hsame, .inl hnone⟩
  obtain ⟨front, rest, hnodes, -, hmatches⟩ := CanonicalNode.occursIn_iff.1 hfound
  obtain ⟨run, back, rfl, -, hform⟩ := CanonicalNode.matchesAt_iff.1 hmatches
  rw [← List.append_assoc] at hnodes
  rw [hnodes] at unique
  obtain ⟨resume, opened, chained, builder, built, rfl, rfl⟩ := built_of_code hcode
  obtain ⟨nodup, inside⟩ := built.labelled
  have mirrors : (Program.mk (front ++ run ++ back) [] builder.pool).Mirrors builder.finish.nodes front run back :=
    Program.mirrors_of_ofNodes unique nodup inside hform
  have imitates := mirrors.imitates
  rw [← hnodes] at imitates
  refine ⟨hsame, .inr ⟨builder.pool, builder.finish, front, run, back, built.closed.1, ⟨labels, hcode⟩, hnodes,
    mirrors.alike, imitates, ?_⟩⟩
  intro hbare few M call world fuel ending hexec hends
  apply imitates.resumes rfl hends
  have hfinished : builder.finish.nodes = builder.nodes.reverse := rfl
  have hhandlers : [] = builder.handlers.reverse ++ [] := (hbare.symm.trans (List.append_nil _).symm)
  have hresumes := built.resumes method hsome few ⟨builder.finish.nodes, [], builder.pool⟩
    (List.prefix_refl _) hhandlers (List.forall_mem_nil _) rfl call world fuel
  rw [hexec, ← List.length_reverse, ← hfinished] at hresumes
  exact hresumes

end PrologueGuard

/-- New code is never found to be there already. -/
theorem Replacement.ne_unchanged {replacement : Replacement} {body : MethodBody} {pool pool' : ConstantPool} :
    replacement.apply (some body) pool ≠ .ok .unchanged pool' := by
  intro h
  unfold apply at h
  dsimp only at h
  cases hparse : MethodDescriptor.parse replacement.descriptor with
  | error problem =>
    rw [hparse] at h
    exact (throw_bind_ne_ok.1 h).elim
  | ok expected =>
    rw [hparse] at h
    dsimp only at h
    split at h
    · exact (throw_bind_ne_ok.1 h).elim
    split at h
    · exact (throw_bind_ne_ok.1 h).elim
    obtain ⟨⟨⟨⟩, compiler⟩, p, -, h⟩ := bind_eq_ok.1 h
    dsimp only at h
    split at h
    · exact (throw_bind_ne_ok.1 h).elim
    rw [get_bind_eq_ok] at h
    generalize MethodBody.observe _ p = observed at h
    cases observed with
    | error problem => exact (throw_ne_ok.1 h).elim
    | ok observed => cases (pure_eq_ok.1 h).1

namespace PatchStrategy

/-- The code of a patch is among that of a body. -/
def Shown : PatchStrategy → MethodBody → ConstantPool → Prop
  | .wrap guard, body, pool => ∃ handler start position, guard.Shown body pool handler start position
  | .prologue guard, body, pool => guard.guards = [] ∨
      ∃ left code front run back, guard.Shown body pool left code front run back
  | .replace _, _, _ => False

theorem shown_of_unchanged {strategy : PatchStrategy} {body : MethodBody} {pool pool' : ConstantPool}
    (unique : (body.nodes.filterMap Node.label?).Nodup)
    (h : strategy.apply (some body) pool = .ok .unchanged pool') : pool' = pool ∧ strategy.Shown body pool := by
  cases strategy with
  | wrap guard => exact WrapGuard.exists_shown unique h
  | prologue guard => exact PrologueGuard.exists_shown unique h
  | replace replacement => exact (Replacement.ne_unchanged h).elim

/-- Is the patch found in the body? -/
def isFound (strategy : PatchStrategy) (body : MethodBody) (pool : ConstantPool) : Bool :=
  match strategy.apply (some body) pool with
  | .ok .unchanged _ => true
  | _ => false

theorem isFound_iff {strategy : PatchStrategy} {body : MethodBody} {pool : ConstantPool} :
    strategy.isFound body pool = true ↔ ∃ pool', strategy.apply (some body) pool = .ok .unchanged pool' := by
  unfold isFound
  constructor
  · intro h
    split at h
    · next pool' happly => exact ⟨pool', happly⟩
    · cases h
  · rintro ⟨pool', happly⟩
    rw [happly]

/-- Everything that is thrown is dropped. -/
def suppressing : PatchStrategy := .wrap ⟨none, none, .default⟩

/-- A jump is protected, and by a handler that drops what is thrown, but not what throws. -/
def throwing : MethodBody where
  shape := ⟨"com/example/Thing", true, false, ⟨[], none⟩⟩
  envelope := ⟨1, 0⟩
  nodes := [.label ⟨0⟩, .branch (.goto ⟨2⟩), .label ⟨1⟩, .insn (.stack .pop), .branch (.return none),
    .label ⟨2⟩, .insn .constNull, .branch .raise]
  handlers := [⟨⟨0⟩, ⟨1⟩, ⟨1⟩, none⟩]
  frames := [(⟨1⟩, ⟨[], [.object "java/lang/Throwable"]⟩), (⟨2⟩, ⟨[], []⟩)]
  lines := []
  locals := []
  localTypes := []
  labels := ⟨3⟩

theorem shown_throwing : (throwing.nodes.filterMap Node.label?).Nodup ∧
    ∃ pool', suppressing.apply (some throwing) .empty = .ok .unchanged pool' ∧ pool' = .empty ∧
      suppressing.Shown throwing .empty := by
  have unique : (throwing.nodes.filterMap Node.label?).Nodup := by decide
  have found : suppressing.isFound throwing .empty = true := by decide +kernel
  obtain ⟨pool', h⟩ := isFound_iff.1 found
  exact ⟨unique, pool', h, shown_of_unchanged unique h⟩

end PatchStrategy

end ClassWeave
