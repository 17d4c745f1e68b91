import ClassWeave.Proofs.Code.Soundness
import ClassWeave.Proofs.Code.Writing
import ClassWeave.Proofs.Script.Running
import Mathlib.Data.List.Nodup

/-!
What a replacement leaves of the script it compiles: the code of a sound builder in which no label is
open and control does not get to the end.
-/

namespace ClassWeave

namespace Replacement

/-- The code of a compiled script, and the builder that it comes from. -/
structure Compiled (replacement : Replacement) (old : MethodBody) (pool : ConstantPool)
    (body : MethodBody) (builder : Builder) : Prop where
  run : Builder.Run (.start pool ⟨0⟩ old.shape old.shape.entryFrame) builder
  closed : ∀ label, ¬Builder.Open builder label
  ended : builder.frame = none
  shape : body.shape = old.shape
  nodes : body.nodes = builder.nodes.reverse
  handlers : body.handlers = builder.handlers.reverse
  frames : body.frames = builder.labelFrames.filter fun entry => builder.needsFrame.contains entry.1
  tables : body.lines = [] ∧ body.locals = [] ∧ body.localTypes = []

theorem build_eq_ok {α : Type} {labels : LabelSupply} {shape : MethodShape} {entry : EditFrame}
    {step : Compiling α} {pool pool' : ConstantPool} {value : α} {compiler : Compiler}
    (h : step.build labels shape entry pool = .ok (value, compiler) pool') :
    step (.start (.start pool labels shape entry) 0) = .ok value compiler ∧
      pool' = compiler.builder.pool := by
  unfold Compiling.build at h
  split at h
  · next heq =>
    cases h
    exact ⟨heq, rfl⟩
  · cases h

/-- The compiler that a replacement gets its code from, and what a replay of the code shows. -/
theorem observed_of_apply {replacement : Replacement} {old : Option MethodBody}
    {body : MethodBody} {pool pool' : ConstantPool}
    (h : replacement.apply old pool = .ok (.patched body) pool') :
    ∃ before compiler observation, old = some before ∧ before.shape.isConstructor = false ∧
      (Compiler.block replacement.body).build ⟨0⟩ before.shape before.shape.entryFrame pool = .ok ((), compiler) pool' ∧
      replacement.Compiled before pool body compiler.builder ∧
      body.observe pool' = .ok observation ∧
      body.envelope = observation.envelope.dominate compiler.builder.finish.envelope := by
  unfold apply at h
  cases old with
  | none => exact (throw_ne_ok.1 h).elim
  | some before =>
    refine ⟨before, ?_⟩
    dsimp only at h
    cases hparse : MethodDescriptor.parse replacement.descriptor with
    | error problem =>
      rw [hparse] at h
      exact (throw_bind_ne_ok.1 h).elim
    | ok expected =>
      rw [hparse] at h
      dsimp only at h
      by_cases hexpected : expected ≠ before.shape.descriptor
      · rw [if_pos hexpected] at h
        exact (throw_bind_ne_ok.1 h).elim
      · rw [if_neg hexpected] at h
        split at h
        · exact (throw_bind_ne_ok.1 h).elim
        · next hconstructor =>
          obtain ⟨⟨⟨⟩, compiler⟩, p₁, hbuild, h⟩ := bind_eq_ok.1 h
          dsimp only at h
          split at h
          · exact (throw_bind_ne_ok.1 h).elim
          · next hexit =>
            rw [get_bind_eq_ok] at h
            generalize hobserve : MethodBody.observe _ p₁ = observed at h
            cases observed with
            | error problem => exact (throw_ne_ok.1 h).elim
            | ok observed =>
              obtain ⟨hbody, rfl⟩ := pure_eq_ok.1 h
              cases hbody
              obtain ⟨hrun, -⟩ := build_eq_ok hbuild
              have emitted := Compiler.emits_block replacement.body _ _ _ (by simp) hrun
              refine ⟨compiler, observed, rfl, Bool.eq_false_iff.2 hconstructor, hbuild, ⟨emitted.run,
                fun label hl => ?_, ?_, rfl, rfl, rfl, rfl, rfl, rfl, rfl⟩, hobserve, rfl⟩
              · rcases emitted.opens label hl with ho | hm
                · cases ho.1
                · cases hm
              · exact Option.not_isSome_iff_eq_none.1 hexit

/-- The compiler that a replacement gets its code from. -/
theorem built_of_apply {replacement : Replacement} {old : Option MethodBody}
    {body : MethodBody} {pool pool' : ConstantPool}
    (h : replacement.apply old pool = .ok (.patched body) pool') :
    ∃ before compiler, old = some before ∧ before.shape.isConstructor = false ∧
      compiler.builder.pool = pool' ∧
      Compiler.block replacement.body
        (.start (.start pool ⟨0⟩ before.shape before.shape.entryFrame) 0) = .ok () compiler ∧
      replacement.Compiled before pool body compiler.builder := by
  obtain ⟨before, compiler, -, hold, hmethod, hbuild, compiled, -⟩ := observed_of_apply h
  obtain ⟨hrun, rfl⟩ := build_eq_ok hbuild
  exact ⟨before, compiler, hold, hmethod, rfl, hrun, compiled⟩

theorem compiled_of_apply {replacement : Replacement} {old : Option MethodBody}
    {body : MethodBody} {pool pool' : ConstantPool}
    (h : replacement.apply old pool = .ok (.patched body) pool') :
    ∃ before builder, old = some before ∧ builder.pool = pool' ∧
      replacement.Compiled before pool body builder := by
  obtain ⟨before, compiler, hold, -, hpool, -, compiled⟩ := built_of_apply h
  exact ⟨before, compiler.builder, hold, hpool, compiled⟩

namespace Compiled

variable {replacement : Replacement} {old body : MethodBody} {pool : ConstantPool}
  {builder : Builder}

theorem sound (h : replacement.Compiled old pool body builder) : builder.Sound :=
  (Builder.sound_start pool ⟨0⟩ old.shape old.shape.entryFrame_plain).run h.run

theorem mem_nodes (h : replacement.Compiled old pool body builder) {node : Node} :
    node ∈ body.nodes ↔ node ∈ builder.nodes := by
  rw [h.nodes, List.mem_reverse]

/-- What needs a frame has one, and is placed. -/
theorem needed (h : replacement.Compiled old pool body builder) {label : Label}
    (hl : label ∈ builder.needsFrame) :
    .label label ∈ body.nodes ∧ ∃ frame, (label, frame) ∈ body.frames := by
  have framed := h.sound.bookkept.needed label hl
  refine ⟨?_, ?_⟩
  · rw [h.mem_nodes, ← Builder.isPlaced_iff]
    cases hp : builder.isPlaced label with
    | true => rfl
    | false => exact absurd ⟨framed, hp⟩ (h.closed label)
  · obtain ⟨frame, hf⟩ := Option.isSome_iff_exists.1 framed
    refine ⟨frame, h.frames ▸ List.mem_filter.2 ⟨FrameTable.mem_of_find? hf, ?_⟩⟩
    exact List.contains_iff_mem.2 hl

theorem mem_frames (h : replacement.Compiled old pool body builder) {entry : Label × EditFrame}
    (hm : entry ∈ body.frames) :
    builder.labelFrames.find? entry.1 = some entry.2 ∧ entry.1 ∈ builder.needsFrame := by
  rw [h.frames, List.mem_filter, List.contains_iff_mem] at hm
  exact ⟨h.sound.bookkept.sorted.find? hm.1, hm.2⟩

/-- The labels of a compiled script are placed once, and whatever the code refers to is placed. -/
theorem wellPlaced (h : replacement.Compiled old pool body builder) : body.WellPlaced where
  nodup := by
    rw [h.nodes, List.filterMap_reverse]
    exact List.nodup_reverse.2 h.sound.bookkept.nodup
  targets branch hb target ht :=
    (h.needed (h.sound.bookkept.targets branch (h.mem_nodes.1 hb) target ht)).1
  handlers handler hm := by
    rw [h.handlers, List.mem_reverse] at hm
    obtain ⟨hstart, hstop, hhandler⟩ := h.sound.bookkept.handlers handler hm
    exact ⟨h.mem_nodes.2 ((Builder.isPlaced_iff _ _).1 hstart),
      h.mem_nodes.2 ((Builder.isPlaced_iff _ _).1 hstop), (h.needed hhandler).1⟩
  lines entry hm := by
    rw [h.tables.1] at hm
    cases hm
  locals entry hm := by
    rw [h.tables.2.1, h.tables.2.2] at hm
    cases hm

/-- The frames of a compiled script are where control jumps to or cannot fall. -/
theorem wellFramed (h : replacement.Compiled old pool body builder) : body.WellFramed where
  framed target ht := by
    rcases List.mem_append.1 ht with ht | ht
    · obtain ⟨node, hn, ht⟩ := List.mem_flatMap.1 ht
      cases node with
      | label l => cases ht
      | insn i => cases ht
      | branch b => exact (h.needed (h.sound.bookkept.targets b (h.mem_nodes.1 hn) target ht)).2
    · obtain ⟨handler, hm, rfl⟩ := List.mem_map.1 ht
      rw [h.handlers, List.mem_reverse] at hm
      exact (h.needed (h.sound.bookkept.handlers handler hm).2.2).2
  inside entry hm := by
    obtain ⟨hfind, hneeds⟩ := h.mem_frames hm
    obtain ⟨later, earlier, hsplit⟩ := List.append_of_mem (h.mem_nodes.1 (h.needed hneeds).1)
    refine ⟨earlier.reverse, later.reverse, by rw [h.nodes, hsplit]; simp, ?_⟩
    -- Otherwise the label would end the code, where control does not get.
    apply Classical.byContradiction
    intro hnone
    have hlabels : ∀ node ∈ later, node.isLabel = true := fun node hn => by
      cases hl : node.isLabel with
      | true => rfl
      | false => exact absurd ⟨node, List.mem_reverse.2 hn, hl⟩ hnone
    have htrailing : entry.1 ∈ Builder.trailing builder.nodes := by
      unfold Builder.trailing
      rw [hsplit, List.takeWhile_append_of_pos hlabels, List.filterMap_append]
      exact List.mem_append_right _ List.mem_cons_self
    rw [h.sound.steady.dead h.ended entry.1 htrailing] at hfind
    cases hfind
  gaps before node after hsplit hnode := by
    have hsuffix : node :: before.reverse <:+ builder.nodes := by
      rw [← List.reverse_reverse builder.nodes, ← h.nodes, hsplit, List.reverse_append,
        List.reverse_cons, List.append_assoc]
      exact List.suffix_append _ _
    refine (h.sound.steady.gaps node _ hsuffix hnode).mono fun l hl => ?_
    obtain ⟨frame, hf⟩ := (h.needed hl).2
    exact List.mem_map_of_mem hf
  anchored frame hm := by
    rcases List.mem_cons.1 hm with rfl | hm
    · rw [h.shape]
      exact old.shape.entryFrame_plain.imp fun type ht label he => absurd he (ht label)
    · obtain ⟨entry, he, rfl⟩ := List.mem_map.1 hm
      refine (h.sound.anchored.framed _ _ (h.mem_frames he).1).imp fun type ht label hl => ?_
      exact h.mem_nodes.2 ((Builder.isPlaced_iff _ _).1 (ht label hl))

end Compiled

/-- A script that compiles is written, unless it exceeds a limit or needs two frames in one place; and
where it needs two, it is not written for a version that has stack maps. -/
theorem encode_of_apply {replacement : Replacement} {old : Option MethodBody} {body : MethodBody}
    {pool pool' : ConstantPool} (h : replacement.apply old pool = .ok (.patched body) pool')
    (version : Version) (limit : Nat) (p : ConstantPool) :
    (∀ problem q, body.encodeWithLimit version limit p = .error problem q →
      Limit problem ∨ version.hasStackMaps = true ∧
        (∃ offset, problem = .conflictingFrames offset) ∧ ¬body.FramesAgree) ∧
      (version.hasStackMaps = true → ¬body.FramesAgree →
        ∀ code q, body.encodeWithLimit version limit p ≠ .ok code q) := by
  obtain ⟨before, builder, -, -, compiled⟩ := compiled_of_apply h
  refine ⟨fun problem q he => ?_, fun hv ha code q => ?_⟩
  · exact body.encodeWithLimit_stops compiled.wellPlaced (fun _ => compiled.wellFramed) p problem q he
  · exact body.encodeWithLimit_ne_ok compiled.wellPlaced compiled.wellFramed hv ha p q code

/-- Clears its argument on one of three ways that meet, two of them at a label of their own. -/
def clearing : Replacement where
  descriptor := "(Ljava/lang/String;I)V"
  body := [
    .branch (.isTrue (.argument 1))
      [.setArgument 0 .null, .branch (.isTrue (.argument 1)) [] []] [],
    .leave none]

def clearingShape : MethodShape where
  thisClass := "com/example/Subject"
  isStatic := true
  isConstructor := false
  descriptor := ⟨[.ref (.object .string), .base .int], none⟩

theorem clearing_patched : ∃ body pool,
    clearing.apply (some (.empty clearingShape)) .empty = .ok (.patched body) pool := by
  have patched : (match clearing.apply (some (.empty clearingShape)) .empty with
    | .ok (.patched _) _ => true
    | _ => false) = true := by decide +kernel
  split at patched
  · next body pool h => exact ⟨body, pool, h⟩
  · cases patched

theorem encode_clearing_of_apply : ∃ body pool,
    clearing.apply (some (.empty clearingShape)) .empty = .ok (.patched body) pool ∧
      (∀ problem q, body.encodeWithLimit ⟨52, 0⟩ 65535 pool = .error problem q →
        Limit problem ∨ (⟨52, 0⟩ : Version).hasStackMaps = true ∧
          (∃ offset, problem = .conflictingFrames offset) ∧ ¬body.FramesAgree) ∧
      ((⟨52, 0⟩ : Version).hasStackMaps = true → ¬body.FramesAgree →
        ∀ code q, body.encodeWithLimit ⟨52, 0⟩ 65535 pool ≠ .ok code q) := by
  obtain ⟨body, pool, h⟩ := clearing_patched
  exact ⟨body, pool, h, encode_of_apply h ⟨52, 0⟩ 65535 pool⟩

/-- The two labels before the last instruction stand for one offset, with a null argument in the frame
of the first only. -/
theorem conflicting_frames_of_clearing : ∃ body pool,
    clearing.apply (some (.empty clearingShape)) .empty = .ok (.patched body) pool ∧
      ¬Limit (.conflictingFrames 10) ∧
      ∃ q, body.encode ⟨52, 0⟩ pool = .error (.conflictingFrames 10) q := by
  obtain ⟨body, pool, h⟩ := clearing_patched
  have conflict : (match clearing.apply (some (.empty clearingShape)) .empty with
    | .ok (.patched body) pool =>
      match body.encode ⟨52, 0⟩ pool with
      | .error problem _ => decide (problem = .conflictingFrames 10)
      | .ok _ _ => false
    | _ => false) = true := by decide +kernel
  rw [h] at conflict
  dsimp only at conflict
  refine ⟨body, pool, h, nofun, ?_⟩
  split at conflict
  · next problem q he => exact ⟨q, of_decide_eq_true conflict ▸ he⟩
  · cases conflict

end Replacement

end ClassWeave
