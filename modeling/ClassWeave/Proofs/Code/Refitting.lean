import ClassWeave.Proofs.Code.OffsetFrames
import ClassWeave.Proofs.Code.Restoring
import Mathlib.Data.List.Pairwise
import Mathlib.Data.List.Sort

/-!
Frames that are read back. Each frame that was written stands for the one that is made of it again, so
the table that is read has the frames that were put in place, and they are put in place at the same
offsets.
-/

namespace ClassWeave

/-- The same frame but for the labels of its allocations and for unusable locals. -/
structure EditFrame.Related (R : Label → Label → Prop) (frame other : EditFrame) : Prop where
  locals : List.Forall₂ (VerificationType.Related Eq R) frame.compactLocals other.compactLocals
  stack : List.Forall₂ (VerificationType.Related Eq R) frame.stack other.stack

namespace OffsetLabels

variable {known : OffsetLabels} {pool : ConstantPool}

theorem convert_eq_ok {type : StoredType} {other : EditType} :
    known.convert pool type = .ok other ↔
      VerificationType.Related (fun index name => pool.className index = .ok name)
        (fun offset label => known.label offset.toNat = .ok label) type other := by
  refine VerificationType.mapM_eq_ok_iff.trans ⟨fun h => h.imp ?_ ?_, fun h => h.imp ?_ ?_⟩
  · exact fun index name hn => mapError_eq_ok.1 hn
  · intro offset label hl
    rw [label_eq_ok]
    split at hl
    · next found hfound =>
      cases hl
      exact hfound
    · cases hl
  · exact fun index name hn => mapError_eq_ok.2 hn
  · intro offset label hl
    rw [label_eq_ok.1 hl]

theorem erase_of_convert (type : StoredType) (other : EditType)
    (h : known.convert pool type = .ok other) : other.erase = type.erase :=
  VerificationType.erase_of_mapM h

/-- A table with frames for the labels of offsets on top of those it had. -/
structure Fills (known : OffsetLabels) (frames : OffsetFrames) (found table : FrameTable) : Prop where
  set : ∀ entry ∈ frames, ∃ label, known.label entry.1 = .ok label ∧ table.find? label = some entry.2
  kept : ∀ label, (∀ entry ∈ frames, known.label entry.1 ≠ .ok label) →
    table.find? label = found.find? label
  sorted : found.Sorted → table.Sorted

namespace Fills

variable {rest frames : OffsetFrames} {found table : FrameTable} {offset : Nat} {label : Label}
  {frame : EditFrame}

theorem cons (numbered : known.Numbered) (hlabel : known.label offset = .ok label)
    (h : known.Fills rest (found.set label frame) table) (hfirst : ∀ entry ∈ rest, offset ≠ entry.1) :
    known.Fills ((offset, frame) :: rest) found table where
  set := by
    refine List.forall_mem_cons.2 ⟨⟨label, hlabel, ?_⟩, h.set⟩
    rw [h.kept label fun entry hm he => hfirst entry hm
      (numbered.injective _ _ _ (label_eq_ok.1 hlabel) (label_eq_ok.1 he)), FrameTable.find?_set,
      if_pos rfl]
  kept other hother := by
    obtain ⟨hne, hrest⟩ := List.forall_mem_cons.1 hother
    rw [h.kept other hrest, FrameTable.find?_set, if_neg]
    rintro rfl
    exact hne hlabel
  sorted hs := h.sorted (hs.set label frame)

/-- A table that had no frames has just those of the offsets. -/
theorem mem_iff (h : known.Fills frames [] table) :
    (label, frame) ∈ table ↔ ∃ offset, known.label offset = .ok label ∧ (offset, frame) ∈ frames := by
  have hsorted : table.Sorted := h.sorted .nil
  rw [← hsorted.find?_eq_some]
  constructor
  · intro hfound
    by_contra hnone
    have hkept := h.kept label fun entry hm he => by
      obtain ⟨other, hl, hother⟩ := h.set entry hm
      rw [he] at hl
      cases hl
      rw [hfound] at hother
      cases hother
      exact hnone ⟨entry.1, he, hm⟩
    rw [hfound] at hkept
    cases hkept
  · rintro ⟨offset, ho, hm⟩
    obtain ⟨other, hl, hother⟩ := h.set _ hm
    rw [ho] at hl
    cases hl
    exact hother

end Fills

end OffsetLabels

namespace OffsetFrames

open OffsetLabels (Fills)

variable {frames others : OffsetFrames} {known : OffsetLabels} {table : FrameTable} {layout : Layout}

theorem Sorted.eq_of_mem (hs : frames.Sorted) {offset : Nat} {frame other : EditFrame}
    (h : (offset, frame) ∈ frames) (h' : (offset, other) ∈ frames) : frame = other := by
  have : Std.Symm fun a b : Nat × EditFrame => a.1 ≠ b.1 := ⟨fun _ _ => Ne.symm⟩
  have hall : frames.Pairwise fun a b => a.1 ≠ b.1 := hs.imp Nat.ne_of_lt
  by_contra hne
  exact hall.forall h h' (fun he => hne (congrArg Prod.snd he)) rfl

theorem Sorted.ext (hs : frames.Sorted) (hs' : others.Sorted)
    (h : ∀ entry, entry ∈ frames ↔ entry ∈ others) : frames = others := by
  have : Std.Irrefl fun a b : Nat × EditFrame => a.1 < b.1 := ⟨fun _ => Nat.lt_irrefl _⟩
  have : Std.Antisymm fun a b : Nat × EditFrame => a.1 < b.1 :=
    ⟨fun _ _ h h' => absurd h' (Nat.lt_asymm h)⟩
  exact List.Pairwise.eq_of_mem_iff hs hs' h

/-- Frames at the labels of offsets go in place at those offsets. -/
theorem ofLabels_of_fills (h : known.Fills frames [] table) (hs : frames.Sorted)
    (hplaced : ∀ entry ∈ frames, ∀ label, known.label entry.1 = .ok label →
      layout.labels.offset label = .ok entry.1)
    (hinside : ∀ entry ∈ frames, entry.1 ≠ layout.length) : ofLabels layout table = .ok frames := by
  have hmem : ∀ entry, entry ∈ inside layout table ↔ entry ∈ frames := by
    rintro ⟨offset, frame⟩
    rw [mem_inside]
    constructor
    · rintro ⟨label, hm, ho, -⟩
      obtain ⟨found, hl, hm⟩ := h.mem_iff.1 hm
      have hfound := LabelTable.offset_eq_ok.1 (hplaced _ hm label hl)
      rw [ho] at hfound
      cases hfound
      exact hm
    · intro hm
      obtain ⟨label, hl, hfound⟩ := h.set _ hm
      exact ⟨label, FrameTable.mem_of_find? hfound, LabelTable.offset_eq_ok.1 (hplaced _ hm label hl),
        hinside _ hm⟩
  have hagree : Agree (inside layout table) := fun a ha b hb he =>
    hs.agree a ((hmem a).1 ha) b ((hmem b).1 hb) he
  obtain ⟨out, hout⟩ := (ofLabels_ok_iff layout table).2 hagree
  have hset := ofLabels_eq layout table ▸ hout
  have hsorted := sorted_ofLabels hout
  have hsub : ∀ entry ∈ out, entry ∈ frames := fun entry hm => (hmem entry).1 (mem_setAll .nil hset hm)
  have hsame : out = frames := by
    refine hsorted.ext hs fun entry => ⟨hsub entry, fun hm => ?_⟩
    have hhas : out.hasOffset entry.1 = true :=
      (setAll_hasOffset .nil hset entry.1).2 ((hasOffset_iff _ _).2 ⟨entry.2, (hmem entry).2 hm⟩)
    obtain ⟨frame, hframe⟩ := (hasOffset_iff _ _).1 hhas
    rwa [hs.eq_of_mem (hsub _ hframe) hm] at hframe
  rw [hout, hsame]

/-- Each frame at a label inside the code is put in place, if not itself then as the same frame. -/
theorem exists_sameAs (h : ofLabels layout table = .ok frames) {offset : Nat} {frame : EditFrame}
    (hm : (offset, frame) ∈ inside layout table) :
    ∃ other, (offset, other) ∈ frames ∧ frame.sameAs other = true := by
  have hset := ofLabels_eq layout table ▸ h
  have hhas : frames.hasOffset offset = true :=
    (setAll_hasOffset .nil hset offset).2 ((hasOffset_iff _ _).2 ⟨frame, hm⟩)
  obtain ⟨other, hother⟩ := (hasOffset_iff _ _).1 hhas
  exact ⟨other, hother, (ofLabels_ok_iff layout table).1 ⟨frames, h⟩ _ hm _
    (mem_setAll .nil hset hother) rfl⟩

theorem checkAfterJumps_cons {placed : Placed} (hplain : placed.node.isLabel = false)
    (rest : List Placed) (afterJump : Bool) (label : Option Label) :
    frames.checkAfterJumps (placed :: rest) afterJump label = .ok () ↔
      ¬(afterJump = true ∧ ¬frames.hasOffset placed.offset = true) ∧
        frames.checkAfterJumps rest (!placed.node.fallsThrough) none = .ok () := by
  obtain ⟨node, wide, offset⟩ := placed
  cases node with
  | label l => cases hplain
  | _ =>
    conv_lhs => unfold checkAfterJumps
    dsimp only
    split
    · next hbad => cases label <;> simp [hbad]
    · next hgood => simp only [hgood, not_false_eq_true, true_and]

/-- Labels do not matter to where code is entered behind a jump. -/
theorem checkAfterJumps_filter (placed : List Placed) (afterJump : Bool) (label other : Option Label) :
    frames.checkAfterJumps placed afterJump label = .ok () ↔
      frames.checkAfterJumps (placed.filter fun p => !p.node.isLabel) afterJump other = .ok () := by
  induction placed generalizing afterJump label other with
  | nil => exact Iff.rfl
  | cons first rest ih =>
    obtain ⟨node, wide, offset⟩ := first
    rw [List.filter_cons]
    cases hl : node.isLabel with
    | true =>
      cases node with
      | label l => exact ih afterJump (some l) other
      | insn i => cases hl
      | branch b => cases hl
    | false =>
      simp only [Bool.not_false, if_true]
      rw [checkAfterJumps_cons hl, checkAfterJumps_cons hl, ih _ none none]

theorem checkAfterJumps_of_related {R : Label → Label → Prop} {placed placed' : List Placed}
    (h : List.Forall₂ (Placed.Related R) placed placed')
    (hsame : ∀ offset, others.hasOffset offset = frames.hasOffset offset) {afterJump : Bool}
    (hc : frames.checkAfterJumps placed afterJump none = .ok ()) :
    others.checkAfterJumps placed' afterJump none = .ok () := by
  induction h generalizing afterJump with
  | nil => rfl
  | cons first _ ih =>
    obtain ⟨hplain, hplain'⟩ := first.node.isLabel
    obtain ⟨hgood, hrest⟩ := (checkAfterJumps_cons hplain _ _ _).1 hc
    refine (checkAfterJumps_cons hplain' _ _ _).2 ⟨?_, ?_⟩
    · rwa [first.offset, hsame]
    · rw [first.node.fallsThrough]
      exact ih hrest

theorem map_fst_of_forall₂ {R : Nat × EditFrame → Nat × EditFrame → Prop}
    (h : List.Forall₂ R frames others) (hr : ∀ a b, R a b → b.1 = a.1) :
    others.map Prod.fst = frames.map Prod.fst := by
  induction h with
  | nil => rfl
  | cons first _ ih => rw [List.map_cons, List.map_cons, ih, hr _ _ first]

theorem hasOffset_congr (h : others.map Prod.fst = frames.map Prod.fst) (offset : Nat) :
    others.hasOffset offset = frames.hasOffset offset := by
  have hmap : ∀ frames : OffsetFrames,
      frames.hasOffset offset = (frames.map Prod.fst).any fun o => decide (o = offset) := by
    intro frames
    rw [List.any_map]
    rfl
  rw [hmap, hmap, h]

theorem Sorted.congr (hs : frames.Sorted) (h : others.map Prod.fst = frames.map Prod.fst) :
    others.Sorted := by
  have hoffsets : (frames.map Prod.fst).Pairwise (· < ·) := List.pairwise_map.2 hs
  rw [← h] at hoffsets
  exact List.pairwise_map.1 hoffsets

/-- A frame that was stored, and one that stands for what was stored. -/
structure Restored (labels : LabelTable) (pool : ConstantPool) (known : OffsetLabels)
    (entry other : Nat × EditFrame) : Prop where
  offset : other.1 = entry.1
  frame : ∃ stored, EditFrame.store labels entry.2 pool = .ok stored pool ∧
    Frame.StandsFor (known.convert pool) stored other.2

variable {labels labels' : LabelTable} {pool : ConstantPool} {previous previous' : StoredFrame}
  {previousOffset : Option Nat} {done out : List StackMapFrame}

/-- The frames that are made of the differences stand for the frames that these were made of. -/
theorem restored_of_compress (numbered : known.Numbered)
    (h : frames.compress labels previous previousOffset done pool = .ok out pool) (hs : frames.Sorted)
    (hoffsets : ∀ entry ∈ frames, entry.1 ≤ 65535)
    (hbehind : ∀ before, previousOffset = some before → ∀ entry ∈ frames, before < entry.1) :
    ∃ written, out = done.reverse ++ written ∧ ∀ (before : EditFrame) (found table : FrameTable),
      List.Forall₂ (fun type other => known.convert pool type = .ok other)
        previous.compactLocals before.compactLocals →
      known.frames pool (stackMapOffsets previousOffset written) before found = .ok table →
      ∃ restored, List.Forall₂ (Restored labels pool known) frames restored ∧
        known.Fills restored found table := by
  induction frames generalizing previous previousOffset done with
  | nil =>
    obtain ⟨rfl, -⟩ := pure_eq_ok.1 h
    refine ⟨[], by simp, fun before found table _ ht => ⟨[], .nil, ?_⟩⟩
    cases ht
    exact ⟨nofun, fun _ _ => rfl, id⟩
  | cons entry rest ih =>
    obtain ⟨offset, frame⟩ := entry
    obtain ⟨hfirst, hrest⟩ := List.pairwise_cons.1 hs
    obtain ⟨stored, delta, hstored, h, hplace⟩ := OffsetFrames.compress_cons h
      (hoffsets (offset, frame) List.mem_cons_self)
      fun before hb => hbehind before hb (offset, frame) List.mem_cons_self
    obtain ⟨written, rfl, hwritten⟩ := ih h hrest
      (fun entry hm => hoffsets entry (List.mem_cons_of_mem _ hm))
      (fun before hb entry hm => by cases hb; exact hfirst entry hm)
    refine ⟨_ :: written, by rw [List.reverse_cons, List.append_assoc]; rfl,
      fun before found table hbefore ht => ?_⟩
    rw [hplace _ written StoredFrame.delta_stackMapFrame] at ht
    unfold OffsetLabels.frames at ht
    split at ht
    · cases ht
    next next hnext =>
    split at ht
    · cases ht
    next label hlabel =>
    have hstands := Frame.standsFor_of_applyStackMap hbefore hnext
    obtain ⟨restored, hrestored, hfills⟩ := hwritten next _ table
      (hstands.compactLocals OffsetLabels.erase_of_convert) ht
    refine ⟨(offset, next) :: restored, .cons ⟨rfl, stored, hstored, hstands⟩ hrestored,
      hfills.cons numbered hlabel fun other hm he => ?_⟩
    obtain ⟨entry, hentry, hr⟩ := exists_left_of_mem hrestored hm
    have hlt : offset < entry.1 := hfirst entry hentry
    rw [he, hr.offset] at hlt
    exact Nat.lt_irrefl _ hlt

theorem stackMapFrame_congr {stored stored' : StoredFrame} (delta : UInt16)
    (hlocals : stored'.compactLocals = stored.compactLocals) (hstack : stored'.stack = stored.stack)
    (hprevious : previous'.compactLocals = previous.compactLocals) :
    stored'.stackMapFrame delta previous' = stored.stackMapFrame delta previous := by
  unfold StoredFrame.stackMapFrame
  rw [hlocals, hstack, hprevious]

/-- Frames that are stored alike have the same differences. -/
theorem compress_again {R : Nat × EditFrame → Nat × EditFrame → Prop} (hall : List.Forall₂ R frames others)
    (hr : ∀ entry other, R entry other → other.1 = entry.1 ∧
      ∀ stored, EditFrame.store labels entry.2 pool = .ok stored pool →
        ∃ again, EditFrame.store labels' other.2 pool = .ok again pool ∧
          again.compactLocals = stored.compactLocals ∧ again.stack = stored.stack)
    (hprevious : previous'.compactLocals = previous.compactLocals)
    (h : frames.compress labels previous previousOffset done pool = .ok out pool) :
    others.compress labels' previous' previousOffset done pool = .ok out pool := by
  induction hall generalizing previous previous' previousOffset done with
  | nil => exact h
  | @cons entry other rest rest' hfirst _ ih =>
    obtain ⟨offset, frame⟩ := entry
    obtain ⟨offset', frame'⟩ := other
    obtain ⟨stored, hstored, h⟩ := (Settled.bind_eq_ok (EditFrame.settled_store frame) fun _ =>
      OffsetFrames.settled_compress _ _ _ _).1 h
    obtain ⟨hoffset, hagain⟩ := hr _ _ hfirst
    have hsame : offset' = offset := hoffset
    subst hsame
    obtain ⟨again, hstore, hlocals, hstack⟩ := hagain stored hstored
    refine bind_eq_ok.2 ⟨again, pool, hstore, ?_⟩
    rw [stackMapFrame_congr _ hlocals hstack hprevious]
    exact ih hlocals h

end OffsetFrames

/-- The frame on entry names no allocation, so it is the one that was stored. -/
theorem MethodShape.store_entryFrame {labels : LabelTable} (labels' : LabelTable) {pool : ConstantPool}
    {known : OffsetLabels} {shape : MethodShape} {stored : StoredFrame}
    (hstored : EditFrame.store labels shape.entryFrame pool = .ok stored pool) :
    List.Forall₂ (fun type other => known.convert pool type = .ok other)
        stored.compactLocals shape.entryFrame.compactLocals ∧
      EditFrame.store labels' shape.entryFrame pool = .ok stored pool := by
  have plainly : ∀ {types : List EditType} {out : List StoredType},
      (∀ type ∈ types, ∀ label, type ≠ .uninitialized label) →
      List.Forall₂ (EditType.StoredAs labels pool) types out →
      List.Forall₂ (fun type other => known.convert pool other = .ok type ∧
        EditType.StoredAs labels' pool type other) types out := by
    intro types out hplain hall
    refine ((List.forall₂_and_left _ _).2 ⟨hplain, hall⟩).imp fun type other hp => ?_
    obtain ⟨hplain, hstored⟩ := hp
    rw [OffsetLabels.convert_eq_ok]
    cases hstored with
    | object hname => exact ⟨.object (ConstantPool.className_of_internClass hname), .object hname⟩
    | uninitialized hlabel => exact absurd rfl (hplain _)
    | _ => constructor <;> constructor
  obtain ⟨hlocals, hstack⟩ := EditFrame.store_eq_ok.1 hstored
  have hlocals := plainly shape.entryFrame_plain.1 hlocals
  have hstack := plainly shape.entryFrame_plain.2 hstack
  refine ⟨Frame.forall₂_compactLocals OffsetLabels.erase_of_convert
    (hlocals.imp fun _ _ hp => hp.1).flip, EditFrame.store_eq_ok.2 ⟨?_, ?_⟩⟩
  · exact hlocals.imp fun _ _ hp => hp.2
  · exact hstack.imp fun _ _ hp => hp.2

namespace MethodBody.ReadBack

variable {body out : MethodBody} {version : Version} {pool : ConstantPool} {code : Code}
  {layout layout' : Layout} {tables : CodeTables} {entries : List (Nat × Decoded)} {known : OffsetLabels}
  (h : body.ReadBack version pool code layout tables out entries known)
  (matching : Layout.Matching (Node.Aligned body.nodes out.nodes) layout layout')

include h matching

/-- A type is read as it was stored, and is stored in the same way again. -/
theorem type_again {type other : EditType} {stored : StoredType}
    (hstored : EditType.StoredAs layout.labels pool type stored)
    (hother : known.convert pool stored = .ok other) :
    VerificationType.Related Eq (Node.Aligned body.nodes out.nodes) type other ∧
      EditType.StoredAs layout'.labels pool other stored := by
  have hread := OffsetLabels.convert_eq_ok.1 hother
  cases hstored with
  | object hname =>
    cases hread with
    | object hfound =>
      rw [ConstantPool.className_of_internClass hname] at hfound
      cases hfound
      exact ⟨.object rfl, .object hname⟩
  | uninitialized hlabel =>
    cases hread with
    | uninitialized hfound =>
      obtain ⟨hsame, hagain⟩ := h.index_again matching hlabel hfound
      exact ⟨.uninitialized hsame, .uninitialized hagain⟩
  | _ =>
    cases hread
    constructor <;> constructor

/-- A frame is read as it was stored, and is stored in the same way again. -/
theorem frame_again {frame other : EditFrame} {stored : StoredFrame}
    (hstored : EditFrame.store layout.labels frame pool = .ok stored pool)
    (hstands : Frame.StandsFor (known.convert pool) stored other) :
    EditFrame.Related (Node.Aligned body.nodes out.nodes) frame other ∧
      ∃ again, EditFrame.store layout'.labels other pool = .ok again pool ∧
        again.compactLocals = stored.compactLocals ∧ again.stack = stored.stack := by
  obtain ⟨hlocals, hstack⟩ := EditFrame.store_eq_ok.1 hstored
  obtain ⟨locals, stack, rfl, hread, hread'⟩ := hstands
  have hcompact := Frame.forall₂_compactLocals (fun _ _ hr => hr.erase_eq) hlocals
  obtain ⟨hsame, hagain⟩ := forall₂_around hcompact hread fun _ _ _ => h.type_again matching
  obtain ⟨hsame', hagain'⟩ := forall₂_around hstack hread' fun _ _ _ => h.type_again matching
  refine ⟨⟨Frame.forall₂_ofCompact (fun _ _ hr => hr.erase_eq) hsame stack, hsame'⟩,
    Frame.ofCompact stored.compactLocals stored.stack, EditFrame.store_eq_ok.2 ⟨?_, hagain'⟩, ?_, rfl⟩
  · exact Frame.forall₂_slotsOf (fun _ _ hr => hr.erase_eq) .top hagain
  · rw [Frame.compactLocals_ofCompact]
    unfold Frame.compactLocals
    rw [Frame.dropTops_dropTops]

/-- What is jumped to is read as it was written. -/
theorem jumpTargets : List.Forall₂ (Node.Aligned body.nodes out.nodes) body.jumpTargets out.jumpTargets := by
  have plainly : ∀ nodes : List Node,
      nodes.flatMap Node.jumpTargets = (Node.instructions nodes).flatMap Node.jumpTargets := by
    intro nodes
    induction nodes with
    | nil => rfl
    | cons node rest ih =>
      unfold Node.instructions at ih ⊢
      rw [List.flatMap_cons, ih, List.filter_cons]
      cases node <;> rfl
  refine List.rel_append ?_ ?_
  · rw [plainly, plainly out.nodes]
    exact List.rel_flatMap h.alike fun _ _ hr => hr.jumpTargets
  · rw [List.forall₂_map_left_iff, List.forall₂_map_right_iff]
    exact (h.handlers matching).1.imp fun _ _ hr => hr.handler

/-- The frames are read as they were put in place, and are put in place at the same offsets again. -/
theorem frames (hv : version.hasStackMaps = true) :
    ∃ placed restored, OffsetFrames.ofLabels layout body.frames = .ok placed ∧
      List.Forall₂ (fun entry other => other.1 = entry.1 ∧
        EditFrame.Related (Node.Aligned body.nodes out.nodes) entry.2 other.2) placed restored ∧
      known.Fills restored [] out.frames ∧
      out.stackMap layout' pool = .ok tables.frames pool := by
  have hmaps := (h.written.frames.resolve_right fun hn => by simp [hv] at hn).2
  obtain ⟨placed, entry, hplaced, htargets, hjumps, hentry, hmaps⟩ := stackMap_eq_ok.1 hmaps
  have hsorted := OffsetFrames.sorted_ofLabels hplaced
  have hmarks : ∀ e ∈ placed, ∃ label, layout.labels.offset label = .ok e.1 ∧ e.1 ≠ layout.length := by
    intro e hm
    obtain ⟨label, -, ho, hne⟩ := OffsetFrames.mem_ofLabels hplaced hm
    exact ⟨label, LabelTable.offset_eq_ok.2 ho, hne⟩
  obtain ⟨written, hwritten, hrestored⟩ := OffsetFrames.restored_of_compress h.numbered hmaps hsorted
    (fun e hm => by
      obtain ⟨label, ho, -⟩ := hmarks e hm
      exact h.written.bounded _ ⟨label, ho⟩) nofun
  have hall : tables.frames = written := hwritten
  obtain ⟨hread, hentry'⟩ := MethodShape.store_entryFrame layout'.labels hentry
  obtain ⟨restored, hrestored, hfills⟩ := hrestored _ _ _ hread (hall ▸ h.decoded.frames)
  have hoffsets : restored.map Prod.fst = placed.map Prod.fst :=
    OffsetFrames.map_fst_of_forall₂ hrestored fun _ _ hr => hr.offset
  have hsame : ∀ offset, OffsetFrames.hasOffset restored offset = placed.hasOffset offset :=
    OffsetFrames.hasOffset_congr hoffsets
  have hagain : OffsetFrames.ofLabels layout' out.frames = .ok restored := by
    refine OffsetFrames.ofLabels_of_fills hfills (hsorted.congr hoffsets) (fun e hm label hl => ?_)
      fun e hm => ?_
    · obtain ⟨found, hf, hr⟩ := exists_left_of_mem hrestored hm
      obtain ⟨original, ho, -⟩ := hmarks found hf
      exact h.offset_again matching (hr.offset ▸ ho) hl
    · obtain ⟨found, hf, hr⟩ := exists_left_of_mem hrestored hm
      obtain ⟨original, -, hne⟩ := hmarks found hf
      rwa [hr.offset, matching.length]
  have htargets' : OffsetFrames.checkTargets layout' restored out.jumpTargets = .ok () := by
    refine OffsetFrames.checkTargets_ok fun target ht => ?_
    obtain ⟨label, hl, haligned⟩ := exists_left_of_mem (h.jumpTargets matching) ht
    obtain ⟨offset, ho, hhas⟩ := OffsetFrames.hasOffset_of_checkTargets htargets label hl
    obtain ⟨found, hfound, hagain⟩ := matching.labels label target haligned
    rw [ho] at hfound
    cases hfound
    exact ⟨offset, LabelTable.offset_eq_ok.1 hagain, (hsame offset).trans hhas⟩
  have hjumps' : OffsetFrames.checkAfterJumps restored layout'.nodes false none = .ok () := by
    rw [OffsetFrames.checkAfterJumps_filter _ _ _ none] at hjumps ⊢
    exact OffsetFrames.checkAfterJumps_of_related matching.nodes hsame hjumps
  refine ⟨placed, restored, hplaced, hrestored.imp fun e other hr => ?_, hfills, ?_⟩
  · obtain ⟨stored, hstored, hstands⟩ := hr.frame
    exact ⟨hr.offset, (h.frame_again matching hstored hstands).1⟩
  · refine stackMap_eq_ok.2 ⟨restored, entry, hagain, htargets', hjumps', ?_, ?_⟩
    · rw [h.decoded.shape]
      exact hentry'
    · refine OffsetFrames.compress_again hrestored (fun e other hr => ⟨hr.offset, ?_⟩) rfl hmaps
      intro stored hstored
      obtain ⟨found, hfound, hstands⟩ := hr.frame
      rw [hstored] at hfound
      cases hfound
      exact (h.frame_again matching hstored hstands).2

end MethodBody.ReadBack

end ClassWeave
