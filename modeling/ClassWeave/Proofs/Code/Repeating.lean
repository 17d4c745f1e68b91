import ClassWeave.Proofs.Code.Refitting

/-!
Decoding undoes encoding. A body that is written and read again is the same but for the names of its
labels, and it is written as the same code.
-/

namespace ClassWeave

theorem exists_right_of_mem {α β : Type} {R : α → β → Prop} {items : List α} {values : List β}
    (h : List.Forall₂ R items values) {item : α} (hm : item ∈ items) : ∃ value ∈ values, R item value :=
  exists_left_of_mem h.flip hm

namespace MethodBody

variable {body out : MethodBody} {version : Version} {pool : ConstantPool} {code : Code}
  {layout layout' : Layout} {tables : CodeTables} {entries : List (Nat × Decoded)} {known : OffsetLabels}

/-- The same body but for the names of its labels: what refers to a label refers to the same instruction.
With stack maps the frames inside the code are the same, without there are none. -/
structure SameUpToLabels (version : Version) (body other : MethodBody) : Prop where
  shape : other.shape = body.shape
  envelope : other.envelope = body.envelope
  nodes : Node.Alike body.nodes other.nodes
  handlers : List.Forall₂ (Handler.Related (Node.Aligned body.nodes other.nodes))
    body.handlers other.handlers
  lines : List.Forall₂ (LineEntry.Related (Node.Aligned body.nodes other.nodes)) body.lines other.lines
  locals : List.Forall₂ (LocalEntry.Related body.nodes other.nodes) body.locals other.locals
  localTypes : List.Forall₂ (LocalEntry.Related body.nodes other.nodes) body.localTypes other.localTypes
  kept : version.hasStackMaps = true → ∀ entry ∈ body.frames, ∀ i,
    Node.indexOf? body.nodes entry.1 = some i → i < (Node.instructions body.nodes).length →
    ∃ found ∈ other.frames, Node.indexOf? other.nodes found.1 = some i ∧
      EditFrame.Related (Node.Aligned body.nodes other.nodes) entry.2 found.2
  frames : ∀ found ∈ other.frames, version.hasStackMaps = true ∧ ∃ entry ∈ body.frames, ∃ i,
    Node.indexOf? body.nodes entry.1 = some i ∧ i < (Node.instructions body.nodes).length ∧
    Node.indexOf? other.nodes found.1 = some i ∧
      EditFrame.Related (Node.Aligned body.nodes other.nodes) entry.2 found.2

namespace ReadBack

variable (h : body.ReadBack version pool code layout tables out entries known)
  (matching : Layout.Matching (Node.Aligned body.nodes out.nodes) layout layout')

include h

theorem frames_eq_nil (hv : version.hasStackMaps = false) : out.frames = [] := by
  have hnone := (h.written.frames.resolve_left fun hm => by simp [hv] at hm).2
  have hframes := h.decoded.frames
  rw [hnone] at hframes
  exact (Except.ok.inj hframes).symm

include matching

theorem sameUpToLabels : SameUpToLabels version body out where
  shape := h.decoded.shape
  envelope := h.decoded.envelope.trans h.written.envelope.symm
  nodes := h.alike
  handlers := (h.handlers matching).1
  lines := (h.lines matching).1
  locals := (h.locals matching).1
  localTypes := (h.localTypes matching).1
  kept hv := by
    rintro ⟨label, frame⟩ hm i hi hlt
    obtain ⟨placed, restored, hplaced, hall, hfills, -⟩ := h.frames matching hv
    obtain ⟨hof, hnodup⟩ := Layout.isOf_of_compute h.written.placed
    obtain ⟨before, after, hsplit, -, -⟩ := Node.indexOf?_eq_some.1 hi
    obtain ⟨front, back, wide, -, -, -, -, hoffset⟩ := hof.offset? hnodup hsplit
    have ho := LabelTable.offset_eq_ok.2 hoffset
    obtain ⟨j, hj, hboundary⟩ := hof.index_of_offset hnodup ho
    rw [hi] at hj
    cases hj
    have hne := (hof.ne_length_iff hboundary).2 hlt
    obtain ⟨frame', hframe', hsame⟩ := OffsetFrames.exists_sameAs hplaced
      (OffsetFrames.mem_inside.2 ⟨label, hm, hoffset, hne⟩)
    obtain ⟨⟨offset, found⟩, hfound, he, hrelated⟩ := exists_right_of_mem hall hframe'
    dsimp only at he
    subst he
    obtain ⟨other, hl, hset⟩ := hfills.set _ hfound
    obtain ⟨k, hk, hk', -⟩ := h.index ho hl
    rw [hi] at hk
    cases hk
    obtain ⟨hstack, hlocals⟩ := Frame.sameAs_iff.1 hsame
    refine ⟨_, FrameTable.mem_of_find? hset, hk', ?_, ?_⟩
    · rw [hlocals]
      exact hrelated.locals
    · rw [hstack]
      exact hrelated.stack
  frames := by
    rintro ⟨other, found⟩ hm
    have hv : version.hasStackMaps = true := by
      by_contra hv
      rw [h.frames_eq_nil (by simpa using hv)] at hm
      cases hm
    obtain ⟨placed, restored, hplaced, hall, hfills, -⟩ := h.frames matching hv
    obtain ⟨offset, hl, hfound⟩ := hfills.mem_iff.1 hm
    obtain ⟨⟨offset', frame⟩, hframe, he, hrelated⟩ := exists_left_of_mem hall hfound
    dsimp only at he
    subst he
    obtain ⟨label, hlabel, ho, hne⟩ := OffsetFrames.mem_inside.1
      (OffsetFrames.mem_setAll .nil (OffsetFrames.ofLabels_eq layout body.frames ▸ hplaced) hframe)
    obtain ⟨i, hi, hi', hboundary⟩ := h.index (LabelTable.offset_eq_ok.2 ho) hl
    have hlt := ((Layout.isOf_of_compute h.written.placed).1.ne_length_iff hboundary).1 hne
    exact ⟨hv, (label, frame), hlabel, i, hi, hlt, hi', hrelated⟩

/-- What is read is written as the same code again. -/
theorem writtenAs (hplaced : Layout.compute out.nodes = .ok layout') :
    out.WrittenAs version pool code layout' tables where
  placed := hplaced
  envelope := h.decoded.envelope
  short := matching.length ▸ h.written.short
  bytes := Layout.bytes_of_matching matching h.written.bytes
  exceptions := (h.handlers matching).2
  frames := by
    refine h.written.frames.imp (fun hmaps => ⟨hmaps.1, ?_⟩) id
    obtain ⟨-, -, -, -, -, hagain⟩ := h.frames matching hmaps.1
    exact hagain
  attributes := by
    obtain ⟨stackMaps, debug, hattributes, hstackMaps, hdebug⟩ := h.written.attributes
    exact ⟨stackMaps, debug, hattributes, hstackMaps, (h.lines matching).2, (h.locals matching).2,
      (h.localTypes matching).2, hdebug.attributes⟩

end ReadBack

/-- A body that was written is read as the same body up to the names of its labels, and that is written
as the same code again. -/
theorem repeats_of_encode {start : ConstantPool} (h : body.encode version start = .ok code pool)
    (inside : body.JumpsInside) (sized : body.TablesSized) (fits : body.Fits) :
    ∃ out, decode code pool body.shape = .ok out ∧ body.SameUpToLabels version out ∧
      out.encode version pool = .ok code pool := by
  obtain ⟨layout, tables, written⟩ := writtenAs_of_encode h
  obtain ⟨out, hout⟩ := written.decode_ok fits sized fun _ => inside
  obtain ⟨entries, known, back⟩ := written.readBack fits sized (fun _ => inside) hout
  obtain ⟨layout', hplaced, matching⟩ :=
    Layout.compute_of_alike back.alike back.nodup_labels written.placed
  exact ⟨out, hout, back.sameUpToLabels matching, (back.writtenAs matching hplaced).encode_eq_ok⟩

/-- A loop in a region whose handler throws again what it catches, with a variable that ends before its
start and a frame at the end of the code. -/
def looping : MethodBody where
  shape := ⟨"a/B", true, false, ⟨[.base .long, .base .int], none⟩⟩
  envelope := ⟨1, 3⟩
  nodes := [.label ⟨4⟩, .insn (.load .int 2), .branch (.ifZero .eq ⟨4⟩), .label ⟨1⟩, .branch (.return none),
    .label ⟨7⟩, .branch .raise, .label ⟨2⟩]
  handlers := [⟨⟨4⟩, ⟨1⟩, ⟨7⟩, some "java/lang/Throwable"⟩]
  frames := [(⟨2⟩, ⟨[], []⟩), (⟨4⟩, ⟨[.long, .top, .integer, .top], []⟩),
    (⟨7⟩, ⟨[.long, .top, .integer], [.object "java/lang/Throwable"]⟩)]
  lines := [⟨⟨4⟩, 7⟩]
  locals := [⟨⟨7⟩, ⟨1⟩, "n", "I", 2⟩]
  localTypes := []
  labels := ⟨8⟩

theorem repeats_looping : ∃ code pool out,
    looping.encode .java6 .empty = .ok code pool ∧ decode code pool looping.shape = .ok out ∧
      looping.SameUpToLabels .java6 out ∧ out.encode .java6 pool = .ok code pool := by
  have written : (match looping.encode .java6 .empty with
      | .ok _ _ => true
      | .error _ _ => false) = true := by decide +kernel
  have inside : looping.JumpsInside := by
    intro branch hm target ht
    simp only [looping, List.mem_cons, List.not_mem_nil, or_false, reduceCtorEq, false_or,
      Node.branch.injEq] at hm
    rcases hm with rfl | rfl | rfl
    · rw [List.mem_singleton.1 ht]
      decide
    · cases ht
    · cases ht
  have sized : looping.TablesSized := by
    intro branch hm
    simp only [looping, List.mem_cons, List.not_mem_nil, or_false, reduceCtorEq, false_or,
      Node.branch.injEq] at hm
    rcases hm with rfl | rfl | rfl <;> trivial
  have fits : looping.Fits := by
    constructor <;> decide
  split at written
  · next code pool h =>
    obtain ⟨out, hout, same, again⟩ := repeats_of_encode h inside sized fits
    exact ⟨code, pool, out, h, hout, same, again⟩
  · cases written

end MethodBody

end ClassWeave
