import ClassWeave.Proofs.Class.Consuming
import ClassWeave.Proofs.Frame.Balancing
import ClassWeave.Proofs.Frame.Compressing

/-!
The form of a stack map frame. Of the forms that make a frame of the one before it, the one that is written is the
shortest and lists no locals in full, unless a chop uncovers unusable locals, so that more than three vanish.
-/

namespace ClassWeave

namespace Frame

variable {C P : Type} [DecidableEq C] [DecidableEq P] {types : List (VerificationType C P)}

/-- What is dropped are unusable entries. -/
theorem exists_tops (types : List (VerificationType C P)) :
    ∃ tops, types = dropTops types ++ List.replicate tops .top := by
  refine ⟨(types.rtakeWhile (· = .top)).length, ?_⟩
  have hall : types.rtakeWhile (· = .top) = List.replicate (types.rtakeWhile (· = .top)).length .top := by
    apply List.eq_replicate_of_mem
    intro type hm
    simpa using List.mem_rtakeWhile_imp hm
  rw [← hall]
  exact List.rdropWhile_append_rtakeWhile.symm

/-- Behind entries that stay, only those at the very end are dropped. -/
theorem dropTops_append (settled : dropTops types = types) (added : List (VerificationType C P)) :
    dropTops (types ++ added) = types ++ dropTops added := by
  unfold dropTops at settled ⊢
  rw [List.reverse_append, List.dropWhile_append]
  by_cases hnone : added.reverse.dropWhile (· = .top) = []
  · rw [hnone, List.isEmpty_nil, if_pos rfl, settled]
    simp
  · rw [if_neg (by simpa using hnone), List.reverse_append, List.reverse_reverse]

theorem dropTops_compactLocals (frame : Frame C P) : dropTops frame.compactLocals = frame.compactLocals :=
  dropTops_dropTops _

end Frame

namespace StackMapFrame

/-- The form lists no frame in full, and its tag has a place for its count. -/
def Short : StackMapFrame → Prop
  | .same _ | .sameOne _ _ => True
  | .chop _ count => 1 ≤ count ∧ count ≤ 3
  | .append _ locals => 1 ≤ locals.length ∧ locals.length ≤ 3
  | .full _ _ _ => False

/-- Both forms can be written, and the first takes no more bytes. -/
def NoLonger (form other : StackMapFrame) : Prop :=
  ∃ content content', form.bytes = .ok content ∧ other.bytes = .ok content' ∧ content.length ≤ content'.length

variable {delta : UInt16} {count : UInt8} {locals : List StoredType}

theorem bytes_chop (h : 1 ≤ count ∧ count ≤ 3) : bytes (.chop delta count) = .ok ((251 - count) :: Bytes.u16 delta) :=
  if_pos h

theorem bytes_append (h : 1 ≤ locals.length ∧ locals.length ≤ 3) : bytes (.append delta locals) =
    .ok (UInt8.ofNat (251 + locals.length) :: Bytes.u16 delta ++ locals.flatMap StoredType.bytes) :=
  if_pos h

theorem Short.noLonger_self {form : StackMapFrame} (short : form.Short) : form.NoLonger form := by
  have hbytes : ∃ content, form.bytes = .ok content := by
    cases form with
    | same | sameOne => exact ⟨_, rfl⟩
    | chop => exact ⟨_, bytes_chop short⟩
    | append => exact ⟨_, bytes_append short⟩
    | full => exact short.elim
  obtain ⟨content, hcontent⟩ := hbytes
  exact ⟨content, content, hcontent, hcontent, le_rfl⟩

theorem noLonger_chop {other : UInt8} (h : 1 ≤ count ∧ count ≤ 3) (h' : 1 ≤ other ∧ other ≤ 3) :
    NoLonger (.chop delta count) (.chop delta other) :=
  ⟨_, _, bytes_chop h, bytes_chop h', le_rfl⟩

/-- Nothing that is appended is shorter than nothing. -/
theorem noLonger_same (h : 1 ≤ locals.length ∧ locals.length ≤ 3) :
    NoLonger (.same delta) (.append delta locals) := by
  refine ⟨_, _, rfl, bytes_append h, ?_⟩
  split
  · simp
  · simp [Bytes.length_u16]

theorem noLonger_append {more : List StoredType} (h : 1 ≤ locals.length ∧ (locals ++ more).length ≤ 3) :
    NoLonger (.append delta locals) (.append delta (locals ++ more)) := by
  rw [List.length_append] at h
  refine ⟨_, _, bytes_append ⟨h.1, by omega⟩, bytes_append ⟨by rw [List.length_append]; omega, by
    rw [List.length_append]; omega⟩, ?_⟩
  simp [Bytes.length_u16]

end StackMapFrame

namespace StoredFrame

open StackMapFrame

variable {frame previous next : StoredFrame} {delta : UInt16} {form : StackMapFrame}

theorem stackMapFrame_same (empty : frame.stack = []) (h : frame.compactLocals = previous.compactLocals) :
    frame.stackMapFrame delta previous = .same delta := by
  unfold stackMapFrame
  simp [empty, h]

theorem stackMapFrame_sameOne {type : StoredType} (single : frame.stack = [type])
    (h : frame.compactLocals = previous.compactLocals) : frame.stackMapFrame delta previous = .sameOne delta type := by
  unfold stackMapFrame
  simp [single, h]

theorem stackMapFrame_chop (empty : frame.stack = []) {gone : List StoredType}
    (h : previous.compactLocals = frame.compactLocals ++ gone) (present : gone ≠ []) :
    frame.stackMapFrame delta previous =
      if gone.length < 4 then .chop delta (UInt8.ofNat gone.length) else .full delta frame.compactLocals [] := by
  unfold stackMapFrame
  simp [empty, h, present]

theorem stackMapFrame_append (empty : frame.stack = []) {added : List StoredType}
    (h : frame.compactLocals = previous.compactLocals ++ added) (hcount : 1 ≤ added.length ∧ added.length ≤ 3) :
    frame.stackMapFrame delta previous = .append delta added := by
  have hsome : added ≠ [] := List.length_pos_iff.1 hcount.1
  have hfew : added.length < 4 := by omega
  unfold stackMapFrame
  simp [empty, h, hsome, hfew]

/-- The form chops locals behind unusable ones, and with those more locals vanish than a chop has room for. -/
def Uncovers (previous frame : StoredFrame) (form : StackMapFrame) : Prop :=
  ∃ delta count tops, form = .chop delta count ∧ 4 ≤ tops + count.toNat ∧
    previous.compactLocals.take (previous.compactLocals.length - count.toNat) =
      frame.compactLocals ++ List.replicate tops .top

/-- A chop leaves the locals of the frame, and unusable ones behind them. -/
theorem exists_tops_of_chop {count : UInt8} (happly : previous.applyStackMap (.chop delta count) .ok = .ok next)
    (hsame : next.sameAs frame = true) : frame.stack = [] ∧ count.toNat ≤ previous.compactLocals.length ∧
      ∃ tops, previous.compactLocals.take (previous.compactLocals.length - count.toNat) =
        frame.compactLocals ++ List.replicate tops .top := by
  unfold Frame.applyStackMap at happly
  dsimp only at happly
  by_cases hfew : previous.compactLocals.length < count.toNat
  · rw [if_pos hfew] at happly
    cases happly
  · rw [if_neg hfew] at happly
    cases happly
    obtain ⟨hstack, hlocals⟩ := Frame.sameAs_iff.1 hsame
    rw [Frame.compactLocals_ofCompact] at hlocals
    obtain ⟨tops, htops⟩ := Frame.exists_tops
      (previous.compactLocals.take (previous.compactLocals.length - count.toNat))
    exact ⟨hstack.symm, Nat.le_of_not_lt hfew, tops, hlocals ▸ htops⟩

/-- What vanishes with a chop are the locals that it takes and the unusable ones that it uncovers. -/
theorem exists_gone_of_chop {count : UInt8} (happly : previous.applyStackMap (.chop delta count) .ok = .ok next)
    (hsame : next.sameAs frame = true) :
    frame.stack = [] ∧ ∃ gone, previous.compactLocals = frame.compactLocals ++ gone ∧
      count.toNat ≤ gone.length ∧ (previous.Uncovers frame (.chop delta count) ↔ 4 ≤ gone.length) := by
  obtain ⟨hempty, hle, tops, htops⟩ := exists_tops_of_chop happly hsame
  have hsplit := List.take_append_drop (previous.compactLocals.length - count.toNat) previous.compactLocals
  rw [htops, List.append_assoc] at hsplit
  refine ⟨hempty, _, hsplit.symm, ?_, ?_⟩
  · rw [List.length_append, List.length_drop]
    omega
  · have hgone : (List.replicate tops (.top : StoredType) ++
        previous.compactLocals.drop (previous.compactLocals.length - count.toNat)).length = tops + count.toNat := by
      rw [List.length_append, List.length_replicate, List.length_drop]
      omega
    rw [hgone]
    constructor
    · rintro ⟨delta', count', tops', hform, hfour, htops'⟩
      cases hform
      have hlength := congrArg List.length (htops.symm.trans htops')
      simp only [List.length_append, List.length_replicate] at hlength
      omega
    · exact fun hfour => ⟨delta, count, tops, rfl, hfour, htops⟩

theorem compactLocals_of_append {added : List StoredType}
    (happly : previous.applyStackMap (.append delta added) .ok = .ok next) (hsame : next.sameAs frame = true) :
    frame.stack = [] ∧ frame.compactLocals = previous.compactLocals ++ Frame.dropTops added := by
  obtain ⟨listed, hlisted, happly⟩ := except_bind_eq_ok.1 happly
  cases happly
  have hall : List.Forall₂ (· = ·) added listed := (mapM_eq_ok.1 hlisted).imp fun _ _ => Except.ok.inj
  obtain rfl : added = listed := by rwa [List.forall₂_eq_eq_eq] at hall
  obtain ⟨hstack, hlocals⟩ := Frame.sameAs_iff.1 hsame
  rw [Frame.compactLocals_ofCompact, Frame.dropTops_append previous.dropTops_compactLocals] at hlocals
  exact ⟨hstack.symm, hlocals.symm⟩

theorem full_of_uncovers (happly : previous.applyStackMap form .ok = .ok next) (hsame : next.sameAs frame = true)
    (huncovers : previous.Uncovers frame form) :
    frame.stackMapFrame form.delta previous = .full form.delta frame.compactLocals frame.stack.reverse := by
  obtain ⟨delta, count, tops, rfl, hfour, htops⟩ := huncovers
  obtain ⟨hempty, gone, hgone, hcount, hiff⟩ := exists_gone_of_chop happly hsame
  have hmany : 4 ≤ gone.length := hiff.1 ⟨delta, count, tops, rfl, hfour, htops⟩
  have hsome : gone ≠ [] := List.length_pos_iff.1 (by omega)
  rw [hempty, stackMapFrame_chop hempty hgone hsome, if_neg (by omega)]
  rfl

theorem short_of_not_uncovers (short : form.Short) (happly : previous.applyStackMap form .ok = .ok next)
    (hsame : next.sameAs frame = true) (hnot : ¬previous.Uncovers frame form) :
    (frame.stackMapFrame form.delta previous).Short ∧ (frame.stackMapFrame form.delta previous).NoLonger form := by
  cases form with
  | same delta =>
    cases happly
    obtain ⟨hstack, hlocals⟩ := Frame.sameAs_iff.1 hsame
    rw [Frame.compactLocals_ofCompact, previous.dropTops_compactLocals] at hlocals
    rw [stackMapFrame_same hstack.symm hlocals.symm]
    exact ⟨short, short.noLonger_self⟩
  | sameOne delta type =>
    cases happly
    obtain ⟨hstack, hlocals⟩ := Frame.sameAs_iff.1 hsame
    rw [Frame.compactLocals_ofCompact, previous.dropTops_compactLocals] at hlocals
    rw [stackMapFrame_sameOne hstack.symm hlocals.symm]
    exact ⟨short, short.noLonger_self⟩
  | chop delta count =>
    obtain ⟨hempty, gone, hgone, hcount, hiff⟩ := exists_gone_of_chop happly hsame
    have hfew : gone.length < 4 := Nat.lt_of_not_le fun hfour => hnot (hiff.2 hfour)
    have hpositive : 1 ≤ gone.length := (UInt8.le_iff_toNat_le.1 short.1).trans hcount
    have small : ∀ n < 4, 1 ≤ n → 1 ≤ UInt8.ofNat n ∧ UInt8.ofNat n ≤ 3 := by decide
    have hchop := small gone.length hfew hpositive
    rw [stackMapFrame_chop hempty hgone (List.length_pos_iff.1 hpositive), if_pos hfew]
    exact ⟨hchop, noLonger_chop hchop short⟩
  | append delta added =>
    obtain ⟨hempty, hlocals⟩ := compactLocals_of_append happly hsame
    obtain ⟨tops, htops⟩ := Frame.exists_tops added
    generalize Frame.dropTops added = kept at hlocals htops
    by_cases hnone : kept = []
    · -- Only unusable entries are appended, so the locals are those of the frame before.
      rw [hnone, List.append_nil] at hlocals
      rw [stackMapFrame_same hempty hlocals]
      exact ⟨trivial, noLonger_same short⟩
    · subst htops
      have hpositive : 1 ≤ kept.length := List.length_pos_iff.2 hnone
      have hfew : kept.length ≤ 3 := by
        have hall := short.2
        rw [List.length_append] at hall
        omega
      rw [stackMapFrame_append hempty hlocals ⟨hpositive, hfew⟩]
      exact ⟨⟨hpositive, hfew⟩, noLonger_append ⟨hpositive, short.2⟩⟩
  | full delta locals stack => exact short.elim

/-- Of the forms that make a frame of the one before it, none but the full one is shorter than the one that is chosen,
unless it is a chop that uncovers unusable locals. Then the full form is chosen. -/
theorem shortens (short : form.Short) (hdelta : form.delta = delta)
    (happly : previous.applyStackMap form .ok = .ok next) (hsame : next.sameAs frame = true) :
    ((frame.stackMapFrame delta previous).Short ∧ (frame.stackMapFrame delta previous).NoLonger form ↔
      ¬previous.Uncovers frame form) ∧
    (previous.Uncovers frame form →
      frame.stackMapFrame delta previous = .full delta frame.compactLocals frame.stack.reverse) := by
  subst hdelta
  refine ⟨⟨fun h huncovers => ?_, short_of_not_uncovers short happly hsame⟩, full_of_uncovers happly hsame⟩
  have hfull := h.1
  rw [full_of_uncovers happly hsame huncovers] at hfull
  exact hfull

/-- A chop of one local uncovers an unusable one; the chop that is written takes both. -/
theorem shortens_uncovering :
    let previous : StoredFrame := ⟨[.long, .top, .top, .float], []⟩
    let frame : StoredFrame := ⟨[.long, .top], []⟩
    let form : StackMapFrame := .chop 7 1
    form.Short ∧ form.delta = 7 ∧ previous.applyStackMap form .ok = .ok ⟨[.long, .top, .top], []⟩ ∧
      Frame.sameAs ⟨[.long, .top, .top], []⟩ frame = true ∧ frame.stackMapFrame 7 previous = .chop 7 2 ∧
      ((frame.stackMapFrame 7 previous).Short ∧ (frame.stackMapFrame 7 previous).NoLonger form ↔
        ¬previous.Uncovers frame form) ∧
      (previous.Uncovers frame form →
        frame.stackMapFrame 7 previous = .full 7 frame.compactLocals frame.stack.reverse) := by
  intro previous frame form
  have short : form.Short := by
    constructor <;> decide
  have happly : previous.applyStackMap form .ok = .ok ⟨[.long, .top, .top], []⟩ := rfl
  have hsame : Frame.sameAs ⟨[.long, .top, .top], []⟩ frame = true := by decide
  exact ⟨short, rfl, happly, hsame, by decide, shortens short rfl happly hsame⟩

/-- A chop of one local makes a frame of which three unusable ones are left out, and the full form is written for it. -/
theorem full_of_chop :
    let previous : StoredFrame := ⟨[.integer, .top, .top, .top, .integer], []⟩
    let frame : StoredFrame := ⟨[.integer], []⟩
    previous.Whole ∧ frame.Whole ∧ (StackMapFrame.chop 0 1).Short ∧
      (∃ next, previous.applyStackMap (.chop 0 1) .ok = .ok next ∧ next.sameAs frame = true) ∧
      frame.stackMapFrame 0 previous = .full 0 [.integer] [] ∧
      ¬(frame.stackMapFrame 0 previous).NoLonger (.chop 0 1) := by
  intro previous frame
  have narrow : ∀ types : List StoredType, (∀ type ∈ types, type.isWide = false) →
      Frame.Whole (⟨types, []⟩ : StoredFrame) := by
    intro types h slot type hget hwide
    rw [h type (List.mem_of_getElem? hget)] at hwide
    cases hwide
  have short : (StackMapFrame.chop 0 1).Short := by
    constructor <;> decide
  refine ⟨narrow _ (by decide), narrow _ (by decide), short, ⟨_, rfl, by decide⟩, by decide, ?_⟩
  rintro ⟨content, content', hcontent, hcontent', hle⟩
  cases hcontent
  cases hcontent'
  revert hle
  decide

end StoredFrame

end ClassWeave
