import ClassWeave.Proofs.Code.Checking
import ClassWeave.Proofs.Frame.Merging

/-!
Jumps in any order. A label that is not placed yet has the merge of the frames that are on their way to it, and a
jump fails where that merge does. So the order in which jumps are noted makes no difference, and every jump may flow
into the frame that its target comes to have.
-/

namespace ClassWeave

namespace EditFrame

/-- One more frame gets to where the merge of others does, if they have one. -/
def join (reached : Option EditFrame) (arriving : EditFrame) : Option EditFrame :=
  reached.bind (·.merge arriving)

/-- The merge of frames, of which there is at least one. -/
def mergeAll : List EditFrame → Option EditFrame
  | [] => none
  | first :: rest => rest.foldl join (some first)

theorem foldl_join_none (frames : List EditFrame) : frames.foldl join none = none := by
  induction frames with
  | nil => rfl
  | cons frame rest ih => exact ih

theorem foldl_join_perm {frames others : List EditFrame} (perm : frames.Perm others)
    (whole : ∀ frame ∈ frames, frame.Whole) (reached : Option EditFrame) :
    frames.foldl join reached = others.foldl join reached := by
  refine perm.foldl_eq' (fun b hb c hc reached => ?_) reached
  cases reached with
  | none => rfl
  | some a => exact merge_right_comm a (whole b hb) (whole c hc)

theorem mergeAll_perm {frames others : List EditFrame} (perm : frames.Perm others)
    (whole : ∀ frame ∈ frames, frame.Whole) : mergeAll frames = mergeAll others := by
  induction perm with
  | nil => rfl
  | cons first perm => exact foldl_join_perm perm (fun frame hm => whole frame (List.mem_cons_of_mem _ hm)) _
  | swap a b rest =>
    change rest.foldl join (b.merge a) = rest.foldl join (a.merge b)
    rw [merge_comm]
  | trans perm _ ih ih' => rw [ih whole, ih' fun frame hm => whole frame (perm.mem_iff.2 hm)]

/-- What has been merged weakens to whatever further merges lead to. -/
theorem flows_foldl_join {frames : List EditFrame} {frame reached : EditFrame}
    (h : frames.foldl join (some frame) = some reached) : frame.Flows EditType.Weakens reached := by
  induction frames generalizing frame with
  | nil => exact Option.some.inj h ▸ Flows.refl .refl _
  | cons arriving rest ih =>
    cases hmerge : frame.merge arriving with
    | none =>
      have hnone : rest.foldl join none = some reached := hmerge ▸ h
      rw [foldl_join_none] at hnone
      cases hnone
    | some merged =>
      have hrest : rest.foldl join (some merged) = some reached := hmerge ▸ h
      exact (flows_merge_left hmerge).weakens_trans (ih hrest)

theorem flows_mergeAll {frames : List EditFrame} {frame reached : EditFrame} (h : mergeAll frames = some reached)
    (hm : frame ∈ frames) : frame.Flows EditType.Weakens reached := by
  obtain ⟨front, back, rfl⟩ := List.append_of_mem hm
  cases front with
  | nil => exact flows_foldl_join h
  | cons first front =>
    have hback : back.foldl join (join (front.foldl join (some first)) frame) = some reached := by
      rw [← List.foldl_cons, ← List.foldl_append]
      exact h
    cases hfront : front.foldl join (some first) with
    | none =>
      rw [hfront] at hback
      rw [show join none frame = none from rfl, foldl_join_none] at hback
      cases hback
    | some before =>
      rw [hfront] at hback
      cases hmerge : before.merge frame with
      | none =>
        rw [show join (some before) frame = none from hmerge, foldl_join_none] at hback
        cases hback
      | some merged =>
        rw [show join (some before) frame = some merged from hmerge] at hback
        exact (flows_merge_right hmerge).weakens_trans (flows_foldl_join hback)

end EditFrame

namespace Builder

open EditFrame

variable {B C D : Builder} {label target : Label} {frame : EditFrame} {jumps others : List (Label × EditFrame)}

/-- Notes jumps one after another. -/
def record (jumps : List (Label × EditFrame)) : Building Unit := jumps.forM fun jump => jumpTo jump.1 jump.2

/-- What has been and is being on its way to a label. -/
def arriving (B : Builder) (jumps : List (Label × EditFrame)) (label : Label) : List EditFrame :=
  (B.labelFrames.find? label).toList ++ (jumps.filter (·.1 = label)).map (·.2)

/-- Every jump back may flow into the frame of its target, and the frames on their way to any other target merge. -/
def Accepts (B : Builder) (jumps : List (Label × EditFrame)) : Prop :=
  ∀ jump ∈ jumps,
    (B.isPlaced jump.1 = true →
      ∃ expected, B.labelFrames.find? jump.1 = some expected ∧ jump.2.isAssignableTo expected = true) ∧
    (B.isPlaced jump.1 = false → ∃ merged, mergeAll (B.arriving jumps jump.1) = some merged)

/-- The builder without its tables of labels. -/
def bare (B : Builder) : Builder := { B with labelFrames := [], needsFrame := [] }

/-- The builder behind jumps. -/
structure Registered (B : Builder) (jumps : List (Label × EditFrame)) (C : Builder) : Prop where
  placed : ∀ label, B.isPlaced label = true → C.labelFrames.find? label = B.labelFrames.find? label
  ahead : ∀ label, B.isPlaced label = false → C.labelFrames.find? label = mergeAll (B.arriving jumps label)
  needs : ∀ label, label ∈ C.needsFrame ↔ label ∈ jumps.map (·.1) ∨ label ∈ B.needsFrame
  rest : C.bare = B.bare

/-- The builders differ at most in how their tables of labels are put down. -/
structure Alike (B C : Builder) : Prop where
  frames : ∀ label, B.labelFrames.find? label = C.labelFrames.find? label
  needs : ∀ label, label ∈ B.needsFrame ↔ label ∈ C.needsFrame
  rest : B.bare = C.bare

/-- A label that is placed now gets the same frame. -/
theorem Alike.arrival?_eq (h : Alike B C) (label : Label) : B.arrival? label = C.arrival? label := by
  have hframe : B.bare.frame = C.bare.frame := by rw [h.rest]
  change B.frame = C.frame at hframe
  unfold arrival?
  rw [hframe, h.frames]

theorem jumpTo_eq_ok {u : Unit} : jumpTo target frame B = .ok u C ↔ Jump B frame target C := by
  refine ⟨jump_of_jumpTo, fun h => ?_⟩
  have hplaced : (B.require target).isPlaced target = B.isPlaced target := by
    unfold isPlaced; rw [require_nodes]
  unfold jumpTo
  rw [modify_bind_eq_ok, get_bind_eq_ok, require_labelFrames, hplaced]
  cases h with
  | first unframed ahead =>
    rw [unframed, ahead]
    rfl
  | again framed ahead merges =>
    simp only [framed, ahead, merges]
    rfl
  | back framed placed flows =>
    simp only [framed, placed, flows, if_true]
    rfl

theorem record_cons {u : Unit} : record ((target, frame) :: jumps) B = .ok u C ↔
    ∃ D, Jump B frame target D ∧ record jumps D = .ok u C := by
  have hcons : record ((target, frame) :: jumps) = jumpTo target frame >>= fun _ => record jumps :=
    List.forM_cons
  rw [hcons, bind_eq_ok]
  constructor
  · rintro ⟨_, D, hjump, hrest⟩
    exact ⟨D, jump_of_jumpTo hjump, hrest⟩
  · rintro ⟨D, hjump, hrest⟩
    exact ⟨(), D, jumpTo_eq_ok.2 hjump, hrest⟩

namespace Jump

variable (h : Jump B frame target C)
include h

theorem isPlaced_eq (label : Label) : C.isPlaced label = B.isPlaced label := by
  unfold isPlaced
  rw [h.nodes_eq]

theorem bare_eq : C.bare = B.bare := by
  have hrequire : (B.require target).bare = B.bare := by
    unfold require
    split <;> rfl
  cases h <;> exact hrequire

theorem find?_placed (placed : B.isPlaced label = true) :
    C.labelFrames.find? label = B.labelFrames.find? label := by
  cases h with
  | back => rw [require_labelFrames]
  | first _ ahead | again _ ahead =>
    refine find?_setFrame _ _ _ _ |>.trans ?_
    rw [if_neg, require_labelFrames]
    rintro rfl
    rw [ahead] at placed
    cases placed

theorem isSome_find? (hl : (B.labelFrames.find? label).isSome = true ∨ label = target) :
    (C.labelFrames.find? label).isSome = true := by
  by_cases ht : label = target
  · subst ht
    cases h with
    | first => rw [find?_setFrame, if_pos rfl]; rfl
    | again => rw [find?_setFrame, if_pos rfl]; rfl
    | back framed => rw [require_labelFrames, framed]; rfl
  · rw [h.find?_of_ne ht]
    exact hl.resolve_right ht

/-- A jump to a label that is placed is checked against the frame there. -/
theorem expected (placed : B.isPlaced target = true) :
    ∃ expected, B.labelFrames.find? target = some expected ∧ frame.isAssignableTo expected = true := by
  cases h with
  | back framed _ flows => exact ⟨_, framed, flows⟩
  | first _ ahead | again _ ahead =>
    rw [ahead] at placed
    cases placed

/-- A jump merges what it brings into what has arrived before. -/
theorem mergeAll_arriving (jumps : List (Label × EditFrame)) (ahead : B.isPlaced label = false) :
    mergeAll (C.arriving jumps label) = mergeAll (B.arriving ((target, frame) :: jumps) label) := by
  unfold arriving
  by_cases hl : target = label
  · subst hl
    rw [List.filter_cons_of_pos (by simp), List.map_cons]
    cases h with
    | first unframed =>
      rw [find?_setFrame, if_pos rfl, unframed]
      rfl
    | @again expected merged framed _ merges =>
      rw [find?_setFrame, if_pos rfl, framed]
      exact congrArg (List.foldl join · _) merges.symm
    | back _ placed =>
      rw [ahead] at placed
      cases placed
  · rw [List.filter_cons_of_neg (by simpa using hl), h.find?_of_ne (Ne.symm hl)]

end Jump

theorem registered_of_record {u : Unit} (h : record jumps B = .ok u C) : Registered B jumps C := by
  induction jumps generalizing B with
  | nil =>
    obtain ⟨-, rfl⟩ := pure_eq_ok.1 h
    refine ⟨fun _ _ => rfl, fun label _ => ?_, fun _ => by simp, rfl⟩
    unfold arriving
    cases C.labelFrames.find? label <;> rfl
  | cons jump rest ih =>
    obtain ⟨D, hjump, hrest⟩ := record_cons.1 h
    have registered := ih hrest
    constructor
    case placed =>
      intro label placed
      rw [registered.placed label ((hjump.isPlaced_eq label).trans placed), hjump.find?_placed placed]
    case ahead =>
      intro label ahead
      rw [registered.ahead label ((hjump.isPlaced_eq label).trans ahead), hjump.mergeAll_arriving rest ahead]
    case needs =>
      intro label
      rw [registered.needs, hjump.mem_needs, List.map_cons, List.mem_cons, or_assoc, or_left_comm]
    case rest => rw [registered.rest, hjump.bare_eq]

theorem framed_of_record {u : Unit} (h : record jumps B = .ok u C)
    (hl : (B.labelFrames.find? label).isSome = true ∨ label ∈ jumps.map (·.1)) :
    (C.labelFrames.find? label).isSome = true := by
  induction jumps generalizing B with
  | nil =>
    obtain ⟨-, rfl⟩ := pure_eq_ok.1 h
    exact hl.resolve_right List.not_mem_nil
  | cons jump rest ih =>
    obtain ⟨D, hjump, hrest⟩ := record_cons.1 h
    rw [List.map_cons, List.mem_cons, ← or_assoc] at hl
    exact ih hrest (hl.imp_left hjump.isSome_find?)

/-- Jumps that go through are accepted. -/
theorem accepts_of_record {u : Unit} (h : record jumps B = .ok u C) : Accepts B jumps := by
  refine fun jump hm => ⟨fun placed => ?_, fun ahead => ?_⟩
  · induction jumps generalizing B with
    | nil => cases hm
    | cons first rest ih =>
      obtain ⟨D, hfirst, hrest⟩ := record_cons.1 h
      rcases List.mem_cons.1 hm with rfl | hm
      · exact hfirst.expected placed
      · rw [← hfirst.find?_placed placed]
        exact ih hrest hm ((hfirst.isPlaced_eq _).trans placed)
  · rw [← (registered_of_record h).ahead _ ahead]
    exact Option.isSome_iff_exists.1 (framed_of_record h (.inr (List.mem_map_of_mem hm)))

theorem exists_jump (accepts : Accepts B ((target, frame) :: jumps)) : ∃ D, Jump B frame target D := by
  obtain ⟨back, forth⟩ := accepts _ List.mem_cons_self
  cases hplaced : B.isPlaced target with
  | true =>
    obtain ⟨expected, framed, flows⟩ := back hplaced
    exact ⟨_, .back framed hplaced flows⟩
  | false =>
    obtain ⟨all, hall⟩ := forth hplaced
    cases hframe : B.labelFrames.find? target with
    | none => exact ⟨_, .first hframe hplaced⟩
    | some expected =>
      cases hmerge : expected.merge frame with
      | some merged => exact ⟨_, .again hframe hplaced hmerge⟩
      | none =>
        unfold arriving at hall
        rw [hframe, List.filter_cons_of_pos (by simp), List.map_cons] at hall
        have hnone : List.foldl join (expected.merge frame) _ = some all := hall
        rw [hmerge, foldl_join_none] at hnone
        cases hnone

theorem record_of_accepts (accepts : Accepts B jumps) : ∃ C, record jumps B = .ok () C := by
  induction jumps generalizing B with
  | nil => exact ⟨B, rfl⟩
  | cons first rest ih =>
    obtain ⟨D, hfirst⟩ := exists_jump accepts
    have behind : Accepts D rest := by
      intro jump hm
      obtain ⟨back, forth⟩ := accepts jump (List.mem_cons_of_mem _ hm)
      rw [hfirst.isPlaced_eq]
      refine ⟨fun placed => ?_, fun ahead => ?_⟩
      · rw [hfirst.find?_placed placed]
        exact back placed
      · rw [hfirst.mergeAll_arriving rest ahead]
        exact forth ahead
    obtain ⟨C, hrest⟩ := ih behind
    exact ⟨C, record_cons.2 ⟨D, hfirst, hrest⟩⟩

section Order

variable (reordered : jumps.Perm others) (whole : ∀ jump ∈ jumps, jump.2.Whole)
include reordered whole

theorem mergeAll_arriving_perm (B : Builder) (label : Label) :
    mergeAll (B.arriving jumps label) = mergeAll (B.arriving others label) := by
  have hperm : ((jumps.filter (·.1 = label)).map (·.2)).Perm ((others.filter (·.1 = label)).map (·.2)) :=
    (reordered.filter _).map _
  have hwhole : ∀ frame ∈ (jumps.filter (·.1 = label)).map (·.2), Frame.Whole frame := by
    intro frame hm
    obtain ⟨jump, hjump, rfl⟩ := List.mem_map.1 hm
    exact whole jump (List.mem_of_mem_filter hjump)
  unfold arriving
  cases B.labelFrames.find? label with
  | none => exact mergeAll_perm hperm hwhole
  | some expected => exact foldl_join_perm hperm hwhole (some expected)

theorem Accepts.reorder (accepts : Accepts B jumps) : Accepts B others := by
  intro jump hm
  rw [← mergeAll_arriving_perm reordered whole]
  exact accepts jump (reordered.mem_iff.2 hm)

theorem Registered.alike (hj : Registered B jumps C) (ho : Registered B others D) : Alike C D where
  frames label := by
    cases hplaced : B.isPlaced label with
    | true => rw [hj.placed label hplaced, ho.placed label hplaced]
    | false => rw [hj.ahead label hplaced, ho.ahead label hplaced, mergeAll_arriving_perm reordered whole]
  needs label := by rw [hj.needs, ho.needs, (reordered.map _).mem_iff]
  rest := hj.rest.trans ho.rest.symm

end Order

/-- What a jump brings may flow into the frame of its target behind the jumps. -/
theorem Registered.assignable (registered : Registered B jumps C) (accepts : Accepts B jumps) {jump : Label × EditFrame}
    (hm : jump ∈ jumps) :
    ∃ reached, C.labelFrames.find? jump.1 = some reached ∧ jump.2.isAssignableTo reached = true := by
  obtain ⟨back, forth⟩ := accepts jump hm
  cases hplaced : B.isPlaced jump.1 with
  | true =>
    rw [registered.placed _ hplaced]
    exact back hplaced
  | false =>
    obtain ⟨merged, hmerged⟩ := forth hplaced
    rw [registered.ahead _ hplaced]
    have harrives : jump.2 ∈ B.arriving jumps jump.1 :=
      List.mem_append_right _ (List.mem_map_of_mem (List.mem_filter.2 ⟨hm, by simp⟩))
    exact ⟨merged, hmerged, (flows_mergeAll hmerged harrives).assignable⟩

end Builder

open EditFrame Builder

/-- Merging is a join, in whatever order frames come: it keeps a frame that meets itself, and both frames may flow
into what they merge to and into whatever that merges to later. Jumps that are noted in another order lead to the
same frames of their targets, into which they all may flow, or fail in that order as well. -/
theorem EditFrame.merges_in_any_order :
    (∀ a : EditFrame, a.Whole → a.Usable → a.merge a = some a) ∧
    (∀ a b : EditFrame, a.merge b = b.merge a) ∧
    (∀ a b c : EditFrame, a.Whole → c.Whole → (a.merge b).bind (·.merge c) = (b.merge c).bind a.merge) ∧
    (∀ (a b merged reached : EditFrame) (later : List EditFrame), a.merge b = some merged →
      later.foldl join (some merged) = some reached →
        a.isAssignableTo reached = true ∧ b.isAssignableTo reached = true) ∧
    ∀ (B : Builder) (jumps others : List (Label × EditFrame)), jumps.Perm others → (∀ jump ∈ jumps, jump.2.Whole) →
      ((∃ C, record jumps B = .ok () C) ↔ ∃ D, record others B = .ok () D) ∧
      ∀ C, record jumps B = .ok () C →
        (∀ D, record others B = .ok () D → Alike C D ∧ ∀ label, C.arrival? label = D.arrival? label) ∧
        ∀ jump ∈ jumps, ∃ reached, C.labelFrames.find? jump.1 = some reached ∧
          jump.2.isAssignableTo reached = true := by
  refine ⟨fun _ => merge_self, merge_comm, fun _ b _ => merge_assoc b, ?upper, ?order⟩
  case upper =>
    intro a b merged reached later hmerge hlater
    have flows := flows_foldl_join hlater
    exact ⟨((flows_merge_left hmerge).weakens_trans flows).assignable,
      ((flows_merge_right hmerge).weakens_trans flows).assignable⟩
  case order =>
    intro B jumps others perm whole
    have whole' : ∀ jump ∈ others, jump.2.Whole := fun jump hm => whole jump (perm.mem_iff.2 hm)
    refine ⟨⟨fun ⟨C, hC⟩ => ?_, fun ⟨D, hD⟩ => ?_⟩, fun C hC => ⟨fun D hD => ?_, fun jump hm => ?_⟩⟩
    · exact record_of_accepts (Accepts.reorder perm whole (accepts_of_record hC))
    · exact record_of_accepts (Accepts.reorder perm.symm whole' (accepts_of_record hD))
    · have alike : Alike C D := (registered_of_record hC).alike perm whole (registered_of_record hD)
      exact ⟨alike, alike.arrival?_eq⟩
    · exact (registered_of_record hC).assignable (accepts_of_record hC) hm

/-- A null that becomes an object, a wide local, and locals of different lengths. -/
theorem EditFrame.merges_in_any_order_mixed :
    let a : EditFrame := ⟨[.long, .top, .object "A"], [.null]⟩
    let b : EditFrame := ⟨[.long, .top, .null, .float], [.object "B"]⟩
    let c : EditFrame := ⟨[.long, .top], [.object "B"]⟩
    let all : EditFrame := ⟨[.long, .top, .top, .top], [.object "B"]⟩
    let B := { Builder.start .empty ⟨1⟩ ⟨"A", true, false, ⟨[], none⟩⟩ ⟨[], []⟩ with frame := none }
    a.merge a = some a ∧ (b.merge c).bind a.merge = some all ∧ a.isAssignableTo all = true ∧
      ∃ C, record [(⟨0⟩, c), (⟨0⟩, a), (⟨0⟩, b)] B = .ok () C ∧ C.arrival? ⟨0⟩ = some all := by
  intro a b c all B
  obtain ⟨self, -, assoc, upper, order⟩ := merges_in_any_order
  have wholeA : a.Whole := dropHalves_eq_self_iff.1 (by decide)
  have wholeB : b.Whole := dropHalves_eq_self_iff.1 (by decide)
  have wholeC : c.Whole := dropHalves_eq_self_iff.1 (by decide)
  have whole : ∀ jump ∈ [(⟨0⟩, a), (⟨0⟩, b), (⟨0⟩, c)], Frame.Whole (jump : Label × EditFrame).2 := by
    simp only [List.mem_cons, List.not_mem_nil, or_false]
    rintro jump (rfl | rfl | rfl)
    exacts [wholeA, wholeB, wholeC]
  have perm : [((⟨0⟩, a) : Label × EditFrame), (⟨0⟩, b), (⟨0⟩, c)].Perm [(⟨0⟩, c), (⟨0⟩, a), (⟨0⟩, b)] := by decide
  obtain ⟨C, hC, hall⟩ : ∃ C, record [(⟨0⟩, a), (⟨0⟩, b), (⟨0⟩, c)] B = .ok () C ∧ C.arrival? ⟨0⟩ = some all :=
    ⟨_, rfl, rfl⟩
  obtain ⟨hsame, halike⟩ := order B _ _ perm whole
  obtain ⟨D, hD⟩ := hsame.1 ⟨C, hC⟩
  have usable : a.Usable := show .top ∉ a.stack by decide
  refine ⟨self a wholeA usable, ?_, ?_, D, hD, ?_⟩
  · exact (assoc a b c wholeA wholeC).symm.trans rfl
  · exact (upper a b ⟨[.long, .top, .object "A", .top], [.object "B"]⟩ all [c] rfl rfl).1
  · rw [← ((halike C hC).1 D hD).2]
    exact hall

end ClassWeave
