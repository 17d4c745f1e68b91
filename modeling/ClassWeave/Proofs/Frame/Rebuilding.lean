import ClassWeave.Proofs.Frame.Reading

/-!
Frames rebuilt from differences. What relates the types of two frames one by one relates their short
forms, so a difference that was made between stored frames makes the frame that the second one stands
for out of the frame that the first one stands for.
-/

namespace ClassWeave

namespace VerificationType

variable {C C' C'' P P' P'' : Type} {onClass : C → C' → Prop} {onPosition : P → P' → Prop}

/-- The same type but for the class or the allocation that it names. -/
inductive Related (onClass : C → C' → Prop) (onPosition : P → P' → Prop) :
    VerificationType C P → VerificationType C' P' → Prop where
  | top : Related onClass onPosition .top .top
  | integer : Related onClass onPosition .integer .integer
  | float : Related onClass onPosition .float .float
  | double : Related onClass onPosition .double .double
  | long : Related onClass onPosition .long .long
  | null : Related onClass onPosition .null .null
  | uninitializedThis : Related onClass onPosition .uninitializedThis .uninitializedThis
  | object {name : C} {other : C'} :
    onClass name other → Related onClass onPosition (.object name) (.object other)
  | uninitialized {allocation : P} {other : P'} : onPosition allocation other →
    Related onClass onPosition (.uninitialized allocation) (.uninitialized other)

namespace Related

variable {type : VerificationType C P} {other : VerificationType C' P'}

theorem erase_eq (h : Related onClass onPosition type other) : other.erase = type.erase := by
  cases h <;> rfl

theorem imp {onClass' : C → C' → Prop} {onPosition' : P → P' → Prop}
    (h : Related onClass onPosition type other) (hc : ∀ name found, onClass name found → onClass' name found)
    (hp : ∀ allocation found, onPosition allocation found → onPosition' allocation found) :
    Related onClass' onPosition' type other := by
  cases h with
  | object h => exact .object (hc _ _ h)
  | uninitialized h => exact .uninitialized (hp _ _ h)
  | _ => constructor

theorem comp {onClass' : C' → C'' → Prop} {onPosition' : P' → P'' → Prop} {onClass'' : C → C'' → Prop}
    {onPosition'' : P → P'' → Prop} {last : VerificationType C'' P''}
    (h : Related onClass onPosition type other) (h' : Related onClass' onPosition' other last)
    (hc : ∀ a b c, onClass a b → onClass' b c → onClass'' a c)
    (hp : ∀ a b c, onPosition a b → onPosition' b c → onPosition'' a c) :
    Related onClass'' onPosition'' type last := by
  cases h with
  | object h =>
    cases h' with
    | object h' => exact .object (hc _ _ _ h h')
  | uninitialized h =>
    cases h' with
    | uninitialized h' => exact .uninitialized (hp _ _ _ h h')
  | _ =>
    cases h'
    constructor

end Related

theorem mapM_eq_ok_iff {ε : Type} {f : C → Except ε C'} {g : P → Except ε P'}
    {type : VerificationType C P} {other : VerificationType C' P'} :
    type.mapM f g = .ok other ↔ Related (fun name found => f name = .ok found)
      (fun allocation found => g allocation = .ok found) type other := by
  constructor
  · intro h
    cases type with
    | object name =>
      obtain ⟨found, hfound, h⟩ := except_bind_eq_ok.1 h
      cases h
      exact .object hfound
    | uninitialized allocation =>
      obtain ⟨found, hfound, h⟩ := except_bind_eq_ok.1 h
      cases h
      exact .uninitialized hfound
    | _ =>
      cases h
      constructor
  · intro h
    cases h with
    | object h => exact except_bind_eq_ok.2 ⟨_, h, rfl⟩
    | uninitialized h => exact except_bind_eq_ok.2 ⟨_, h, rfl⟩
    | _ => rfl

end VerificationType

namespace Frame

open VerificationType (erase isWide_erase erase_eq_top)

section Pointwise

variable {C P C' P' : Type} {R : VerificationType C P → VerificationType C' P' → Prop}
  {types : List (VerificationType C P)} {others : List (VerificationType C' P')}

theorem isWide_of_erase {type : VerificationType C P} {other : VerificationType C' P'}
    (h : other.erase = type.erase) : other.isWide = type.isWide := by
  rw [← isWide_erase, h, isWide_erase]

theorem forall₂_valuesOf (kind : ∀ a b, R a b → b.erase = a.erase) (h : List.Forall₂ R types others) :
    List.Forall₂ R (valuesOf types) (valuesOf others) := by
  fun_induction valuesOf types generalizing others with
  | case1 =>
    cases h
    exact .nil
  | case2 type =>
    cases h with
    | cons first rest =>
      cases rest
      exact .cons first .nil
  | case3 type second rest hwide ih =>
    cases h with
    | cons first tail =>
      cases tail with
      | cons _ tail =>
        rw [valuesOf, if_pos ((isWide_of_erase (kind _ _ first)).trans hwide)]
        exact .cons first (ih tail)
  | case4 type second rest hwide ih =>
    cases h with
    | cons first tail =>
      have hrest := ih tail
      cases tail with
      | cons _ tail =>
        rw [valuesOf, if_neg (by rwa [isWide_of_erase (kind _ _ first)])]
        exact .cons first hrest

theorem forall₂_slotsOf (kind : ∀ a b, R a b → b.erase = a.erase) (top : R .top .top)
    (h : List.Forall₂ R types others) : List.Forall₂ R (slotsOf types) (slotsOf others) := by
  unfold slotsOf
  induction h with
  | nil => exact .nil
  | cons first _ ih =>
    rw [List.flatMap_cons, List.flatMap_cons, isWide_of_erase (kind _ _ first)]
    split
    · exact .cons first (.cons top ih)
    · exact .cons first ih

variable [DecidableEq C] [DecidableEq P] [DecidableEq C'] [DecidableEq P']

theorem forall₂_dropTops (kind : ∀ a b, R a b → b.erase = a.erase) (h : List.Forall₂ R types others) :
    List.Forall₂ R (dropTops types) (dropTops others) := by
  have dropped : ∀ {xs : List (VerificationType C P)} {ys : List (VerificationType C' P')},
      List.Forall₂ R xs ys →
      List.Forall₂ R (xs.dropWhile (· = .top)) (ys.dropWhile (· = .top)) := by
    intro xs ys h
    induction h with
    | nil => exact .nil
    | @cons a b rest rest' first hrest ih =>
      have htop : b = .top ↔ a = .top := by
        rw [← erase_eq_top, kind _ _ first, erase_eq_top]
      rw [List.dropWhile_cons, List.dropWhile_cons]
      by_cases ha : a = .top
      · rw [if_pos (by simpa using ha), if_pos (by simpa using htop.2 ha)]
        exact ih
      · rw [if_neg (by simpa using ha), if_neg (by simpa using fun hb => ha (htop.1 hb))]
        exact .cons first hrest
  unfold dropTops
  rw [List.forall₂_reverse_iff]
  exact dropped (List.forall₂_reverse_iff.2 h)

theorem forall₂_compactLocals (kind : ∀ a b, R a b → b.erase = a.erase) {frame : Frame C P}
    {other : Frame C' P'} (h : List.Forall₂ R frame.locals other.locals) :
    List.Forall₂ R frame.compactLocals other.compactLocals :=
  forall₂_dropTops kind (forall₂_valuesOf kind h)

/-- Locals listed for those of a frame are in short form already. -/
theorem forall₂_ofCompact (kind : ∀ a b, R a b → b.erase = a.erase) {frame : Frame C P}
    (h : List.Forall₂ R frame.compactLocals others) (stack : List (VerificationType C' P')) :
    List.Forall₂ R frame.compactLocals (ofCompact others stack).compactLocals := by
  rw [compactLocals_ofCompact]
  have hdropped := forall₂_dropTops kind h
  have hcompact : dropTops frame.compactLocals = frame.compactLocals := by
    unfold compactLocals
    rw [dropTops_dropTops]
  rwa [hcompact] at hdropped

end Pointwise

section Difference

variable {C P : Type} [DecidableEq C] [DecidableEq P]
  {convert : StoredType → Except FrameFault (VerificationType C P)}

/-- The frame stands for a stored one: its locals are those listed for the stored ones. -/
def StandsFor (convert : StoredType → Except FrameFault (VerificationType C P)) (stored : StoredFrame)
    (frame : Frame C P) : Prop :=
  ∃ locals stack, frame = ofCompact locals stack ∧
    List.Forall₂ (fun type out => convert type = .ok out) stored.compactLocals locals ∧
    List.Forall₂ (fun type out => convert type = .ok out) stored.stack stack

theorem StandsFor.compactLocals (kind : ∀ type out, convert type = .ok out → out.erase = type.erase)
    {stored : StoredFrame} {frame : Frame C P} (h : StandsFor convert stored frame) :
    List.Forall₂ (fun type out => convert type = .ok out) stored.compactLocals frame.compactLocals := by
  obtain ⟨locals, stack, rfl, hlocals, -⟩ := h
  exact forall₂_ofCompact kind hlocals stack

/-- A difference between stored frames makes the frame that stands for the second out of one with the
locals of the first. -/
theorem standsFor_of_applyStackMap {before stored : StoredFrame} {previous next : Frame C P}
    {delta : UInt16} (hprevious : List.Forall₂ (fun type out => convert type = .ok out)
      before.compactLocals previous.compactLocals)
    (h : previous.applyStackMap (stored.stackMapFrame delta before) convert = .ok next) :
    StandsFor convert stored next := by
  have hfull : previous.applyStackMap (.full delta stored.compactLocals stored.stack.reverse) convert =
      .ok next → StandsFor convert stored next := by
    intro h
    obtain ⟨locals, hlocals, h⟩ := except_bind_eq_ok.1 h
    obtain ⟨stack, hstack, h⟩ := except_bind_eq_ok.1 h
    cases h
    refine ⟨locals, stack.reverse, rfl, mapM_eq_ok.1 hlocals, ?_⟩
    have hreversed := List.forall₂_reverse_iff.2 (mapM_eq_ok.1 hstack)
    rwa [List.reverse_reverse] at hreversed
  revert h
  unfold StoredFrame.stackMapFrame
  extract_lets listed listedBefore full fewer
  have hlength : listedBefore.length = previous.compactLocals.length := hprevious.length_eq
  have hfewer : fewer = listedBefore.length - listed.length := rfl
  split
  · next hnone =>
    have empty : List.Forall₂ (fun type out => convert type = .ok out) stored.stack [] := by
      rw [hnone]
      exact .nil
    split
    · split
      · next hle hprefix =>
        have htake : listedBefore.take listed.length = listed :=
          (List.prefix_iff_eq_take.1 (List.isPrefixOf_iff_prefix.1 hprefix.2)).symm
        have hkept : List.Forall₂ (fun type out => convert type = .ok out) listed
            (previous.compactLocals.take listed.length) := by
          have htaken := List.forall₂_take listed.length hprevious
          rwa [show before.compactLocals.take listed.length = listed from htake] at htaken
        split
        · next hsame =>
          intro h
          cases h
          rw [List.take_of_length_le (by omega)] at hkept
          exact ⟨_, _, rfl, hkept, empty⟩
        · intro h
          have hcount : (UInt8.ofNat fewer).toNat = fewer := by
            rw [UInt8.toNat_ofNat']
            exact Nat.mod_eq_of_lt (by omega)
          have hleft : previous.compactLocals.length - fewer = listed.length := by omega
          unfold applyStackMap at h
          dsimp only at h
          rw [hcount, if_neg (by omega), hleft] at h
          cases h
          exact ⟨_, _, rfl, hkept, empty⟩
      · exact hfull
    · split
      · next hprefix =>
        intro h
        obtain ⟨added, hadded, h⟩ := except_bind_eq_ok.1 h
        cases h
        have hall : List.Forall₂ (fun type out => convert type = .ok out)
            (before.compactLocals ++ listed.drop listedBefore.length)
            (previous.compactLocals ++ added) := List.rel_append hprevious (mapM_eq_ok.1 hadded)
        have hlisted : before.compactLocals ++ listed.drop listedBefore.length = listed := by
          obtain ⟨more, hmore⟩ := List.isPrefixOf_iff_prefix.1 hprefix.2
          rw [← hmore, List.drop_left]
        rw [hlisted] at hall
        exact ⟨_, _, rfl, hall, empty⟩
      · exact hfull
  · next type hone =>
    split
    · next hsame =>
      intro h
      obtain ⟨out, hout, h⟩ := except_bind_eq_ok.1 h
      cases h
      refine ⟨_, _, rfl, ?_, ?_⟩
      · rw [show stored.compactLocals = before.compactLocals from hsame]
        exact hprevious
      · rw [hone]
        exact .cons hout .nil
    · exact hfull
  · exact hfull

end Difference

end Frame

end ClassWeave
