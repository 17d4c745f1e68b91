import ClassWeave.Proofs.Code.Decoding
import ClassWeave.Proofs.Code.Reading
import ClassWeave.Proofs.Code.Writing

/-!
Code up to the names of its labels. A label stands for the number of instructions in front of it; two
lists of nodes with the same instructions and targets are laid out in the same way, round by round, and
have the same bytes.
-/

namespace ClassWeave

namespace Branch

variable {T U V : Type}

/-- The same branch but for its targets, which are related one by one. -/
inductive Related (R : T → U → Prop) : Branch T → Branch U → Prop where
  | ifZero {comparison : Comparison} {t : T} {u : U} :
    R t u → Related R (.ifZero comparison t) (.ifZero comparison u)
  | ifInts {comparison : Comparison} {t : T} {u : U} :
    R t u → Related R (.ifInts comparison t) (.ifInts comparison u)
  | ifRefs {equality : Equality} {t : T} {u : U} :
    R t u → Related R (.ifRefs equality t) (.ifRefs equality u)
  | ifNull {equality : Equality} {t : T} {u : U} :
    R t u → Related R (.ifNull equality t) (.ifNull equality u)
  | goto {t : T} {u : U} : R t u → Related R (.goto t) (.goto u)
  | tableSwitch {default : T} {default' : U} {low : Int32} {targets : List T} {targets' : List U} :
    R default default' → List.Forall₂ R targets targets' →
      Related R (.tableSwitch default low targets) (.tableSwitch default' low targets')
  | lookupSwitch {default : T} {default' : U} {targets : List (Int32 × T)}
      {targets' : List (Int32 × U)} :
    R default default' → List.Forall₂ (fun t u => t.1 = u.1 ∧ R t.2 u.2) targets targets' →
      Related R (.lookupSwitch default targets) (.lookupSwitch default' targets')
  | return (kind : Option SlotKind) : Related R (.return kind) (.return kind)
  | raise : Related R .raise .raise

/-- Translating the targets keeps the branch but for them. -/
theorem related_of_mapM {f : T → Except ClassError U} {branch : Branch T} {out : Branch U}
    (h : branch.mapM f = .ok out) : Related (fun target found => f target = .ok found) branch out := by
  cases branch with
  | tableSwitch default low targets =>
    obtain ⟨first, hfirst, h⟩ := except_bind_eq_ok.1 h
    obtain ⟨rest, hrest, h⟩ := except_bind_eq_ok.1 h
    cases h
    exact .tableSwitch hfirst (ClassWeave.mapM_eq_ok.1 hrest)
  | lookupSwitch default targets =>
    obtain ⟨first, hfirst, h⟩ := except_bind_eq_ok.1 h
    obtain ⟨rest, hrest, h⟩ := except_bind_eq_ok.1 h
    cases h
    refine .lookupSwitch hfirst ((ClassWeave.mapM_eq_ok.1 hrest).imp fun pair found hp => ?_)
    obtain ⟨target, ht, hp⟩ := except_bind_eq_ok.1 hp
    cases hp
    exact ⟨rfl, ht⟩
  | «return» kind =>
    cases h
    exact .return kind
  | raise =>
    cases h
    exact .raise
  | _ =>
    obtain ⟨target, ht, h⟩ := except_bind_eq_ok.1 h
    cases h
    constructor
    exact ht

namespace Related

variable {R : T → U → Prop} {branch : Branch T} {other : Branch U}

theorem imp {S : T → U → Prop} (h : Related R branch other) (hs : ∀ t u, R t u → S t u) :
    Related S branch other := by
  cases h with
  | tableSwitch hd ht => exact .tableSwitch (hs _ _ hd) (ht.imp hs)
  | lookupSwitch hd ht =>
    exact .lookupSwitch (hs _ _ hd) (ht.imp fun _ _ hp => ⟨hp.1, hs _ _ hp.2⟩)
  | «return» kind => exact .return kind
  | raise => exact .raise
  | _ ht =>
    constructor
    exact hs _ _ ht

theorem comp {S : U → V → Prop} {Q : T → V → Prop} {last : Branch V} (h : Related R branch other)
    (h' : Related S other last) (hq : ∀ t u v, R t u → S u v → Q t v) : Related Q branch last := by
  cases h with
  | tableSwitch hd ht =>
    cases h' with
    | tableSwitch hd' ht' => exact .tableSwitch (hq _ _ _ hd hd') (forall₂_comp ht ht' hq)
  | lookupSwitch hd ht =>
    cases h' with
    | lookupSwitch hd' ht' =>
      exact .lookupSwitch (hq _ _ _ hd hd') (forall₂_comp ht ht' fun _ _ _ hp hp' =>
        ⟨hp.1.trans hp'.1, hq _ _ _ hp.2 hp'.2⟩)
  | «return» kind =>
    cases h'
    exact .return kind
  | raise =>
    cases h'
    exact .raise
  | _ ht =>
    cases h'
    constructor
    apply hq _ _ _ ht
    assumption

theorem width (h : Related R branch other) (offset : Nat) (wide : Bool) :
    other.width offset wide = branch.width offset wide := by
  cases h with
  | tableSwitch _ ht => simp only [Branch.width, ht.length_eq]
  | lookupSwitch _ ht => simp only [Branch.width, ht.length_eq]
  | _ => rfl

theorem fallsThrough (h : Related R branch other) : other.fallsThrough = branch.fallsThrough := by
  cases h <;> rfl

theorem jumpTargets (h : Related R branch other) :
    List.Forall₂ R branch.jumpTargets other.jumpTargets := by
  cases h with
  | tableSwitch hd ht => exact .cons hd ht
  | lookupSwitch hd ht =>
    refine .cons hd ?_
    rw [List.forall₂_map_left_iff, List.forall₂_map_right_iff]
    exact ht.imp fun _ _ hp => hp.2
  | «return» kind => exact .nil
  | raise => exact .nil
  | _ ht => exact .cons ht .nil

end Related

/-- The bytes tell nothing of the labels but their offsets. -/
theorem Related.bytes {labels labels' : LabelTable} {branch other : Branch Label}
    (h : Related (fun l m => ∀ target, labels.offset l = .ok target → labels'.offset m = .ok target)
      branch other) {offset : Nat} {wide : Bool} {content : Bytes}
    (hb : branch.bytes labels offset wide = .ok content) :
    other.bytes labels' offset wide = .ok content := by
  have long : ∀ {l m : Label} {content : Bytes},
      (∀ target, labels.offset l = .ok target → labels'.offset m = .ok target) →
      labels.longJump offset l = .ok content → labels'.longJump offset m = .ok content := by
    intro l m content hlm hl
    obtain ⟨target, ht, rfl⟩ := LabelTable.longJump_eq_ok hl
    have hdistance : labels'.distance offset m = .ok ((target : Int) - offset) :=
      except_bind_eq_ok.2 ⟨target, hlm target ht, rfl⟩
    exact except_bind_eq_ok.2 ⟨_, hdistance, rfl⟩
  have short : ∀ {l m : Label} {opcode : UInt8} {content : Bytes},
      (∀ target, labels.offset l = .ok target → labels'.offset m = .ok target) →
      labels.shortJump offset opcode l = .ok content →
      labels'.shortJump offset opcode m = .ok content := by
    intro l m opcode content hlm hl
    obtain ⟨target, ht, hshort, rfl⟩ := LabelTable.shortJump_eq_ok hl
    have hdistance : labels'.distance offset m = .ok ((target : Int) - offset) :=
      except_bind_eq_ok.2 ⟨target, hlm target ht, rfl⟩
    refine except_bind_eq_ok.2 ⟨_, hdistance, ?_⟩
    rw [if_pos hshort]
    rfl
  cases h with
  | ifZero ht => exact short ht hb
  | ifInts ht => exact short ht hb
  | ifRefs ht => exact short ht hb
  | ifNull ht => exact short ht hb
  | goto ht =>
    cases wide with
    | true =>
      obtain ⟨jump, hjump, hb⟩ := except_bind_eq_ok.1 hb
      exact except_bind_eq_ok.2 ⟨jump, long ht hjump, hb⟩
    | false => exact short ht hb
  | tableSwitch hd ht =>
    obtain ⟨first, hfirst, hb⟩ := except_bind_eq_ok.1 hb
    obtain ⟨jumps, hjumps, hb⟩ := except_bind_eq_ok.1 hb
    have hall := forall₂_comp ht.flip (ClassWeave.mapM_eq_ok.1 hjumps) fun _ _ _ => long
    rw [ht.length_eq] at hb
    exact except_bind_eq_ok.2 ⟨first, long hd hfirst,
      except_bind_eq_ok.2 ⟨jumps, ClassWeave.mapM_eq_ok.2 hall, hb⟩⟩
  | lookupSwitch hd ht =>
    obtain ⟨first, hfirst, hb⟩ := except_bind_eq_ok.1 hb
    obtain ⟨pairs, hpairs, hb⟩ := except_bind_eq_ok.1 hb
    have hall := forall₂_comp ht.flip (ClassWeave.mapM_eq_ok.1 hpairs) fun _ _ _ hone hpair => by
      obtain ⟨jump, hjump, hpair⟩ := except_bind_eq_ok.1 hpair
      rw [hone.1] at hpair
      exact except_bind_eq_ok.2 ⟨jump, long hone.2 hjump, hpair⟩
    rw [ht.length_eq] at hb
    exact except_bind_eq_ok.2 ⟨first, long hd hfirst,
      except_bind_eq_ok.2 ⟨pairs, ClassWeave.mapM_eq_ok.2 hall, hb⟩⟩
  | «return» kind =>
    cases kind with
    | none => exact hb
    | some kind => exact hb
  | raise => exact hb

end Branch

namespace Node

/-- The same instruction but for its targets. -/
inductive Related (R : Label → Label → Prop) : Node → Node → Prop where
  | insn (insn : Insn) : Related R (.insn insn) (.insn insn)
  | branch {branch other : Branch Label} :
    branch.Related R other → Related R (.branch branch) (.branch other)

/-- The nodes that are no labels. -/
def instructions (nodes : List Node) : List Node := nodes.filter (!·.isLabel)

/-- The number of instructions in front of a label, if it is among the nodes. -/
def indexOf? (nodes : List Node) (label : Label) : Option Nat :=
  if .label label ∈ nodes then some (instructions (nodes.takeWhile (· ≠ .label label))).length
  else none

/-- The first label is to the first list what the second is to the second. -/
def Aligned (nodes others : List Node) (label other : Label) : Prop :=
  ∃ i, indexOf? nodes label = some i ∧ indexOf? others other = some i

/-- The same instructions with the same targets. -/
def Alike (nodes others : List Node) : Prop :=
  List.Forall₂ (Related (Aligned nodes others)) (instructions nodes) (instructions others)

theorem instructions_append (nodes others : List Node) :
    instructions (nodes ++ others) = instructions nodes ++ instructions others :=
  List.filter_append ..

theorem indexOf?_eq_some {nodes : List Node} {label : Label} {i : Nat} :
    indexOf? nodes label = some i ↔ ∃ before after, nodes = before ++ .label label :: after ∧
      .label label ∉ before ∧ (instructions before).length = i := by
  have before : ∀ {before after : List Node}, .label label ∉ before →
      (before ++ .label label :: after).takeWhile (· ≠ .label label) = before := by
    intro before after hnew
    have hall : ∀ node ∈ before, decide (node ≠ .label label) = true := by
      intro node hm
      rw [decide_eq_true_eq]
      exact fun he => hnew (he ▸ hm)
    rw [List.takeWhile_append_of_pos hall, List.takeWhile_cons_of_neg (by simp), List.append_nil]
  unfold indexOf?
  constructor
  · intro h
    split at h
    · next hm =>
      obtain ⟨front, after, rfl, hnew⟩ := List.eq_append_cons_of_mem hm
      rw [before hnew] at h
      exact ⟨front, after, rfl, hnew, Option.some.inj h⟩
    · cases h
  · rintro ⟨front, after, rfl, hnew, rfl⟩
    rw [if_pos (List.mem_append_right _ List.mem_cons_self), before hnew]

theorem Related.isLabel {R : Label → Label → Prop} {node other : Node} (h : Related R node other) :
    node.isLabel = false ∧ other.isLabel = false := by
  cases h <;> exact ⟨rfl, rfl⟩

theorem Related.fallsThrough {R : Label → Label → Prop} {node other : Node} (h : Related R node other) :
    other.fallsThrough = node.fallsThrough := by
  cases h with
  | insn insn => rfl
  | branch h => exact h.fallsThrough

theorem Related.jumpTargets {R : Label → Label → Prop} {node other : Node} (h : Related R node other) :
    List.Forall₂ R node.jumpTargets other.jumpTargets := by
  cases h with
  | insn insn => exact .nil
  | branch h => exact h.jumpTargets

end Node

/-- Related nodes at the same offset, in the same form. -/
structure Placed.Related (R : Label → Label → Prop) (placed other : Placed) : Prop where
  node : placed.node.Related R other.node
  wide : other.wide = placed.wide
  offset : other.offset = placed.offset

namespace Layout

/-- The nodes that are no labels. -/
def plain (flagged : List (Node × Bool)) : List (Node × Bool) := flagged.filter (!·.1.isLabel)

theorem map_fst_plain (flagged : List (Node × Bool)) :
    (plain flagged).map Prod.fst = Node.instructions (flagged.map Prod.fst) := by
  unfold plain Node.instructions
  rw [List.filter_map]
  rfl

theorem spread_plain (offset : Nat) (flagged : List (Node × Bool)) :
    spread offset (plain flagged) = (spread offset flagged).filter (!·.node.isLabel) := by
  unfold plain
  induction flagged generalizing offset with
  | nil => rfl
  | cons first rest ih =>
    obtain ⟨node, wide⟩ := first
    rw [List.filter_cons, spread, List.filter_cons]
    cases node with
    | label l => exact ih _
    | insn i => exact congrArg (List.cons _) (ih _)
    | branch b => exact congrArg (List.cons _) (ih _)

theorem reach_plain (offset : Nat) (flagged : List (Node × Bool)) :
    reach offset (plain flagged) = reach offset flagged := by
  unfold plain
  induction flagged generalizing offset with
  | nil => rfl
  | cons first rest ih =>
    obtain ⟨node, wide⟩ := first
    rw [List.filter_cons]
    cases node with
    | label l => exact ih _
    | insn i => exact ih _
    | branch b => exact ih _

/-- The layout of nodes of which it is said which gotos are wide. -/
def ofFlagged (flagged : List (Node × Bool)) : Layout :=
  ⟨spread 0 flagged, bindAll .empty (spread 0 flagged), reach 0 flagged⟩

/-- The offset of a label is what the instructions in front of it take. -/
theorem offset_ofFlagged {flagged : List (Node × Bool)} {label : Label} {i : Nat}
    (hnodup : ((flagged.map Prod.fst).filterMap Node.label?).Nodup)
    (h : Node.indexOf? (flagged.map Prod.fst) label = some i) :
    (ofFlagged flagged).labels.offset label = .ok (reach 0 ((plain flagged).take i)) := by
  obtain ⟨before, after, hsplit, -, rfl⟩ := Node.indexOf?_eq_some.1 h
  obtain ⟨front, rest, rfl, rfl, hrest⟩ := List.map_eq_append_iff.1 hsplit
  obtain ⟨⟨node, wide⟩, back, rfl, hnode, rfl⟩ := List.map_eq_cons_iff.1 hrest
  cases hnode
  rw [hsplit, List.filterMap_append, List.filterMap_cons] at hnodup
  have hnew : .label label ∉ back.map Prod.fst := fun hm =>
    (List.nodup_cons.1 (List.nodup_append.1 hnodup).2.1).1 (List.mem_filterMap.2 ⟨_, hm, rfl⟩)
  have hfront : (plain (front ++ (.label label, wide) :: back)).take
      (Node.instructions (front.map Prod.fst)).length = plain front := by
    rw [← map_fst_plain, List.length_map]
    unfold plain
    rw [List.filter_append, List.take_left]
  rw [hfront, reach_plain]
  exact LabelTable.offset_eq_ok.2 (offset?_bindAll front back wide .empty hnew 0)

/-- Two layouts of the same code under other names. -/
structure Matching (R : Label → Label → Prop) (layout other : Layout) : Prop where
  nodes : List.Forall₂ (Placed.Related R) (layout.nodes.filter (!·.node.isLabel))
    (other.nodes.filter (!·.node.isLabel))
  length : other.length = layout.length
  labels : ∀ label found, R label found →
    ∃ offset, layout.labels.offset label = .ok offset ∧ other.labels.offset found = .ok offset

section Rounds

variable {R : Label → Label → Prop} {flagged others : List (Node × Bool)}

/-- Related instructions, in the same form. -/
def SameForm (R : Label → Label → Prop) (flagged others : List (Node × Bool)) : Prop :=
  List.Forall₂ (fun a b => a.1.Related R b.1 ∧ b.2 = a.2) flagged others

theorem SameForm.spread (h : SameForm R flagged others) (offset : Nat) :
    List.Forall₂ (Placed.Related R) (spread offset flagged) (spread offset others) ∧
      reach offset others = reach offset flagged := by
  induction h generalizing offset with
  | nil => exact ⟨.nil, rfl⟩
  | @cons a b rest rest' first _ ih =>
    obtain ⟨node, wide⟩ := a
    obtain ⟨node', wide'⟩ := b
    obtain ⟨hnode, rfl⟩ := first
    have hwidth : (Placed.mk node' wide' offset).width = (Placed.mk node wide' offset).width := by
      cases hnode with
      | insn insn => rfl
      | branch h => exact h.width offset wide'
    obtain ⟨hspread, hreach⟩ := ih (offset + (Placed.mk node wide' offset).width)
    rw [Layout.spread, Layout.spread, reach, reach, hwidth]
    exact ⟨.cons ⟨hnode, rfl, rfl⟩ hspread, hreach⟩

theorem matching_ofFlagged (h : SameForm R (plain flagged) (plain others))
    (hr : R = Node.Aligned (flagged.map Prod.fst) (others.map Prod.fst))
    (hnodup : ((flagged.map Prod.fst).filterMap Node.label?).Nodup)
    (hnodup' : ((others.map Prod.fst).filterMap Node.label?).Nodup) :
    Matching R (ofFlagged flagged) (ofFlagged others) where
  nodes := by
    have hspread := (h.spread 0).1
    rwa [spread_plain, spread_plain] at hspread
  length := by
    have hreach := (h.spread 0).2
    rwa [reach_plain, reach_plain] at hreach
  labels label found hl := by
    rw [hr] at hl
    obtain ⟨i, hi, hi'⟩ := hl
    have hsame : reach 0 ((plain others).take i) = reach 0 ((plain flagged).take i) :=
      (SameForm.spread (List.forall₂_take i h) 0).2
    have hfound := offset_ofFlagged hnodup' hi'
    rw [hsame] at hfound
    exact ⟨_, offset_ofFlagged hnodup hi, hfound⟩

theorem needsWide_of_related {labels labels' : LabelTable} {placed other : Placed} {wide : Bool}
    (hlabels : ∀ label found, R label found →
      ∃ offset, labels.offset label = .ok offset ∧ labels'.offset found = .ok offset)
    (h : placed.Related R other) (hw : needsWide labels placed = .ok wide) :
    needsWide labels' other = .ok wide := by
  obtain ⟨node, flag, offset⟩ := placed
  obtain ⟨node', flag', offset'⟩ := other
  obtain ⟨hnode, hwide, hoffset⟩ := h
  dsimp only at hnode hwide hoffset
  subst hwide hoffset
  cases hnode with
  | insn insn => exact hw
  | branch hbranch =>
    cases hbranch with
    | goto ht =>
      obtain ⟨target, hl, hm⟩ := hlabels _ _ ht
      obtain ⟨found, hfound, hw⟩ := except_bind_eq_ok.1 hw
      rw [hl] at hfound
      cases hfound
      exact except_bind_eq_ok.2 ⟨target, hm, hw⟩
    | _ => exact hw

theorem forall₂_spread (offset : Nat) (flagged : List (Node × Bool)) :
    List.Forall₂ (fun placed pair => placed.node = pair.1 ∧ placed.wide = pair.2)
      (Layout.spread offset flagged) flagged := by
  induction flagged generalizing offset with
  | nil => exact .nil
  | cons first rest ih => exact .cons ⟨rfl, rfl⟩ (ih _)

theorem widen_eq_ok {layout : Layout} {widened : List (Node × Bool)} :
    layout.widen = .ok widened ↔ List.Forall₂ (fun placed pair =>
      pair.1 = placed.node ∧ needsWide layout.labels placed = .ok pair.2) layout.nodes widened := by
  unfold widen
  rw [mapM_eq_ok]
  constructor
  · refine List.Forall₂.imp fun placed pair h => ?_
    obtain ⟨wide, hw, h⟩ := except_bind_eq_ok.1 h
    cases h
    exact ⟨rfl, hw⟩
  · refine List.Forall₂.imp fun placed pair h => ?_
    exact except_bind_eq_ok.2 ⟨pair.2, h.2, by rw [← h.1]; rfl⟩

theorem forall₂_plain_of_widen {layout : Layout} {widened : List (Node × Bool)}
    (h : layout.widen = .ok widened) : List.Forall₂ (fun placed pair =>
      pair.1 = placed.node ∧ needsWide layout.labels placed = .ok pair.2)
      (layout.nodes.filter (!·.node.isLabel)) (plain widened) :=
  List.rel_filter (fun placed pair hp => by simp [hp.1]) (widen_eq_ok.1 h)

/-- Only gotos are widened, so whether anything changed shows on the instructions. -/
theorem flags_eq_iff {widened : List (Node × Bool)} (h : (ofFlagged flagged).widen = .ok widened) :
    widened.map Prod.snd = flagged.map Prod.snd ↔
      (plain widened).map Prod.snd = (plain flagged).map Prod.snd := by
  have kept := forall₂_comp (forall₂_spread 0 flagged).flip (widen_eq_ok.1 h)
    (Q := fun before after => after.1 = before.1 ∧ (before.1.isLabel = true → after.2 = before.2))
    fun before placed after hp hw => ⟨hw.1.trans hp.1, fun hl => ?_⟩
  · unfold plain
    clear h
    induction kept with
    | nil => simp
    | @cons before after rest rest' first _ ih =>
      obtain ⟨hnode, hlabel⟩ := first
      rw [List.filter_cons, List.filter_cons, hnode]
      cases hl : before.1.isLabel with
      | true => simp [hlabel hl, ih]
      | false => simp [ih]
  · obtain ⟨node, wide, offset⟩ := placed
    obtain ⟨hnode, hwide⟩ := hp
    dsimp only at hnode hwide
    cases node with
    | label l => exact (Except.ok.inj hw.2).symm.trans hwide
    | insn i => rw [← hnode] at hl; cases hl
    | branch b => rw [← hnode] at hl; cases hl

/-- One round of widening, in both layouts alike. -/
theorem widen_of_matching (m : Matching R (ofFlagged flagged) (ofFlagged others))
    (h : SameForm R (plain flagged) (plain others)) {widened : List (Node × Bool)}
    (hw : (ofFlagged flagged).widen = .ok widened) :
    ∃ widened', (ofFlagged others).widen = .ok widened' ∧ SameForm R (plain widened) (plain widened') ∧
      (widened.map Prod.snd = flagged.map Prod.snd ↔
        widened'.map Prod.snd = others.map Prod.snd) := by
  have hplain := forall₂_plain_of_widen hw
  obtain ⟨widened', hw'⟩ : ∃ widened', (ofFlagged others).widen = .ok widened' := by
    refine mapM_ok fun placed hp => ?_
    have hwide : ∃ wide, needsWide (ofFlagged others).labels placed = .ok wide := by
      cases hl : placed.node.isLabel with
      | true =>
        obtain ⟨node, wide, offset⟩ := placed
        cases node with
        | label l => exact ⟨wide, rfl⟩
        | insn i => cases hl
        | branch b => cases hl
      | false =>
        have hm : placed ∈ (ofFlagged others).nodes.filter (!·.node.isLabel) :=
          List.mem_filter.2 ⟨hp, by simp [hl]⟩
        obtain ⟨found, hf, hrelated⟩ := exists_left_of_mem m.nodes hm
        obtain ⟨pair, -, hpair⟩ := exists_left_of_mem hplain.flip hf
        exact ⟨pair.2, needsWide_of_related m.labels hrelated hpair.2⟩
    obtain ⟨wide, hwide⟩ := hwide
    exact ⟨_, except_bind_eq_ok.2 ⟨wide, hwide, rfl⟩⟩
  have hform : SameForm R (plain widened) (plain widened') := by
    have across := forall₂_comp hplain.flip m.nodes (Q := fun pair placed =>
      pair.1.Related R placed.node ∧ needsWide (ofFlagged others).labels placed = .ok pair.2)
      fun pair found placed hp hr => ⟨hp.1 ▸ hr.node, needsWide_of_related m.labels hr hp.2⟩
    refine forall₂_comp across (forall₂_plain_of_widen hw') fun pair placed pair' hp hp' => ⟨hp'.1 ▸ hp.1, ?_⟩
    rw [hp.2] at hp'
    exact (Except.ok.inj hp'.2).symm
  refine ⟨widened', hw', hform, ?_⟩
  rw [flags_eq_iff hw, flags_eq_iff hw']
  have flags : ∀ {xs ys : List (Node × Bool)}, SameForm R xs ys →
      ys.map Prod.snd = xs.map Prod.snd := by
    intro xs ys h
    induction h with
    | nil => rfl
    | cons first _ ih => rw [List.map_cons, List.map_cons, first.2, ih]
  rw [flags hform, flags h]

theorem settle_of_sameForm (rounds : Nat) {layout : Layout} (h : SameForm R (plain flagged) (plain others))
    (hr : R = Node.Aligned (flagged.map Prod.fst) (others.map Prod.fst))
    (hnodup : ((others.map Prod.fst).filterMap Node.label?).Nodup)
    (hs : settle rounds flagged = .ok layout) :
    ∃ layout', settle rounds others = .ok layout' ∧ Matching R layout layout' := by
  induction rounds generalizing flagged others with
  | zero =>
    have hfirst := (isOf_of_place hs).2
    rw [settle, place_eq flagged hfirst] at hs
    cases hs
    exact ⟨_, place_eq others hnodup, matching_ofFlagged h hr hfirst hnodup⟩
  | succ rounds ih =>
    obtain ⟨placed, hplaced, hs⟩ := except_bind_eq_ok.1 hs
    obtain ⟨widened, hwidened, hs⟩ := except_bind_eq_ok.1 hs
    have hfirst := (isOf_of_place hplaced).2
    rw [place_eq flagged hfirst] at hplaced
    cases hplaced
    have m := matching_ofFlagged h hr hfirst hnodup
    obtain ⟨widened', hwidened', hform, hflags⟩ := widen_of_matching m h hwidened
    have kept : ∀ {xs ys : List (Node × Bool)}, (ofFlagged xs).widen = .ok ys →
        ys.map Prod.fst = xs.map Prod.fst := fun h =>
      (map_fst_of_mapM h).trans (map_node_spread 0 _)
    unfold settle
    rw [place_eq others hnodup]
    by_cases hsame : widened.map Prod.snd = flagged.map Prod.snd
    · rw [if_pos (beq_iff_eq.2 hsame)] at hs
      cases hs
      refine ⟨_, except_bind_eq_ok.2 ⟨_, rfl, except_bind_eq_ok.2 ⟨widened', hwidened', ?_⟩⟩, m⟩
      rw [if_pos (beq_iff_eq.2 (hflags.1 hsame))]
      rfl
    · rw [if_neg (fun he => hsame (beq_iff_eq.1 he))] at hs
      have hr' : R = Node.Aligned (widened.map Prod.fst) (widened'.map Prod.fst) := by
        rw [kept hwidened, kept hwidened', hr]
      obtain ⟨layout', hs', hm⟩ := ih hform hr' (by rwa [kept hwidened']) hs
      refine ⟨layout', except_bind_eq_ok.2 ⟨_, rfl, except_bind_eq_ok.2 ⟨widened', hwidened', ?_⟩⟩, hm⟩
      rwa [if_neg (fun he => hsame (hflags.2 (beq_iff_eq.1 he)))]

end Rounds

/-- Nodes with the same instructions and targets have matching layouts. -/
theorem compute_of_alike {nodes others : List Node} {layout : Layout} (h : Node.Alike nodes others)
    (hnodup : (others.filterMap Node.label?).Nodup) (hc : compute nodes = .ok layout) :
    ∃ layout', compute others = .ok layout' ∧ Matching (Node.Aligned nodes others) layout layout' := by
  have hfst : ∀ nodes : List Node, (nodes.map fun node => (node, false)).map Prod.fst = nodes := by
    intro nodes
    rw [List.map_map]
    exact List.map_id nodes
  have hplain : ∀ nodes : List Node, plain (nodes.map fun node => (node, false)) =
      (Node.instructions nodes).map fun node => (node, false) := by
    intro nodes
    unfold plain Node.instructions
    rw [List.filter_map]
    rfl
  have hform : SameForm (Node.Aligned nodes others) (plain (nodes.map fun node => (node, false)))
      (plain (others.map fun node => (node, false))) := by
    unfold SameForm
    rw [hplain, hplain, List.forall₂_map_left_iff, List.forall₂_map_right_iff]
    exact h.imp fun _ _ hr => ⟨hr, rfl⟩
  have count : ∀ p : Node → Bool, (∀ node, p node = true → node.isLabel = false) →
      (∀ R node other, Node.Related R node other → p other = p node) →
      others.countP p = nodes.countP p := by
    intro p hp hr
    have hin : ∀ nodes : List Node, nodes.countP p = (Node.instructions nodes).countP p := by
      intro nodes
      unfold Node.instructions
      rw [List.countP_filter]
      refine List.countP_congr fun node _ => ?_
      cases hl : p node with
      | true => simp [hp node hl]
      | false => simp
    rw [hin, hin nodes]
    have counted : ∀ {R : Label → Label → Prop} {xs ys : List Node},
        List.Forall₂ (Node.Related R) xs ys → ys.countP p = xs.countP p := by
      intro R xs ys h
      induction h with
      | nil => rfl
      | cons first _ ih => rw [List.countP_cons, List.countP_cons, ih, hr R _ _ first]
    exact counted h
  unfold compute at hc ⊢
  rw [count]
  · refine settle_of_sameForm _ hform ?_ ?_ hc
    · rw [hfst, hfst]
    · rwa [hfst]
  · intro node hn
    cases node with
    | label l => cases hn
    | insn i => rfl
    | branch b => rfl
  · intro R node other hr
    cases hr with
    | insn insn => rfl
    | branch hb => cases hb <;> rfl

/-- Labels have no bytes. -/
theorem bytes_eq_ok {layout : Layout} {code : Bytes} :
    layout.bytes = .ok code ↔ ∃ chunks, List.Forall₂ (fun placed chunk =>
      placed.bytes layout.labels = .ok chunk) (layout.nodes.filter (!·.node.isLabel)) chunks ∧
      code = chunks.flatten := by
  have plainly : ∀ (nodes : List Placed) (code : Bytes), (∃ chunks, List.Forall₂ (fun placed chunk =>
        placed.bytes layout.labels = .ok chunk) nodes chunks ∧ code = chunks.flatten) ↔
      ∃ chunks, List.Forall₂ (fun placed chunk => placed.bytes layout.labels = .ok chunk)
        (nodes.filter (!·.node.isLabel)) chunks ∧ code = chunks.flatten := by
    intro nodes
    induction nodes with
    | nil => exact fun _ => Iff.rfl
    | cons first rest ih =>
      intro code
      obtain ⟨node, wide, offset⟩ := first
      rw [List.filter_cons]
      cases hl : node.isLabel with
      | true =>
        cases node with
        | label l =>
          refine Iff.trans ?_ (ih code)
          constructor
          · rintro ⟨_, hall, rfl⟩
            obtain ⟨chunk, chunks, hchunk, hrest, rfl⟩ := List.forall₂_cons_left_iff.1 hall
            cases hchunk
            exact ⟨chunks, hrest, rfl⟩
          · rintro ⟨chunks, hall, rfl⟩
            exact ⟨[] :: chunks, .cons rfl hall, rfl⟩
        | insn i => cases hl
        | branch b => cases hl
      | false =>
        simp only [Bool.not_false, if_true, List.forall₂_cons_left_iff]
        constructor
        · rintro ⟨_, ⟨chunk, chunks, hchunk, hrest, rfl⟩, rfl⟩
          obtain ⟨others, hothers, he⟩ := (ih chunks.flatten).1 ⟨chunks, hrest, rfl⟩
          exact ⟨_, ⟨chunk, others, hchunk, hothers, rfl⟩, by simp [he]⟩
        · rintro ⟨_, ⟨chunk, chunks, hchunk, hrest, rfl⟩, rfl⟩
          obtain ⟨others, hothers, he⟩ := (ih chunks.flatten).2 ⟨chunks, hrest, rfl⟩
          exact ⟨_, ⟨chunk, others, hchunk, hothers, rfl⟩, by simp [he]⟩
  rw [← plainly]
  unfold Layout.bytes
  rw [except_bind_eq_ok]
  constructor
  · rintro ⟨chunks, hchunks, h⟩
    cases h
    exact ⟨chunks, mapM_eq_ok.1 hchunks, rfl⟩
  · rintro ⟨chunks, hchunks, rfl⟩
    exact ⟨chunks, mapM_eq_ok.2 hchunks, rfl⟩

/-- Matching layouts have the same bytes. -/
theorem bytes_of_matching {R : Label → Label → Prop} {layout other : Layout} (m : Matching R layout other)
    {code : Bytes} (h : layout.bytes = .ok code) : other.bytes = .ok code := by
  obtain ⟨chunks, hchunks, hcode⟩ := bytes_eq_ok.1 h
  refine bytes_eq_ok.2 ⟨chunks, forall₂_comp m.nodes.flip hchunks fun placed found chunk hr hb => ?_, hcode⟩
  obtain ⟨node, wide, offset⟩ := found
  obtain ⟨node', wide', offset'⟩ := placed
  obtain ⟨hnode, hwide, hoffset⟩ := hr
  dsimp only at hnode hwide hoffset
  subst hwide hoffset
  cases hnode with
  | insn insn => exact hb
  | branch hbranch =>
    refine Branch.Related.bytes (hbranch.imp fun label found hlabel target ht => ?_) hb
    obtain ⟨offset, hl, hfound⟩ := m.labels label found hlabel
    rw [hl] at ht
    cases ht
    exact hfound

end Layout

end ClassWeave
