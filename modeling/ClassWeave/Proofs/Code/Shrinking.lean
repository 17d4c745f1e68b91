import ClassWeave.Proofs.Code.Marking
import ClassWeave.Proofs.Code.Widening

/-!
Code that is written again. No instruction takes more bytes than it was read from, so the instructions
move to the front; but the padding of a switch can take back up to three of the bytes that were gained in
front of it. What a jump needs is room for these, if there is a switch on its way.
-/

namespace ClassWeave

def Branch.isSwitch {T : Type} : Branch T → Bool
  | .tableSwitch _ _ _ | .lookupSwitch _ _ => true
  | _ => false

def Decoded.isSwitch : Decoded → Bool
  | .insn _ => false
  | .branch b => b.isSwitch

/-- A switch that moves to the front keeps all whole words that were gained in front of it. -/
theorem switchPadding_add_le {offset start : Nat} (h : offset ≤ start) :
    switchPadding offset + offset + 4 * ((start - offset) / 4) ≤ switchPadding start + start := by
  unfold switchPadding
  omega

namespace Node.Shows

variable {marks : Nat → Label → Prop} {decoded : Decoded} {node : Node} {start n offset : Nat} {wide : Bool}

/-- An instruction at an offset further to the front, and not wide unless it was read so. -/
theorem width_le (h : Shows marks decoded node) (costs : decoded.Costs start n)
    (hwide : wide = true → n ≠ 3) (hle : offset ≤ start) :
    (Placed.mk node wide offset).width + offset + 4 * ((start - offset) / 4) ≤ start + n ∧
      (decoded.isSwitch = false → (Placed.mk node wide offset).width ≤ n) := by
  have hwords : offset + 4 * ((start - offset) / 4) ≤ start := by omega
  -- Whatever is no switch has a width that does not depend on its offset.
  have fixed : (Placed.mk node wide offset).width ≤ n →
      (Placed.mk node wide offset).width + offset + 4 * ((start - offset) / 4) ≤ start + n ∧
        (decoded.isSwitch = false → (Placed.mk node wide offset).width ≤ n) := fun hwidth =>
    ⟨by omega, fun _ => hwidth⟩
  cases h with
  | insn insn => exact fixed costs
  | @branch found branch hrelated =>
    obtain ⟨read, rfl, -⟩ := costs
    have hwidth : (Placed.mk (.branch branch) wide offset).width = found.width offset wide :=
      hrelated.width offset wide
    rw [hwidth] at fixed ⊢
    have hpadding := switchPadding_add_le hle
    cases found with
    | tableSwitch default low targets =>
      refine ⟨?_, nofun⟩
      dsimp only [Branch.width]
      omega
    | lookupSwitch default targets =>
      refine ⟨?_, nofun⟩
      dsimp only [Branch.width]
      omega
    | goto target =>
      refine fixed ?_
      cases wide with
      | false => cases read <;> simp [Branch.width]
      | true =>
        cases read with
        | false => exact absurd rfl (hwide rfl)
        | true => exact Nat.le_refl _
    | _ => exact fixed (Nat.le_refl _)

end Node.Shows

namespace Decoded

variable {code : Bytes} {entries : List (Nat × Decoded)} {offset start k : Nat} {decoded : Decoded}

/-- Behind an instruction is the next, or the end of the code. -/
theorem Consecutive.next_at (h : Consecutive code offset entries) (hk : entries[k]? = some (start, decoded)) :
    ∃ after, Decoded.read code start = .ok (decoded, after) ∧
      (entries.map Prod.fst ++ [code.length])[k + 1]? = some after := by
  induction h generalizing k with
  | stop => cases hk
  | @next offset after _ rest hread hrest ih =>
    cases k with
    | succ k => exact ih hk
    | zero =>
      cases hk
      refine ⟨after, hread, ?_⟩
      cases hrest <;> rfl

theorem Consecutive.start_at (hk : entries[k]? = some (start, decoded)) :
    (entries.map Prod.fst ++ [code.length])[k]? = some start := by
  rw [List.getElem?_append_left (by simpa using (List.getElem?_eq_some_iff.1 hk).1), List.getElem?_map, hk]
  rfl

end Decoded

/-- The list starts with what was read, and wide are only those that were read from more than three bytes.
-/
def Decoded.Leads (code : Bytes) (entries : List (Nat × Decoded)) (marks : Nat → Label → Prop)
    (plain : List (Node × Bool)) : Prop :=
  ∀ (k start : Nat) (decoded : Decoded), entries[k]? = some (start, decoded) →
    ∃ node wide, plain[k]? = some (node, wide) ∧ Node.Shows marks decoded node ∧
      (wide = true → Decoded.read code start ≠ .ok (decoded, start + 3))

namespace Decoded.Leads

open Layout

variable {code : Bytes} {entries : List (Nat × Decoded)} {marks : Nat → Label → Prop}
  {plain : List (Node × Bool)} (h : Decoded.Leads code entries marks plain)
  (consecutive : Decoded.Consecutive code 0 entries)

include h consecutive

/-- One instruction further: the whole words that were gained are kept, and without a switch every byte.
-/
theorem reach_succ {k start : Nat} {decoded : Decoded} (hk : entries[k]? = some (start, decoded))
    (hle : reach 0 (plain.take k) ≤ start) : ∃ after,
    (entries.map Prod.fst ++ [code.length])[k + 1]? = some after ∧ start ≤ after ∧
      reach 0 (plain.take (k + 1)) + 4 * ((start - reach 0 (plain.take k)) / 4) ≤ after ∧
      (decoded.isSwitch = false →
        reach 0 (plain.take (k + 1)) + (start - reach 0 (plain.take k)) ≤ after) := by
  obtain ⟨after, hread, hafter⟩ := consecutive.next_at hk
  obtain ⟨hlt, -, hcosts⟩ := Decoded.costs_of_read hread
  obtain ⟨node, wide, hnode, hshows, hwide⟩ := h k start decoded hk
  have hthree : wide = true → after - start ≠ 3 := fun hw he => hwide hw (by
    rw [hread]
    congr 2
    omega)
  obtain ⟨hwords, hbytes⟩ := hshows.width_le hcosts hthree hle
  rw [reach_take_succ 0 hnode]
  dsimp only
  refine ⟨after, hafter, Nat.le_of_lt hlt, by omega, fun hplain => ?_⟩
  have hwidth := hbytes hplain
  omega

/-- From one boundary to a later one the whole words that were gained are kept, and every byte if no switch
lies between. -/
theorem reach_le {i j a b : Nat} (hij : i ≤ j) (hi : (entries.map Prod.fst ++ [code.length])[i]? = some a)
    (hj : (entries.map Prod.fst ++ [code.length])[j]? = some b) (hle : reach 0 (plain.take i) ≤ a) :
    reach 0 (plain.take j) + 4 * ((a - reach 0 (plain.take i)) / 4) ≤ b ∧
      ((∀ k start decoded, i ≤ k → k < j → entries[k]? = some (start, decoded) → decoded.isSwitch = false) →
        reach 0 (plain.take j) + (a - reach 0 (plain.take i)) ≤ b) := by
  induction j, hij using Nat.le_induction generalizing b with
  | base =>
    cases hi.symm.trans hj
    exact ⟨by omega, fun _ => by omega⟩
  | succ j hij ih =>
    have hlt : j < entries.length := by
      have hlength := (List.getElem?_eq_some_iff.1 hj).1
      rw [List.length_append, List.length_map, List.length_singleton] at hlength
      omega
    obtain ⟨⟨start, decoded⟩, hentry⟩ : ∃ entry, entries[j]? = some entry :=
      ⟨_, List.getElem?_eq_getElem hlt⟩
    obtain ⟨hwords, hbytes⟩ := ih (Decoded.Consecutive.start_at hentry)
    obtain ⟨after, hafter, hstart, hwords', hbytes'⟩ := h.reach_succ consecutive hentry (by omega)
    cases hj.symm.trans hafter
    refine ⟨by omega, fun hplain => ?_⟩
    have hbefore := hbytes fun k start decoded hk hkj => hplain k start decoded hk (by omega)
    have hlast := hbytes' (hplain j start decoded hij (by omega) hentry)
    omega

theorem reach_le_start {k a : Nat} (hk : (entries.map Prod.fst ++ [code.length])[k]? = some a) :
    reach 0 (plain.take k) ≤ a := by
  have hzero : ∃ first, (entries.map Prod.fst ++ [code.length])[0]? = some first := by
    cases entries <;> exact ⟨_, rfl⟩
  obtain ⟨first, hfirst⟩ := hzero
  have hwords := (h.reach_le consecutive (Nat.zero_le k) hfirst hk (Nat.zero_le _)).1
  omega

/-- What lies between two boundaries grows by less than a word, and not at all without a switch. -/
theorem growth {i j a b : Nat} (hij : i ≤ j) (hi : (entries.map Prod.fst ++ [code.length])[i]? = some a)
    (hj : (entries.map Prod.fst ++ [code.length])[j]? = some b) :
    reach 0 (plain.take i) ≤ reach 0 (plain.take j) ∧
      reach 0 (plain.take j) + a ≤ reach 0 (plain.take i) + b + 3 ∧
      ((∀ offset decoded, (offset, decoded) ∈ entries → a ≤ offset → offset < b → decoded.isSwitch = false) →
        reach 0 (plain.take j) + a ≤ reach 0 (plain.take i) + b) := by
  have hle := h.reach_le_start consecutive hi
  obtain ⟨hwords, hbytes⟩ := h.reach_le consecutive hij hi hj hle
  refine ⟨?_, by omega, fun hplain => ?_⟩
  · rw [← List.take_append_drop i (plain.take j), List.take_take, Nat.min_eq_left hij, reach_append]
    exact le_reach _ _
  · have hkept := hbytes fun k start decoded hik hkj hk =>
      hplain start decoded (List.mem_of_getElem? hk)
        (le_of_index consecutive.pairwise.1 hik hi (Decoded.Consecutive.start_at hk))
        (lt_of_index consecutive.pairwise.1 hkj (Decoded.Consecutive.start_at hk) hj)
    omega

end Decoded.Leads

/-- A jump with two bytes for its distance has room for three bytes more if there is a switch on its way. -/
def Decoded.Roomy (code : Bytes) (entries : List (Nat × Decoded)) : Prop :=
  ∀ start found target, (start, .branch found) ∈ entries →
    Decoded.read code start = .ok (.branch found, start + 3) → found.near? false = some target →
    (∃ entry ∈ entries, entry.2.isSwitch = true ∧ min start target ≤ entry.1 ∧ entry.1 < max start target) →
    -32765 ≤ (target : Int) - start ∧ (target : Int) - start ≤ 32764

theorem Branch.short_of_read {code : Bytes} {start target : Nat} {found : Branch Nat}
    (hread : Decoded.read code start = .ok (.branch found, start + 3))
    (hnear : found.near? false = some target) :
    -32768 ≤ (target : Int) - start ∧ (target : Int) - start ≤ 32767 := by
  obtain ⟨-, -, wide, hwidth, hshort⟩ := Decoded.costs_of_read hread
  rw [Nat.add_sub_cancel_left] at hwidth
  have hsame : found.near? wide = some target := by
    cases found with
    | goto target =>
      cases wide with
      | false => exact hnear
      | true => cases hwidth
    | _ => exact hnear
  exact of_decide_eq_true (hshort target hsame)

/-- Such a jump is within reach again. -/
theorem Decoded.Leads.isShortDistance {code : Bytes} {entries : List (Nat × Decoded)}
    {marks : Nat → Label → Prop} {plain : List (Node × Bool)}
    (h : Decoded.Leads code entries marks plain) (consecutive : Decoded.Consecutive code 0 entries)
    (roomy : Decoded.Roomy code entries) {k m start target : Nat} {found : Branch Nat}
    (hk : entries[k]? = some (start, .branch found))
    (hread : Decoded.read code start = .ok (.branch found, start + 3))
    (hnear : found.near? false = some target)
    (hm : (entries.map Prod.fst ++ [code.length])[m]? = some target) :
    ClassWeave.isShortDistance
      ((Layout.reach 0 (plain.take m) : Int) - Layout.reach 0 (plain.take k)) = true := by
  have hstart : (entries.map Prod.fst ++ [code.length])[k]? = some start :=
    Decoded.Consecutive.start_at hk
  have hshort := Branch.short_of_read hread hnear
  have hroom := roomy start found target (List.mem_of_getElem? hk) hread hnear
  have hordered := consecutive.pairwise.1
  rw [ClassWeave.isShortDistance, decide_eq_true_eq]
  by_cases hswitch : ∃ entry ∈ entries, entry.2.isSwitch = true ∧ min start target ≤ entry.1 ∧
      entry.1 < max start target
  · have hroom := hroom hswitch
    rcases Nat.le_total k m with hkm | hmk
    · have hle := le_of_index hordered hkm hstart hm
      obtain ⟨hmono, hgrowth, -⟩ := h.growth consecutive hkm hstart hm
      omega
    · have hle := le_of_index hordered hmk hm hstart
      obtain ⟨hmono, hgrowth, -⟩ := h.growth consecutive hmk hm hstart
      omega
  · have none : ∀ a b, min start target ≤ a → b ≤ max start target → ∀ offset decoded,
        (offset, decoded) ∈ entries → a ≤ offset → offset < b → decoded.isSwitch = false := by
      intro a b ha hb offset decoded he hfrom hto
      rw [← Bool.not_eq_true]
      exact fun hs => hswitch ⟨_, he, hs, Nat.le_trans ha hfrom, Nat.lt_of_lt_of_le hto hb⟩
    rcases Nat.le_total k m with hkm | hmk
    · have hle := le_of_index hordered hkm hstart hm
      obtain ⟨hmono, -, hgrowth⟩ := h.growth consecutive hkm hstart hm
      have hexact := hgrowth (none start target (Nat.min_le_left _ _) (Nat.le_max_right _ _))
      omega
    · have hle := le_of_index hordered hmk hm hstart
      obtain ⟨hmono, -, hgrowth⟩ := h.growth consecutive hmk hm hstart
      have hexact := hgrowth (none target start (Nat.min_le_right _ _) (Nat.le_max_left _ _))
      omega

/-- Where the instructions of the list are placed. -/
theorem Decoded.Leads.placed_at {code : Bytes} {entries : List (Nat × Decoded)} {marks : Nat → Label → Prop}
    {flagged : List (Node × Bool)} (h : Decoded.Leads code entries marks (Layout.plain flagged)) {k : Nat}
    (hlt : k < entries.length) {placed : Placed}
    (hplaced : ((Layout.ofFlagged flagged).nodes.filter (!·.node.isLabel))[k]? = some placed) :
    ∃ start decoded, entries[k]? = some (start, decoded) ∧ Node.Shows marks decoded placed.node ∧
      placed.offset = Layout.reach 0 ((Layout.plain flagged).take k) := by
  obtain ⟨⟨start, decoded⟩, hk⟩ : ∃ entry, entries[k]? = some entry := ⟨_, List.getElem?_eq_getElem hlt⟩
  obtain ⟨node, wide, hnode, hshows, -⟩ := h k start decoded hk
  change ((Layout.spread 0 flagged).filter (!·.node.isLabel))[k]? = some placed at hplaced
  rw [← Layout.spread_plain, Layout.getElem?_spread, hnode] at hplaced
  cases hplaced
  exact ⟨start, decoded, hk, hshows, rfl⟩

namespace Branch

variable {T U : Type} {R : T → U → Prop} {branch : Branch T} {other : Branch U} {wide : Bool}

theorem near?_false {target : T} (h : branch.near? wide = some target) : branch.near? false = some target := by
  cases branch with
  | goto _ => exact Branch.near?_goto.2 ⟨rfl, (Branch.near?_goto.1 h).2⟩
  | _ => exact h

theorem Related.near? (h : Related R branch other) {found : U} (hnear : other.near? wide = some found) :
    ∃ target, branch.near? wide = some target ∧ R target found := by
  cases h with
  | @goto t u hr =>
    obtain ⟨rfl, rfl⟩ := Branch.near?_goto.1 hnear
    exact ⟨t, rfl, hr⟩
  | @ifZero _ t _ hr | @ifInts _ t _ hr | @ifRefs _ t _ hr | @ifNull _ t _ hr =>
    cases hnear
    exact ⟨t, rfl, hr⟩
  | _ => cases hnear

/-- A jump that does not take three bytes is a goto. -/
theorem goto_of_width_ne {start : Nat} {target : T} {long : Bool} (h : branch.near? wide = some target)
    (hwidth : branch.width start long ≠ 3) : branch = .goto target := by
  cases branch with
  | goto _ => rw [(Branch.near?_goto.1 h).2]
  | ifZero | ifInts | ifRefs | ifNull => exact absurd rfl hwidth
  | _ => cases h

end Branch

/-- The second list starts with the instructions of the first, whose labels stand in it in front of the
same ones. -/
structure Node.Extends (nodes others : List Node) : Prop where
  instructions : ∃ more, Node.instructions others = Node.instructions nodes ++ more
  labels : ∀ label i, Node.indexOf? nodes label = some i → Node.indexOf? others label = some i

theorem Node.extends_append (nodes more : List Node) : Node.Extends nodes (nodes ++ more) where
  instructions := ⟨Node.instructions more, Node.instructions_append nodes more⟩
  labels label i hi := by
    obtain ⟨before, after, rfl, hnew, hi⟩ := Node.indexOf?_eq_some.1 hi
    exact Node.indexOf?_eq_some.2 ⟨before, after ++ more, by simp, hnew, hi⟩

namespace MethodBody.DecodedAs

open Layout

variable {code : Code} {pool : ConstantPool} {shape : MethodShape} {body : MethodBody}
  {entries : List (Nat × Decoded)} {tables : CodeTables} {labels : OffsetLabels}
  (decoded : DecodedAs code pool shape body entries tables labels)
  {nodes : List Node} (extended : Node.Extends body.nodes nodes)

/-- Wide in the list are only gotos that were read so, or that were added. -/
def LeadsIn (code : Code) (body : MethodBody) (entries : List (Nat × Decoded)) (flagged : List (Node × Bool)) :
    Prop :=
  Decoded.Leads code.code entries (fun offset label => body.StandsAt code.code label offset) (plain flagged)

include decoded extended

theorem leads_short : LeadsIn code body entries (nodes.map (·, false)) := by
  intro k start instruction hk
  obtain ⟨more, hmore⟩ := extended.instructions
  obtain ⟨node, hnode, hshows⟩ := exists_right_at decoded.shows hk
  have hplain : ((plain (nodes.map (·, false))).map Prod.fst)[k]? = some node := by
    rw [map_fst_plain, map_fst_short, hmore,
      List.getElem?_append_left (List.getElem?_eq_some_iff.1 hnode).1, hnode]
  rw [List.getElem?_map, Option.map_eq_some_iff] at hplain
  obtain ⟨⟨_, wide⟩, hentry, rfl⟩ := hplain
  obtain ⟨_, -, he⟩ := List.mem_map.1 (List.mem_filter.1 (List.mem_of_getElem? hentry)).1
  cases he
  exact ⟨_, false, hentry, hshows, nofun⟩

variable {flagged : List (Node × Bool)} (hfst : flagged.map Prod.fst = nodes)
  (hnodup : ((flagged.map Prod.fst).filterMap Node.label?).Nodup)

include hfst hnodup

theorem offset_of_standsAt {label : Label} {target : Nat} (h : body.StandsAt code.code label target) :
    ∃ m, (entries.map Prod.fst ++ [code.code.length])[m]? = some target ∧
      (ofFlagged flagged).labels.offset label = .ok (reach 0 ((plain flagged).take m)) := by
  obtain ⟨again, m, hread, hindex, hm⟩ := h
  cases decoded.read.symm.trans hread
  exact ⟨m, hm, offset_ofFlagged hnodup (hfst ▸ extended.labels label m hindex)⟩

/-- A round leaves short what was read short. -/
theorem leads_widened (roomy : Decoded.Roomy code.code entries) {widened : List (Node × Bool)}
    (h : LeadsIn code body entries flagged) (hround : (ofFlagged flagged).widen = .ok widened) :
    LeadsIn code body entries widened := by
  intro k start instruction hk
  obtain ⟨node, wide, hnode, hshows, hwide⟩ := h k start instruction hk
  have hplaced : ((ofFlagged flagged).nodes.filter (!·.node.isLabel))[k]? =
      some ⟨node, wide, reach 0 ((plain flagged).take k)⟩ := by
    change ((spread 0 flagged).filter (!·.node.isLabel))[k]? = _
    rw [← spread_plain, getElem?_spread, hnode]
    rfl
  obtain ⟨⟨again, wider⟩, hentry, hagain, hneeds⟩ :=
    exists_right_at (forall₂_plain_of_widen hround) hplaced
  obtain rfl : again = node := hagain
  refine ⟨again, wider, hentry, hshows, fun hwider hread => ?_⟩
  subst hwider
  cases wide with
  | true => exact hwide rfl hread
  | false =>
    cases needsWide_eq_ok hneeds with
    | widen target =>
    cases hshows with
    | branch hrelated =>
    cases hrelated with
    | goto hstands =>
    obtain ⟨m, hm, hoffset⟩ := decoded.offset_of_standsAt extended hfst hnodup hstands
    have hnear := h.isShortDistance (Decoded.consecutive_readAll decoded.read) roomy hk hread rfl hm
    obtain ⟨found, hfound, hneeds⟩ := except_bind_eq_ok.1 hneeds
    cases hoffset.symm.trans hfound
    have hneeds := Except.ok.inj hneeds
    dsimp only at hneeds
    rw [hnear] at hneeds
    cases hneeds

omit hfst hnodup in
/-- In the layout of the list all that was read is where it was led to be. -/
theorem leads_of_compute (roomy : Decoded.Roomy code.code entries) {layout : Layout}
    (h : compute nodes = .ok layout) : ∃ last, LeadsIn code body entries last ∧
      last.map Prod.fst = nodes ∧ layout = ofFlagged last := by
  obtain ⟨⟨rounds, hsettles⟩, -⟩ := settlesIn_of_compute h
  obtain ⟨last, ⟨hlast, hfst⟩, rfl, -⟩ := hsettles.exists_last
    (Q := fun flagged => LeadsIn code body entries flagged ∧ flagged.map Prod.fst = nodes)
    ⟨decoded.leads_short extended, map_fst_short nodes⟩ fun before after hnodup hbefore hround =>
      ⟨decoded.leads_widened extended hbefore.2 hnodup roomy hbefore.1 hround,
        (map_fst_of_widens (widens_of_widen hround)).trans hbefore.2⟩
  exact ⟨last, hlast, hfst, rfl⟩

omit hfst hnodup in
/-- Every jump that was read is within reach in the layout of the list. -/
theorem near_of_compute (roomy : Decoded.Roomy code.code entries) {layout : Layout}
    (h : compute nodes = .ok layout) {k : Nat} (hlt : k < entries.length) {placed : Placed}
    (hplaced : (layout.nodes.filter (!·.node.isLabel))[k]? = some placed) {branch : Branch Label}
    (hbranch : placed.node = .branch branch) {label : Label}
    (hnear : branch.near? placed.wide = some label) {distance : Int}
    (hdistance : layout.labels.distance placed.offset label = .ok distance) :
    ClassWeave.isShortDistance distance = true := by
  obtain ⟨-, hsettled⟩ := settlesIn_of_compute h
  have hmem := (List.mem_filter.1 (List.mem_of_getElem? hplaced)).1
  obtain ⟨last, hleads, hfst, rfl⟩ := decoded.leads_of_compute extended roomy h
  obtain ⟨hof, hnodup⟩ := isOf_of_compute h
  rw [← hfst] at hnodup
  obtain ⟨start, instruction, hk, hshows, hoffset⟩ := hleads.placed_at hlt hplaced
  rw [hbranch] at hshows
  cases hshows with
  | @branch found _ hrelated =>
  obtain ⟨target, hread, hstands⟩ := hrelated.near? hnear
  obtain ⟨after, hafter, -⟩ := (Decoded.consecutive_readAll decoded.read).next_at hk
  by_cases hthree : after = start + 3
  · subst hthree
    obtain ⟨m, hm, hbound⟩ := decoded.offset_of_standsAt extended hfst hnodup hstands
    obtain ⟨offset, ho, hdistance⟩ := except_bind_eq_ok.1 hdistance
    cases hdistance
    cases hbound.symm.trans ho
    rw [hoffset]
    exact hleads.isShortDistance (Decoded.consecutive_readAll decoded.read) roomy hk hafter
      (Branch.near?_false hread) hm
  · -- A goto that was read from five bytes may be short, but then it is near enough.
    obtain ⟨hless, -, long, hwidth, -⟩ := Decoded.costs_of_read hafter
    obtain rfl := Branch.goto_of_width_ne hread (fun he => hthree (by rw [he] at hwidth; omega))
    cases hrelated with
    | goto _ =>
    exact hsettled.isShortDistance hmem hbranch (Branch.near?_goto.1 hnear).1 (by
      rwa [(Branch.near?_goto.1 hnear).2])

omit hfst hnodup in
/-- What was read is written again, in whatever list it leads. -/
theorem bytes_ok (roomy : Decoded.Roomy code.code entries) {layout : Layout}
    (h : compute nodes = .ok layout) {k : Nat} (hlt : k < entries.length) {placed : Placed}
    (hplaced : (layout.nodes.filter (!·.node.isLabel))[k]? = some placed) :
    ∃ content, placed.bytes layout.labels = .ok content := by
  obtain ⟨last, hleads, hfst, hlast⟩ := decoded.leads_of_compute extended roomy h
  obtain ⟨start, instruction, -, hshows, -⟩ := hleads.placed_at hlt (hlast ▸ hplaced)
  unfold Placed.bytes
  generalize hnode : placed.node = node at hshows
  cases hshows with
  | insn insn => exact ⟨_, rfl⟩
  | @branch found branch hrelated =>
    refine FailsOnly.exists_ok (Branch.bytes_fails (fun target ht => ?_)
      fun target hnear distance hdistance hfar => ?_)
    · obtain ⟨offset, -, hstands⟩ := exists_left_of_mem hrelated.jumpTargets ht
      obtain ⟨m, -, hbound⟩ := decoded.offset_of_standsAt extended hfst
        (hfst ▸ (isOf_of_compute h).2) hstands
      rw [hlast, hbound]
      exact .ok _
    · rw [decoded.near_of_compute extended roomy h hlt hplaced hnode hnear hdistance] at hfar
      cases hfar

end MethodBody.DecodedAs

/-- A body is refused for its size: a jump is too far, or the code too long. -/
inductive ClassError.OfSize : ClassError → Prop where
  | far (label : Label) (distance : Int) : OfSize (.branchOutOfRange label distance)
  | long (length : Nat) : OfSize (.codeOverflow length)

namespace MethodBody

open Layout

variable {code : Code} {pool : ConstantPool} {shape : MethodShape} {body : MethodBody}
  {entries : List (Nat × Decoded)} {tables : CodeTables} {labels : OffsetLabels}

/-- The layout of a body that was read is no longer than its code. -/
theorem DecodedAs.length_le (decoded : DecodedAs code pool shape body entries tables labels)
    (roomy : Decoded.Roomy code.code entries) {layout : Layout} (h : compute body.nodes = .ok layout) :
    layout.length ≤ code.code.length ∧
      (layout.nodes.filter (!·.node.isLabel)).length = entries.length := by
  have same : Node.Extends body.nodes body.nodes := by
    simpa using Node.extends_append body.nodes []
  obtain ⟨last, hleads, hfst, rfl⟩ := decoded.leads_of_compute same roomy h
  have hlength : (plain last).length = entries.length := by
    rw [← List.length_map Prod.fst, map_fst_plain, hfst, ← decoded.shows.length_eq]
  constructor
  · change reach 0 last ≤ _
    rw [← reach_plain, ← List.take_length (l := plain last), hlength]
    refine hleads.reach_le_start (Decoded.consecutive_readAll decoded.read) ?_
    rw [List.getElem?_append_right (by simp)]
    simp
  · change ((spread 0 last).filter (!·.node.isLabel)).length = _
    rw [← spread_plain, ← List.length_map Placed.node, map_node_spread, List.length_map, hlength]

/-- Code that has room around its switches is never too long or too far when it is written again, and it does
not grow; whatever is put behind it, all that was read can still be written. -/
theorem encodes_of_roomy (h : decode code pool shape = .ok body) (hlength : code.code.length ≤ 65535)
    (hread : Decoded.readAll code.code = .ok entries) (roomy : Decoded.Roomy code.code entries) :
    (∀ version start,
      (∀ problem rest, body.encode version start = .error problem rest → ¬problem.OfSize) ∧
      ∀ out rest, body.encode version start = .ok out rest → out.code.length ≤ code.code.length) ∧
    ∀ nodes, Node.Extends body.nodes nodes → ∀ layout, compute nodes = .ok layout →
      ∀ k < entries.length, ∀ placed, (layout.nodes.filter (!·.node.isLabel))[k]? = some placed →
        ∃ content, placed.bytes layout.labels = .ok content := by
  obtain ⟨found, tables, labels, decoded⟩ := decodedAs_of_decode h
  cases hread.symm.trans decoded.read
  refine ⟨fun version start => ⟨fun problem rest hstops => ?_, fun out rest hout => ?_⟩,
    fun nodes extended layout hlayout k hlt placed => decoded.bytes_ok extended roomy hlayout hlt⟩
  · refine encodeWithLimit_stops_sizes (P := fun problem => ¬problem.OfSize) ?_ ?_ ?_ (fun layout hlayout hlong => ?_)
      (fun layout hlayout placed hm branch hbranch target hnear distance hdistance hfar => ?_)
      start problem rest hstops
    · rintro _ ⟨⟩
      exact nofun
    · rintro _ ⟨⟩ <;> exact nofun
    · rintro _ ⟨⟩ <;> exact nofun
    · have hle := (decoded.length_le roomy hlayout).1
      rw [Nat.min_self] at hlong
      exact absurd hlong (Nat.not_lt_of_le (Nat.le_trans hle hlength))
    · obtain ⟨k, hk⟩ := List.mem_iff_getElem?.1
        (List.mem_filter.2 ⟨hm, by rw [hbranch]; rfl⟩ : placed ∈ layout.nodes.filter (!·.node.isLabel))
      have hlt := (List.getElem?_eq_some_iff.1 hk).1
      rw [(decoded.length_le roomy hlayout).2] at hlt
      rw [decoded.near_of_compute (by simpa using Node.extends_append body.nodes []) roomy hlayout hlt hk
        hbranch hnear hdistance] at hfar
      cases hfar
  · obtain ⟨layout, tables, hwritten⟩ := writtenAs_of_encode hout
    rw [Decoded.length_bytes (isOf_of_compute hwritten.placed).1 hwritten.bytes]
    exact (decoded.length_le roomy hwritten.placed).1

end MethodBody

namespace Decoded

/-- As many instructions without effect, from an offset on. -/
def nops (offset count : Nat) : List (Nat × Decoded) := (List.range' offset count).map (·, .insn .nop)

theorem Spelled.nops {length offset count : Nat} {entries : List (Nat × Decoded)} {rest : Bytes}
    (h : Spelled length (offset + count) entries rest) :
    Spelled length offset (Decoded.nops offset count ++ entries) (List.replicate count 0 ++ rest) := by
  induction count generalizing offset with
  | zero => exact h
  | succ count ih =>
    rw [Nat.add_comm count 1, ← Nat.add_assoc] at h
    have hfirst : Takes (Site.mk offset length).decoded [0] (.insn .nop) := Site.takes_insn _ .nop
    exact (Spelled.next hfirst (Nat.lt_succ_self offset) (Nat.add_sub_cancel_left offset 1).symm (ih h) :)

end Decoded

namespace MethodBody

/-- A load with an operand of a byte, a jump to the end, and a switch between the two. -/
def stretched (count : Nat) : Code where
  maxStack := 1
  maxLocals := 1
  code := [0x15, 0] ++ (0x99 :: Bytes.i16 (Int16.ofInt ((16 + count : Nat) - (2 : Nat)))) ++
    (0xAB :: ([0, 0] ++ (Bytes.i32 (Int32.ofInt ((16 + count : Nat) - (5 : Nat))) ++ [0, 0, 0, 0]))) ++
    (List.replicate count 0 ++ [0xB1])
  exceptions := []
  attributes := []

/-- What it is read as. -/
def stretchedEntries (count : Nat) : List (Nat × Decoded) :=
  (0, .insn (.load .int 0)) :: (2, .branch (.ifZero .eq (16 + count))) ::
    (5, .branch (.lookupSwitch (16 + count) [])) :: (Decoded.nops 16 count ++ [(16 + count, .branch (.return none))])

theorem length_stretched (count : Nat) : (stretched count).code.length = 17 + count := by
  have hdistance : ∀ n : Int16, (Bytes.i16 n).length = 2 := fun n => Bytes.length_ofNat 2 _
  simp only [stretched, List.length_append, List.length_cons, List.length_nil, List.length_replicate, hdistance,
    Branch.length_i32]
  omega

theorem length_stretchedEntries (count : Nat) : (stretchedEntries count).length = 4 + count := by
  simp [stretchedEntries, Decoded.nops]
  omega

set_option maxRecDepth 4000 in
theorem readAll_stretched {count : Nat} (h : count ≤ 32753) :
    Decoded.readAll (stretched count).code = .ok (stretchedEntries count) := by
  have hload : Takes (Site.mk 0 (17 + count)).decoded [0x15, 0] (.insn (.load .int 0)) :=
    Site.takes_valueInsn _ (by decide) (Site.takes_u8 _ 0).map
  have hjump : Takes (Site.mk 2 (17 + count)).decoded
      (0x99 :: Bytes.i16 (Int16.ofInt ((16 + count : Nat) - (2 : Nat)))) (.branch (.ifZero .eq (16 + count))) := by
    have hshort : isShortDistance (((16 + count : Nat) : Int) - (Site.mk 2 (17 + count)).start) = true := by
      rw [isShortDistance, decide_eq_true_eq]
      dsimp only
      omega
    have htarget : Takes (Site.mk 2 (17 + count)).target16 _ _ :=
      Site.takes_target16 (by dsimp only; omega) hshort
    exact Site.takes_branch _ (by decide) htarget.map
  have hswitch : Takes (Site.mk 5 (17 + count)).decoded
      (0xAB :: ([0, 0] ++ (Bytes.i32 (Int32.ofInt ((16 + count : Nat) - (5 : Nat))) ++ [0, 0, 0, 0])))
      (.branch (.lookupSwitch (16 + count) [])) := by
    have hpadding : Takes ((Site.mk 5 (17 + count)).take (switchPadding 5)) [0, 0] [0, 0] :=
      Site.takes_bytes _ [0, 0]
    have htarget : Takes (Site.mk 5 (17 + count)).target32
        (Bytes.i32 (Int32.ofInt ((16 + count : Nat) - (5 : Nat)))) (16 + count) :=
      Site.takes_target32 (by dsimp only; omega) (by dsimp only; omega) (by dsimp only; omega)
    have hcount : Takes (Site.mk 5 (17 + count)).i32 [0, 0, 0, 0] 0 := Site.takes_i32 _ 0
    have hpairs : ∀ pair : CodeReader (Int32 × Nat), Takes (Site.repeatOnto pair 0 []) [] [] := fun pair =>
      Site.takes_repeatOnto .nil []
    exact Site.takes_branch _ (by decide) (hpadding.skip (htarget.bind (hcount.bind (hpairs _).map)))
  have hreturn : Takes (Site.mk (16 + count) (17 + count)).decoded [0xB1] (.branch (.return none)) :=
    Site.takes_branch _ (by decide) (.pure _)
  have hspelled : Decoded.Spelled (17 + count) 0 (stretchedEntries count) (stretched count).code := by
    unfold stretched
    dsimp only
    simp only [List.append_assoc]
    exact .next hload (by decide : 0 < 2) rfl <| .next hjump (by decide : 2 < 5) rfl <|
      .next hswitch (by decide : 5 < 16) rfl <| .nops <|
      .next hreturn (Nat.lt_succ_self _) (by simp) (.stop _)
  unfold Decoded.readAll
  rw [length_stretched]
  exact hspelled.readOnto (Nat.le_of_eq (length_stretched count)) []

theorem targets_stretched {count : Nat} {entry : Nat × Decoded} (hm : entry ∈ stretchedEntries count)
    {target : Nat} (ht : target ∈ entry.2.targets) : target = 16 + count := by
  simp only [stretchedEntries, Decoded.nops, List.mem_cons, List.mem_append, List.mem_map, List.not_mem_nil,
    or_false] at hm
  obtain rfl | rfl | rfl | ⟨_, -, rfl⟩ | rfl := hm
  · cases ht
  · exact List.mem_singleton.1 ht
  · exact List.mem_singleton.1 ht
  · cases ht
  · cases ht

theorem offsets_stretched (count : Nat) :
    ((stretchedEntries count).map Prod.fst ++ [(stretched count).code.length])[3 + count]? = some (16 + count) := by
  have hfst : (stretchedEntries count).map Prod.fst ++ [(stretched count).code.length] =
      ([0, 2, 5] ++ List.range' 16 count) ++ [16 + count, (stretched count).code.length] := by
    simp [stretchedEntries, Decoded.nops, Function.comp_def]
  have hlength : ([0, 2, 5] ++ List.range' 16 count).length = 3 + count := by simp; omega
  rw [hfst, ← hlength, List.getElem?_append_right (Nat.le_refl _), Nat.sub_self]
  rfl

theorem decode_stretched {count : Nat} (h : count ≤ 32753) (pool : ConstantPool) (shape : MethodShape) :
    ∃ body, decode (stretched count) pool shape = .ok body := by
  refine decode_ok (readAll_stretched h) rfl (fun offset hm => ?_) (by nofun)
    (fun labels _ => ⟨[], rfl⟩) (by nofun)
  have hoffset : offset = 16 + count := by
    obtain ⟨entry, he, ht⟩ | h | h | h | h := mem_references.1 hm
    · exact targets_stretched he ht
    all_goals
      obtain ⟨entry, he, -⟩ := h
      cases he
  rw [hoffset]
  exact List.mem_of_getElem? (offsets_stretched count)

/-- Instructions without effect take a byte each. -/
theorem reach_nops {marks : Nat → Label → Prop} {offset count start : Nat} {more : List (Nat × Decoded)}
    {plain : List (Node × Bool)}
    (h : List.Forall₂ (fun entry placed => Node.Shows marks entry.2 placed.1)
      (Decoded.nops offset count ++ more) plain) :
    Layout.reach start (plain.take count) = start + count := by
  induction count generalizing offset start plain with
  | zero => rfl
  | succ count ih =>
    obtain ⟨⟨node, wide⟩, rest, hfirst, hrest, rfl⟩ := List.forall₂_cons_left_iff.1 h
    cases hfirst
    rw [List.take_succ_cons, Layout.reach, ih hrest, Nat.add_assoc, Nat.add_comm count 1]
    rfl

theorem shows_stretched {marks : Nat → Label → Prop} {count : Nat} {plain : List (Node × Bool)}
    (h : List.Forall₂ (fun entry placed => Node.Shows marks entry.2 placed.1) (stretchedEntries count) plain) :
    ∃ label wide, marks (16 + count) label ∧ plain[1]? = some (.branch (.ifZero .eq label), wide) ∧
      Layout.reach 0 (plain.take 1) = 1 ∧ Layout.reach 0 (plain.take (3 + count)) = 16 + count := by
  unfold stretchedEntries at h
  cases h with
  | @cons _ load _ _ hload h =>
  cases h with
  | @cons _ jump _ _ hjump h =>
  cases h with
  | @cons _ switch _ rest hswitch h =>
  obtain ⟨load, _⟩ := load
  obtain ⟨jump, wide⟩ := jump
  obtain ⟨switch, _⟩ := switch
  cases hload
  cases hjump with
  | branch hjump =>
  cases hjump with
  | ifZero hlabel =>
  cases hswitch with
  | branch hswitch =>
  cases hswitch with
  | lookupSwitch _ hnone =>
  cases hnone
  refine ⟨_, wide, hlabel, rfl, rfl, ?_⟩
  rw [Nat.add_comm 3 count]
  have hload : (Insn.load .int 0).width = 1 := by decide
  have hend : Layout.reach 16 (rest.take count) = 16 + count := reach_nops h
  simp only [List.take_succ_cons, Layout.reach, Placed.width, Branch.width, hload]
  exact hend

/-- The jump is longer by the byte that the load gives up, since the switch takes it. -/
theorem distance_stretched {count : Nat} {pool : ConstantPool} {shape : MethodShape} {body : MethodBody}
    (hdecode : decode (stretched count) pool shape = .ok body) (hcount : count ≤ 32753) {layout : Layout}
    (hlayout : Layout.compute body.nodes = .ok layout) :
    ∃ placed ∈ layout.nodes, ∃ label, placed.node = .branch (.ifZero .eq label) ∧
      layout.labels.distance placed.offset label = .ok (15 + count) := by
  obtain ⟨entries, tables, labels, decoded⟩ := decodedAs_of_decode hdecode
  cases decoded.read.symm.trans (readAll_stretched hcount)
  obtain ⟨⟨flagged, hfst, rfl⟩, hnodup⟩ := Layout.isOf_of_compute hlayout
  have hshows := decoded.shows
  rw [← hfst, ← Layout.map_fst_plain, List.forall₂_map_right_iff] at hshows
  obtain ⟨label, wide, hstands, hjump, hfront, hend⟩ := shows_stretched hshows
  obtain ⟨m, hm, hoffset⟩ := decoded.offset_of_standsAt (by simpa using Node.extends_append body.nodes []) hfst
    (hfst ▸ hnodup) hstands
  have hindex : m = 3 + count := by
    have hordered := Decoded.pairwise_readAll decoded.read
    exact Nat.le_antisymm (le_of_getElem? hordered hm (offsets_stretched count) (Nat.le_refl _))
      (le_of_getElem? hordered (offsets_stretched count) hm (Nat.le_refl _))
  rw [hindex, hend] at hoffset
  have hplaced : ((Layout.spread 0 flagged).filter (!·.node.isLabel))[1]? =
      some ⟨.branch (.ifZero .eq label), wide, 1⟩ := by
    rw [← Layout.spread_plain, Layout.getElem?_spread, hjump]
    exact congrArg some (congrArg _ hfront)
  refine ⟨_, (List.mem_filter.1 (List.mem_of_getElem? hplaced)).1, label, rfl, ?_⟩
  refine except_bind_eq_ok.2 ⟨_, hoffset, congrArg Except.ok ?_⟩
  dsimp only
  omega

theorem roomy_stretched {count : Nat} (h : count ≤ 32750) :
    Decoded.Roomy (stretched count).code (stretchedEntries count) := by
  intro start found target hm _ hnear _
  simp only [stretchedEntries, Decoded.nops, List.mem_cons, List.mem_append, List.mem_map, List.not_mem_nil,
    or_false, Prod.mk.injEq] at hm
  obtain ⟨-, ⟨⟩⟩ | ⟨rfl, ⟨⟩⟩ | ⟨-, ⟨⟩⟩ | ⟨_, -, -, ⟨⟩⟩ | ⟨-, ⟨⟩⟩ := hm
  · cases hnear
    omega
  · cases hnear
  · cases hnear

theorem encodes_stretched : ∃ body,
    decode (stretched 32750) .empty ⟨"a/B", true, false, ⟨[.base .int], none⟩⟩ = .ok body ∧
      (∀ version start,
        (∀ problem rest, body.encode version start = .error problem rest → ¬problem.OfSize) ∧
        ∀ out rest, body.encode version start = .ok out rest → out.code.length ≤ 32767) ∧
      ∀ more layout, Layout.compute (body.nodes ++ more) = .ok layout → ∀ k < 32754, ∀ placed,
        (layout.nodes.filter (!·.node.isLabel))[k]? = some placed →
          ∃ content, placed.bytes layout.labels = .ok content := by
  have hlength := length_stretched 32750
  obtain ⟨body, hdecode⟩ := decode_stretched (by decide : 32750 ≤ 32753) .empty
    ⟨"a/B", true, false, ⟨[.base .int], none⟩⟩
  obtain ⟨hencode, hwrite⟩ := encodes_of_roomy hdecode (by rw [hlength]; decide)
    (readAll_stretched (by decide)) (roomy_stretched (Nat.le_refl _))
  have hentries : (stretchedEntries 32750).length = 32754 := length_stretchedEntries 32750
  rw [hlength] at hencode
  rw [hentries] at hwrite
  exact ⟨body, hdecode, hencode, fun more => hwrite _ (Node.extends_append body.nodes more)⟩

/-- With the longest distance that two bytes can say, the body is refused. -/
theorem encode_stretched {pool : ConstantPool} {shape : MethodShape} {body : MethodBody}
    (hdecode : decode (stretched 32753) pool shape = .ok body) :
    ∃ problem rest, body.encode ⟨49, 0⟩ .empty = .error problem rest ∧ problem.OfSize := by
  obtain ⟨layout, hlayout, hof⟩ := compute_isOf (wellPlaced_of_decode hdecode)
  have hbytes : ∃ problem, layout.bytes = .error problem ∧ problem.OfSize := by
    have hfails : FailsOnly ClassError.OfSize layout.bytes :=
      Layout.bytes_fails ((WellPlaced.located hof (wellPlaced_of_decode hdecode)).targets_of_placed hof)
        fun _ _ _ _ _ _ _ _ _ => .far _ _
    cases hresult : layout.bytes with
    | error problem => exact ⟨problem, rfl, hfails problem hresult⟩
    | ok code =>
      obtain ⟨placed, hm, label, hnode, hdistance⟩ := distance_stretched hdecode (Nat.le_refl _) hlayout
      obtain ⟨chunks, hchunks, -⟩ := except_bind_eq_ok.1 hresult
      obtain ⟨content, -, hcontent⟩ := exists_left_of_mem (mapM_eq_ok.1 hchunks).flip hm
      unfold Placed.bytes at hcontent
      rw [hnode] at hcontent
      obtain ⟨distance, hd, hcontent⟩ := except_bind_eq_ok.1 hcontent
      cases hdistance.symm.trans hd
      rw [if_neg (by decide)] at hcontent
      cases hcontent
  obtain ⟨problem, hproblem, hsize⟩ := hbytes
  by_cases hlong : maxCodeLength < layout.length
  · refine ⟨.codeOverflow layout.length, .empty, bind_eq_error.2 (.inr ⟨layout, .empty, ?_, ?_⟩), .long _⟩
    · exact except_eq_ok.2 ⟨hlayout, rfl⟩
    · rw [Nat.min_self, if_pos hlong]
      exact bind_eq_error.2 (.inl rfl)
  · refine ⟨problem, .empty, bind_eq_error.2 (.inr ⟨layout, .empty, ?_, ?_⟩), hsize⟩
    · exact except_eq_ok.2 ⟨hlayout, rfl⟩
    · rw [Nat.min_self, if_neg hlong]
      refine bind_eq_error.2 (.inl ?_)
      rw [hproblem]
      rfl

/-- Without room for three bytes more it is decoded, but not encoded again. -/
theorem stretched_outgrows : ∃ body,
    (stretched 32753).code.length ≤ 65535 ∧
      decode (stretched 32753) .empty ⟨"a/B", true, false, ⟨[.base .int], none⟩⟩ = .ok body ∧
      ∃ problem rest, body.encode ⟨49, 0⟩ .empty = .error problem rest ∧ problem.OfSize := by
  obtain ⟨body, hdecode⟩ := decode_stretched (Nat.le_refl _) .empty ⟨"a/B", true, false, ⟨[.base .int], none⟩⟩
  obtain ⟨problem, rest, hstops⟩ := encode_stretched hdecode
  exact ⟨body, by rw [length_stretched]; decide, hdecode, problem, rest, hstops⟩

end MethodBody

end ClassWeave
