import ClassWeave.Proofs.Code.Covering

/-!
Layouts that are computed are fixed points. A round widens the gotos that are too far and no others, so
there are no more rounds than gotos and one, and in the last none is too far. What is written for a node
then lies between its offset and the next, and no goto is refused for its distance.
-/

namespace ClassWeave

namespace Layout

/-- Gotos that are still short. -/
def narrow (flagged : List (Node × Bool)) : Nat :=
  flagged.countP fun
    | (.branch (.goto _), false) => true
    | _ => false

/-- What a round may do to a node: nothing, or make a short goto wide. -/
inductive Widens : Node × Bool → Node × Bool → Prop where
  | keep (entry : Node × Bool) : Widens entry entry
  | widen (target : Label) : Widens (.branch (.goto target), false) (.branch (.goto target), true)

/-- Rounds up to the first that widens nothing. -/
inductive SettlesIn : Nat → List (Node × Bool) → Layout → Prop where
  | last {flagged : List (Node × Bool)} {layout : Layout} :
    place flagged = .ok layout → layout.widen = .ok flagged → SettlesIn 1 flagged layout
  | again {rounds : Nat} {flagged widened : List (Node × Bool)} {placed layout : Layout} :
    place flagged = .ok placed → placed.widen = .ok widened → widened ≠ flagged →
    SettlesIn rounds widened layout → SettlesIn (rounds + 1) flagged layout

theorem narrow_of_widens {flagged widened : List (Node × Bool)} (h : List.Forall₂ Widens flagged widened) :
    widened = flagged ∨ narrow widened < narrow flagged := by
  induction h with
  | nil => exact .inl rfl
  | cons first _ ih =>
    unfold narrow at ih ⊢
    cases first with
    | keep entry =>
      rcases ih with rfl | ih
      · exact .inl rfl
      · rw [List.countP_cons, List.countP_cons]
        exact .inr (Nat.add_lt_add_right ih _)
    | widen target =>
      rw [List.countP_cons, List.countP_cons]
      rcases ih with rfl | ih
      · exact .inr (Nat.lt_succ_self _)
      · exact .inr (Nat.lt_succ_of_lt ih)

section Rounds

variable {flagged widened : List (Node × Bool)} {labels : LabelTable} {layout : Layout}

theorem needsWide_eq_ok {placed : Placed} {wide : Bool} (h : needsWide labels placed = .ok wide) :
    Widens (placed.node, placed.wide) (placed.node, wide) := by
  obtain ⟨node, before, offset⟩ := placed
  unfold needsWide at h
  dsimp only at h
  split at h
  · obtain ⟨found, -, h⟩ := except_bind_eq_ok.1 h
    cases h
    dsimp only
    cases before with
    | true => exact .keep _
    | false =>
      cases isShortDistance ((found : Int) - offset) with
      | true => exact .keep _
      | false => exact .widen _
  · cases h
    exact .keep _

theorem widens_of_widen (h : (ofFlagged flagged).widen = .ok widened) :
    List.Forall₂ Widens flagged widened := by
  refine forall₂_comp (forall₂_spread 0 flagged).flip (widen_eq_ok.1 h) ?_
  rintro ⟨_, _⟩ ⟨node, wide, offset⟩ ⟨_, wider⟩ ⟨rfl, rfl⟩ ⟨rfl, hneeds⟩
  exact needsWide_eq_ok hneeds

theorem map_fst_of_widens (h : List.Forall₂ Widens flagged widened) :
    widened.map Prod.fst = flagged.map Prod.fst := by
  induction h with
  | nil => rfl
  | cons first _ ih =>
    rw [List.map_cons, List.map_cons, ih]
    cases first <;> rfl

/-- Gotos alone are wide. -/
def OnlyGotos (flagged : List (Node × Bool)) : Prop :=
  ∀ entry ∈ flagged, entry.2 = true → ∃ target, entry.1 = .branch (.goto target)

theorem OnlyGotos.of_widens (h : OnlyGotos flagged) (hw : List.Forall₂ Widens flagged widened) :
    OnlyGotos widened := fun entry hm hwide => by
  obtain ⟨before, hb, hone⟩ := exists_left_of_mem hw hm
  cases hone with
  | keep => exact h entry hb hwide
  | widen target => exact ⟨target, rfl⟩

variable (hnodup : ((flagged.map Prod.fst).filterMap Node.label?).Nodup)
  (hgotos : ∀ target, .branch (.goto target) ∈ flagged.map Prod.fst → .label target ∈ flagged.map Prod.fst)

include hnodup hgotos

/-- As many rounds as there are short gotos, and one, are enough. -/
theorem settle_settles (rounds : Nat) (hrounds : narrow flagged ≤ rounds) :
    ∃ layout n, settle rounds flagged = .ok layout ∧ n ≤ narrow flagged + 1 ∧
      SettlesIn n flagged layout := by
  have hplace := place_eq flagged hnodup
  induction rounds generalizing flagged with
  | zero =>
    obtain ⟨widened, hwidened⟩ := widen_ok hnodup hgotos
    obtain rfl := (narrow_of_widens (widens_of_widen hwidened)).resolve_right (by omega)
    exact ⟨_, 1, hplace, by omega, .last hplace hwidened⟩
  | succ rounds ih =>
    obtain ⟨widened, hwidened⟩ := widen_ok hnodup hgotos
    have hwidens := widens_of_widen hwidened
    have hfst := map_fst_of_widens hwidens
    unfold settle
    simp only [hplace, bind, Except.bind, hwidened]
    split
    · next hsame =>
      obtain rfl : widened = flagged :=
        (List.zip_of_prod hfst (eq_of_beq hsame)).trans (List.zip_of_prod rfl rfl).symm
      exact ⟨_, 1, rfl, by omega, .last hplace hwidened⟩
    · next hother =>
      have hne : widened ≠ flagged := by
        rintro rfl
        exact hother (beq_self_eq_true _)
      have hless := (narrow_of_widens hwidens).resolve_left hne
      rw [← hfst] at hnodup hgotos
      obtain ⟨layout, n, hlayout, hn, hsettles⟩ := ih hnodup hgotos (by omega) (place_eq widened hnodup)
      exact ⟨layout, n + 1, hlayout, by omega, .again hplace hwidened hne hsettles⟩

end Rounds

/-- Where each node starts, and where the last one ends. -/
def offsets (layout : Layout) : List Nat := layout.nodes.map Placed.offset ++ [layout.length]

/-- A layout of the nodes that needs no further round. -/
structure Settled (layout : Layout) (nodes : List Node) : Prop where
  nodes : layout.nodes.map Placed.node = nodes
  start : layout.offsets[0]? = some 0
  step : ∀ i placed, layout.nodes[i]? = some placed → layout.offsets[i]? = some placed.offset ∧
    layout.offsets[i + 1]? = some (placed.offset + placed.width)
  labels : ∀ placed ∈ layout.nodes, ∀ label, placed.node = .label label →
    layout.labels.offset? label = some placed.offset
  wide : ∀ placed ∈ layout.nodes, placed.wide = true → ∃ target, placed.node = .branch (.goto target)
  near : ∀ placed ∈ layout.nodes, ∀ target, placed.node = .branch (.goto target) → placed.wide = false →
    ∃ offset, layout.labels.offset? target = some offset ∧
      -32768 ≤ (offset : Int) - placed.offset ∧ (offset : Int) - placed.offset ≤ 32767

variable {flagged : List (Node × Bool)} {layout : Layout} {nodes : List Node}

/-- A round that changes nothing finds every node in the form that it needs. -/
theorem needsWide_of_widen (h : (ofFlagged flagged).widen = .ok flagged) {placed : Placed}
    (hm : placed ∈ spread 0 flagged) : needsWide (ofFlagged flagged).labels placed = .ok placed.wide := by
  obtain ⟨i, hi⟩ := List.mem_iff_getElem?.1 hm
  obtain ⟨entry, he, hneeds⟩ := exists_right_at (widen_eq_ok.1 h) hi
  rw [getElem?_spread, he] at hi
  cases hi
  exact hneeds.2

theorem near_of_needsWide {labels : LabelTable} {placed : Placed} {target : Label}
    (h : needsWide labels placed = .ok false) (htarget : placed.node = .branch (.goto target)) :
    ∃ offset, labels.offset? target = some offset ∧
      -32768 ≤ (offset : Int) - placed.offset ∧ (offset : Int) - placed.offset ≤ 32767 := by
  unfold needsWide at h
  rw [htarget] at h
  obtain ⟨offset, ho, h⟩ := except_bind_eq_ok.1 h
  cases hshort : isShortDistance ((offset : Int) - placed.offset) with
  | true =>
    exact ⟨offset, LabelTable.offset_eq_ok.1 ho, of_decide_eq_true hshort⟩
  | false =>
    have h := Except.ok.inj h
    rw [hshort] at h
    simp at h

/-- What every round keeps holds of the last, and the layout is that of the last. -/
theorem SettlesIn.exists_last {rounds : Nat} {Q : List (Node × Bool) → Prop} (h : SettlesIn rounds flagged layout)
    (hstart : Q flagged) (hkept : ∀ flagged widened, ((flagged.map Prod.fst).filterMap Node.label?).Nodup →
      Q flagged → (ofFlagged flagged).widen = .ok widened → Q widened) :
    ∃ last, Q last ∧ layout = ofFlagged last ∧ ((last.map Prod.fst).filterMap Node.label?).Nodup ∧
      (ofFlagged last).widen = .ok last := by
  induction h with
  | @last flagged layout hplace hwiden =>
    obtain ⟨-, hnodup⟩ := isOf_of_place hplace
    rw [place_eq flagged hnodup] at hplace
    cases hplace
    exact ⟨flagged, hstart, rfl, hnodup, hwiden⟩
  | @again rounds flagged widened placed layout hplace hwiden _ _ ih =>
    obtain ⟨-, hnodup⟩ := isOf_of_place hplace
    rw [place_eq flagged hnodup] at hplace
    cases hplace
    exact ih (hkept flagged widened hnodup hstart hwiden)

/-- The layout of the last round is settled. -/
theorem SettlesIn.settled {rounds : Nat} (h : SettlesIn rounds flagged layout)
    (hgotos : OnlyGotos flagged) : layout.Settled (flagged.map Prod.fst) := by
  obtain ⟨last, ⟨hlast, hfst⟩, rfl, hnodup, hwiden⟩ := h.exists_last
    (Q := fun other => OnlyGotos other ∧ other.map Prod.fst = flagged.map Prod.fst) ⟨hgotos, rfl⟩
    fun before after _ hbefore hround =>
      ⟨hbefore.1.of_widens (widens_of_widen hround), (map_fst_of_widens (widens_of_widen hround)).trans hbefore.2⟩
  rw [← hfst]
  refine ⟨map_node_spread 0 last, getElem?_offsets 0 (Nat.zero_le _), fun i placed hi => ?_,
    fun placed hm label hl => offset?_of_mem hnodup hm hl, fun placed hm hwide => ?_,
    fun placed hm target htarget hwide => ?_⟩
  · change (spread 0 last)[i]? = some placed at hi
    rw [getElem?_spread, Option.map_eq_some_iff] at hi
    obtain ⟨entry, he, rfl⟩ := hi
    obtain ⟨hlt, -⟩ := List.getElem?_eq_some_iff.1 he
    exact ⟨getElem?_offsets 0 (Nat.le_of_lt hlt),
      (getElem?_offsets 0 hlt).trans (congrArg some (reach_take_succ 0 he))⟩
  · obtain ⟨front, back, hsplit, -⟩ := mem_spread hm
    exact hlast _ (hsplit ▸ List.mem_append_right _ List.mem_cons_self) hwide
  · exact near_of_needsWide (hwide ▸ needsWide_of_widen hwiden hm) htarget

/-- The gotos among the nodes. -/
def gotos (nodes : List Node) : Nat :=
  nodes.countP fun
    | .branch (.goto _) => true
    | _ => false

theorem narrow_map (nodes : List Node) : narrow (nodes.map (·, false)) = gotos nodes := by
  unfold narrow gotos
  rw [List.countP_map]
  refine congrArg (List.countP · nodes) (funext fun node => ?_)
  cases node with
  | branch branch => cases branch <;> rfl
  | _ => rfl

/-- Nodes with each label placed once and the targets of the gotos placed have a settled layout, after
no more rounds than there are gotos and one. -/
theorem compute_settles (hnodup : (nodes.filterMap Node.label?).Nodup)
    (hgotos : ∀ target, .branch (.goto target) ∈ nodes → .label target ∈ nodes) :
    ∃ layout rounds, compute nodes = .ok layout ∧ rounds ≤ gotos nodes + 1 ∧
      SettlesIn rounds (nodes.map (·, false)) layout ∧ layout.Settled nodes := by
  have hfst := map_fst_short nodes
  have honly : OnlyGotos (nodes.map (·, false)) := fun entry hm hwide => by
    obtain ⟨node, -, rfl⟩ := List.mem_map.1 hm
    cases hwide
  obtain ⟨layout, rounds, hlayout, hrounds, hsettles⟩ := @settle_settles (nodes.map (·, false))
    (hfst.symm ▸ hnodup) (hfst.symm ▸ hgotos) (gotos nodes) (Nat.le_of_eq (narrow_map nodes))
  rw [narrow_map] at hrounds
  have hsettled := hsettles.settled honly
  rw [hfst] at hsettled
  exact ⟨layout, rounds, hlayout, hrounds, hsettles, hsettled⟩

/-- Nodes have a layout only if the targets of the gotos are placed. -/
theorem placed_of_compute (h : compute nodes = .ok layout) :
    ∀ target, .branch (.goto target) ∈ nodes → .label target ∈ nodes := by
  intro target hm
  have hpos : 0 < gotos nodes := List.countP_pos_iff.2 ⟨_, hm, rfl⟩
  obtain ⟨rounds, hrounds⟩ := Nat.exists_eq_succ_of_ne_zero (Nat.ne_of_gt hpos)
  change settle (gotos nodes) _ = _ at h
  rw [hrounds] at h
  -- The first round looks for the target of each goto.
  obtain ⟨placed, hplaced, h⟩ := except_bind_eq_ok.1 h
  obtain ⟨widened, hwidened, -⟩ := except_bind_eq_ok.1 h
  have hof := (isOf_of_place hplaced).1
  rw [map_fst_short] at hof
  rw [← hof.map_node] at hm
  obtain ⟨goto, hgoto, hnode⟩ := List.mem_map.1 hm
  obtain ⟨pair, -, hpair⟩ := exists_left_of_mem (mapM_eq_ok.1 hwidened).flip hgoto
  obtain ⟨wide, hwide, -⟩ := except_bind_eq_ok.1 hpair
  unfold needsWide at hwide
  rw [hnode] at hwide
  obtain ⟨offset, ho, -⟩ := except_bind_eq_ok.1 hwide
  by_contra hnone
  rw [LabelTable.offset_eq_ok, hof.offset?_eq_none hnone] at ho
  cases ho

theorem settlesIn_of_compute (h : compute nodes = .ok layout) :
    (∃ rounds, SettlesIn rounds (nodes.map (·, false)) layout) ∧ layout.Settled nodes := by
  obtain ⟨found, rounds, hfound, -, hsettles, hsettled⟩ :=
    compute_settles (isOf_of_compute h).2 (placed_of_compute h)
  cases h.symm.trans hfound
  exact ⟨⟨rounds, hsettles⟩, hsettled⟩

/-- The code is what is written for the nodes, one after the other, each from its offset up to the next. -/
def Fills (layout : Layout) (code : Bytes) : Prop :=
  ∃ chunks : List Bytes, code = chunks.flatten ∧
    List.Forall₂ (fun placed content => placed.bytes layout.labels = .ok content) layout.nodes chunks ∧
    ∀ i ≤ chunks.length, layout.offsets[i]? = some (chunks.take i).flatten.length

theorem spread_take (offset i : Nat) (flagged : List (Node × Bool)) :
    (spread offset flagged).take i = spread offset (flagged.take i) := by
  induction flagged generalizing offset i with
  | nil => simp [spread]
  | cons entry rest ih =>
    obtain ⟨node, wide⟩ := entry
    cases i with
    | zero => rfl
    | succ i =>
      rw [List.take_succ_cons, spread, spread, List.take_succ_cons, ih]

theorem IsOf.fills (h : layout.IsOf nodes) {code : Bytes} (hcode : layout.bytes = .ok code) :
    layout.Fills code := by
  obtain ⟨flagged, -, rfl⟩ := h
  obtain ⟨chunks, hchunks, hcode⟩ := except_bind_eq_ok.1 hcode
  cases hcode
  have hall := mapM_eq_ok.1 hchunks
  refine ⟨chunks, rfl, hall, fun i hi => ?_⟩
  have hlength : flagged.length = chunks.length := by
    rw [← hall.length_eq, ← List.length_map Placed.node, map_node_spread, List.length_map]
  have htaken := mapM_eq_ok.2 (List.forall₂_take i hall)
  rw [spread_take] at htaken
  have hreach := Decoded.length_spread htaken
  rw [Nat.zero_add] at hreach
  rw [hreach]
  exact getElem?_offsets 0 (hlength ▸ hi)

/-- The distance of a short goto is within reach. -/
theorem Settled.isShortDistance (h : layout.Settled nodes) {placed : Placed} (hm : placed ∈ layout.nodes)
    {target : Label} (htarget : placed.node = .branch (.goto target)) (hwide : placed.wide = false)
    {distance : Int} (hdistance : layout.labels.distance placed.offset target = .ok distance) :
    ClassWeave.isShortDistance distance = true := by
  obtain ⟨offset, ho, hnear⟩ := h.near placed hm target htarget hwide
  obtain ⟨found, hfound, hdistance⟩ := except_bind_eq_ok.1 hdistance
  cases hdistance
  cases ho.symm.trans (LabelTable.offset_eq_ok.1 hfound)
  exact decide_eq_true hnear

/-- A conditional jump to the label is so far that it cannot be written. -/
def TooFar (layout : Layout) (label : Label) (distance : Int) : Prop :=
  ∃ placed ∈ layout.nodes, ∃ branch, placed.node = .branch branch ∧ branch.fallsThrough = true ∧
    branch.jumpTargets = [label] ∧ layout.labels.distance placed.offset label = .ok distance ∧
    ClassWeave.isShortDistance distance = false

theorem Settled.tooFar (h : layout.Settled nodes) {placed : Placed} (hm : placed ∈ layout.nodes)
    {branch : Branch Label} (hbranch : placed.node = .branch branch) {label : Label}
    (hnear : branch.near? placed.wide = some label) {distance : Int}
    (hdistance : layout.labels.distance placed.offset label = .ok distance)
    (hfar : ClassWeave.isShortDistance distance = false) : layout.TooFar label distance := by
  have hjump : branch.fallsThrough = true ∧ branch.jumpTargets = [label] := by
    cases branch with
    | goto target =>
      obtain ⟨hwide, rfl⟩ := Branch.near?_goto.1 hnear
      rw [h.isShortDistance hm hbranch hwide hdistance] at hfar
      cases hfar
    | ifZero | ifInts | ifRefs | ifNull =>
      cases hnear
      exact ⟨rfl, rfl⟩
    | _ => cases hnear
  exact ⟨placed, hm, branch, hbranch, hjump.1, hjump.2, hdistance, hfar⟩

/-- The gotos of a settled layout are written. -/
theorem Settled.goto_ok (h : layout.Settled nodes) (hplaced : ∀ target, .branch (.goto target) ∈ nodes →
    .label target ∈ nodes) {placed : Placed} (hm : placed ∈ layout.nodes) {target : Label}
    (htarget : placed.node = .branch (.goto target)) : ∃ content, placed.bytes layout.labels = .ok content := by
  have bound : ∃ offset, layout.labels.offset? target = some offset := by
    have hl := hplaced target (h.nodes ▸ htarget ▸ List.mem_map_of_mem hm)
    rw [← h.nodes] at hl
    obtain ⟨marked, hmarked, hnode⟩ := List.mem_map.1 hl
    exact ⟨_, h.labels marked hmarked target hnode⟩
  unfold Placed.bytes
  rw [htarget]
  refine FailsOnly.exists_ok (Branch.bytes_fails (fun other ht => ?_) fun other hnear distance hdistance hfar => ?_)
  · rw [List.mem_singleton.1 ht]
    exact LabelTable.Has.offset_fails bound
  · obtain ⟨hwide, rfl⟩ := Branch.near?_goto.1 hnear
    rw [h.isShortDistance hm htarget hwide hdistance] at hfar
    cases hfar

end Layout

namespace MethodBody

variable {body : MethodBody} {version : Version} {limit : Nat}

/-- The jump that is out of range is a conditional one. -/
theorem encodeWithLimit_stops_far : StopsOnly (fun problem => ∀ label distance,
    problem = .branchOutOfRange label distance →
      ∃ layout, Layout.compute body.nodes = .ok layout ∧ layout.TooFar label distance)
    (body.encodeWithLimit version limit) := by
  refine encodeWithLimit_stops_sizes ?_ ?_ ?_ (fun _ _ _ => nofun)
    fun layout hlayout placed hm branch hbranch target hnear distance hdistance hfar => ?_
  · rintro _ ⟨⟩
    exact nofun
  · rintro _ ⟨⟩ <;> exact nofun
  · rintro _ ⟨⟩ <;> exact nofun
  · rintro label distance ⟨⟩
    exact ⟨layout, hlayout,
      (Layout.settlesIn_of_compute hlayout).2.tooFar hm hbranch hnear hdistance hfar⟩

end MethodBody

/-- Nodes with labels and goto targets in place have a settled layout after few rounds. Whatever body they
are in, what is written lies where the layout says, and if a jump is too far it is a conditional one. -/
theorem Layout.settles_and_writes (nodes : List Node) :
    ((nodes.filterMap Node.label?).Nodup →
      (∀ target, .branch (.goto target) ∈ nodes → .label target ∈ nodes) →
      ∃ layout rounds, compute nodes = .ok layout ∧ rounds ≤ gotos nodes + 1 ∧
        SettlesIn rounds (nodes.map (·, false)) layout ∧ layout.Settled nodes) ∧
    ∀ body : MethodBody, body.nodes = nodes → ∀ version limit start,
      (∀ code pool, body.encodeWithLimit version limit start = .ok code pool →
        ∃ layout, compute nodes = .ok layout ∧ layout.Settled nodes ∧ layout.Fills code.code) ∧
      ∀ label distance pool,
        body.encodeWithLimit version limit start = .error (.branchOutOfRange label distance) pool →
        ∃ layout, compute nodes = .ok layout ∧ layout.TooFar label distance ∧
          ∀ placed ∈ layout.nodes, ∀ target, placed.node = .branch (.goto target) →
            ∃ content, placed.bytes layout.labels = .ok content := by
  refine ⟨compute_settles, ?_⟩
  rintro body rfl version limit start
  refine ⟨fun code pool h => ?_, fun label distance pool h => ?_⟩
  · obtain ⟨layout, tables, hwritten⟩ := MethodBody.writtenAs_of_encode h
    exact ⟨layout, hwritten.placed, (settlesIn_of_compute hwritten.placed).2,
      (isOf_of_compute hwritten.placed).1.fills hwritten.bytes⟩
  · obtain ⟨layout, hlayout, hfar⟩ :=
      MethodBody.encodeWithLimit_stops_far start _ pool h label distance rfl
    exact ⟨layout, hlayout, hfar, fun placed hm target =>
      (settlesIn_of_compute hlayout).2.goto_ok (placed_of_compute hlayout) hm⟩

/-- A goto forward over a goto back. -/
def Layout.crossing : List Node :=
  [.label ⟨0⟩, .insn .nop, .branch (.goto ⟨1⟩), .branch (.goto ⟨0⟩), .label ⟨1⟩, .branch (.return none)]

theorem Layout.settles_crossing : ∃ layout rounds, compute crossing = .ok layout ∧ rounds ≤ 3 ∧
    SettlesIn rounds (crossing.map (·, false)) layout ∧ layout.Settled crossing ∧
    layout.offsets = [0, 0, 1, 4, 7, 7, 8] := by
  obtain ⟨layout, rounds, hlayout, hrounds, hsettles, hsettled⟩ :=
    (settles_and_writes crossing).1 (by decide) fun target hm => by
      have hcases : target = ⟨1⟩ ∨ target = ⟨0⟩ := by simpa [crossing] using hm
      rcases hcases with rfl | rfl <;> decide
  have hoffsets : (match compute crossing with
      | .ok layout => decide (layout.offsets = [0, 0, 1, 4, 7, 7, 8])
      | .error _ => false) = true := by decide +kernel
  rw [hlayout] at hoffsets
  exact ⟨layout, rounds, hlayout, hrounds, hsettles, hsettled, of_decide_eq_true hoffsets⟩

end ClassWeave
