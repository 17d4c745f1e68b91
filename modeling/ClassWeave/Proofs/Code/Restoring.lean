import ClassWeave.Proofs.Code.Aligning
import ClassWeave.Proofs.Code.Labelling
import ClassWeave.Proofs.Code.Rereading
import ClassWeave.Proofs.Code.Soundness
import ClassWeave.Proofs.Frame.Rebuilding
import Mathlib.Data.List.Nodup

/-!
What reading back gives. A label of the body that was written and the label of the body that is read
stand for the same offset just when they stand in front of the same instruction; so the instructions,
the tables and the frames that are read are those that were written, up to the names of the labels.
-/

namespace ClassWeave

theorem lt_of_index {values : List Nat} (h : values.Pairwise (· < ·)) {i j a b : Nat} (hij : i < j)
    (ha : values[i]? = some a) (hb : values[j]? = some b) : a < b := by
  obtain ⟨hi, rfl⟩ := List.getElem?_eq_some_iff.1 ha
  obtain ⟨hj, rfl⟩ := List.getElem?_eq_some_iff.1 hb
  exact List.pairwise_iff_getElem.1 h i j hi hj hij

theorem le_of_index {values : List Nat} (h : values.Pairwise (· < ·)) {i j a b : Nat} (hij : i ≤ j)
    (ha : values[i]? = some a) (hb : values[j]? = some b) : a ≤ b := by
  rcases Nat.eq_or_lt_of_le hij with rfl | hij
  · cases ha.symm.trans hb
    exact Nat.le_refl _
  · exact Nat.le_of_lt (lt_of_index h hij ha hb)

theorem le_of_getElem? {values : List Nat} (h : values.Pairwise (· < ·)) {i j a b : Nat}
    (hi : values[i]? = some a) (hj : values[j]? = some b) (hle : a ≤ b) : i ≤ j := by
  by_contra hlt
  exact Nat.not_lt_of_le hle (lt_of_index h (Nat.lt_of_not_le hlt) hj hi)

namespace Layout

variable {layout : Layout} {nodes : List Node}

/-- The instructions in front of a boundary take the bytes in front of it. -/
theorem getElem?_offsets {flagged : List (Node × Bool)} {i : Nat} (offset : Nat)
    (hi : i ≤ flagged.length) :
    ((spread offset flagged).map Placed.offset ++ [reach offset flagged])[i]? =
      some (reach offset (flagged.take i)) := by
  induction flagged generalizing offset i with
  | nil =>
    have hzero : i = 0 := by simpa using hi
    subst hzero
    rfl
  | cons first rest ih =>
    obtain ⟨node, wide⟩ := first
    cases i with
    | zero => rfl
    | succ i => exact ih _ (by simpa using hi)

theorem pairwise_offsets {flagged : List (Node × Bool)} (offset : Nat)
    (hplain : ∀ entry ∈ flagged, entry.1.isLabel = false) :
    ((spread offset flagged).map Placed.offset ++ [reach offset flagged]).Pairwise (· < ·) := by
  induction flagged generalizing offset with
  | nil => exact List.pairwise_singleton _ _
  | cons first rest ih =>
    obtain ⟨node, wide⟩ := first
    obtain ⟨hnode, hrest⟩ := List.forall_mem_cons.1 hplain
    have hwidth : 0 < (Placed.mk node wide offset).width := Placed.width_pos hnode
    refine List.pairwise_cons.2 ⟨fun other hm => ?_, ih _ hrest⟩
    have hle : offset + (Placed.mk node wide offset).width ≤ other := by
      rcases List.mem_append.1 hm with hm | hm
      · obtain ⟨placed, hp, rfl⟩ := List.mem_map.1 hm
        obtain ⟨front, back, -, ho⟩ := mem_spread hp
        rw [ho]
        exact le_reach _ _
      · rw [List.mem_singleton.1 hm]
        exact le_reach _ _
    dsimp only
    omega

theorem boundaries_ofFlagged (flagged : List (Node × Bool)) :
    (ofFlagged flagged).boundaries =
      (spread 0 (plain flagged)).map Placed.offset ++ [reach 0 (plain flagged)] := by
  rw [spread_plain, reach_plain]
  rfl

theorem IsOf.pairwise_boundaries (h : layout.IsOf nodes) : layout.boundaries.Pairwise (· < ·) := by
  obtain ⟨flagged, -, rfl⟩ := h
  refine (boundaries_ofFlagged flagged).symm ▸ pairwise_offsets 0 fun entry hm => ?_
  simpa using (List.mem_filter.1 hm).2

/-- Only the last boundary is the end of the code. -/
theorem IsOf.ne_length_iff (h : layout.IsOf nodes) {i offset : Nat}
    (hi : layout.boundaries[i]? = some offset) :
    offset ≠ layout.length ↔ i < (Node.instructions nodes).length := by
  have hcount : ((layout.nodes.filter fun placed => !placed.node.isLabel).map Placed.offset).length =
      (Node.instructions nodes).length := by
    rw [← h.map_node, List.length_map]
    unfold Node.instructions
    rw [List.filter_map, List.length_map]
    rfl
  have hlast : layout.boundaries[(Node.instructions nodes).length]? = some layout.length := by
    unfold boundaries
    rw [← hcount]
    exact List.getElem?_concat_length
  have hbound : i < (Node.instructions nodes).length + 1 := by
    rw [← hcount]
    have hin := (List.getElem?_eq_some_iff.1 hi).1
    unfold boundaries at hin
    rwa [List.length_append, List.length_singleton] at hin
  constructor
  · intro hne
    refine Nat.lt_of_le_of_ne (by omega) fun he => hne ?_
    rw [he, hlast] at hi
    exact (Option.some.inj hi).symm
  · intro hlt he
    have hle := le_of_getElem? h.pairwise_boundaries hlast hi (Nat.le_of_eq he.symm)
    omega

/-- A label stands in front of the instruction that its offset is the boundary of. -/
theorem IsOf.index_of_offset (h : layout.IsOf nodes) (hnodup : (nodes.filterMap Node.label?).Nodup)
    {label : Label} {offset : Nat} (ho : layout.labels.offset label = .ok offset) :
    ∃ i, Node.indexOf? nodes label = some i ∧ layout.boundaries[i]? = some offset := by
  obtain ⟨flagged, rfl, rfl⟩ := h
  have hplaced : .label label ∈ flagged.map Prod.fst := by
    by_contra hnone
    have hunbound := IsOf.offset?_eq_none ⟨flagged, rfl, rfl⟩ hnone
    rw [LabelTable.offset_eq_ok.1 ho] at hunbound
    cases hunbound
  have hindex : ∃ i, Node.indexOf? (flagged.map Prod.fst) label = some i := by
    unfold Node.indexOf?
    rw [if_pos hplaced]
    exact ⟨_, rfl⟩
  obtain ⟨i, hi⟩ := hindex
  have hfound : (ofFlagged flagged).labels.offset label = .ok offset := ho
  rw [offset_ofFlagged hnodup hi] at hfound
  cases hfound
  have hle : i ≤ (plain flagged).length := by
    obtain ⟨before, after, hsplit, -, rfl⟩ := Node.indexOf?_eq_some.1 hi
    rw [← List.length_map (f := Prod.fst), map_fst_plain, hsplit, Node.instructions_append,
      List.length_append]
    exact Nat.le_add_right _ _
  refine ⟨i, hi, ?_⟩
  change (ofFlagged flagged).boundaries[i]? = _
  rw [boundaries_ofFlagged]
  exact getElem?_offsets 0 hle

end Layout

namespace OffsetLabels

variable {known : OffsetLabels} {entries : List (Nat × Decoded)} {plain : List Node} {length : Nat}

/-- Instructions behind the labels of their offsets, and the label of the end. -/
def weave (known : OffsetLabels) (entries : List (Nat × Decoded)) (plain : List Node) (length : Nat) :
    List Node :=
  (List.zipWith known.nodesAt entries plain).flatten ++ (known.at? length).toList.map .label

theorem weave_cons (known : OffsetLabels) (entry : Nat × Decoded) (rest : List (Nat × Decoded))
    (node : Node) (others : List Node) (length : Nat) :
    known.weave (entry :: rest) (node :: others) length =
      known.nodesAt entry node ++ known.weave rest others length := by
  unfold weave
  rw [List.zipWith_cons_cons, List.flatten_cons, List.append_assoc]

theorem isLabel_of_node {decoded : Decoded} {node : Node} (h : known.node decoded = .ok node) :
    node.isLabel = false := by
  cases decoded with
  | insn insn =>
    cases h
    rfl
  | branch branch =>
    obtain ⟨found, -, h⟩ := except_bind_eq_ok.1 h
    cases h
    rfl

variable (h : List.Forall₂ (fun _ node => Node.isLabel node = false) entries plain)

include h

theorem instructions_weave : Node.instructions (known.weave entries plain length) = plain := by
  have marked : ∀ offset, Node.instructions ((known.at? offset).toList.map .label) = [] := by
    intro offset
    cases known.at? offset <;> rfl
  induction h with
  | nil => exact marked length
  | @cons entry node rest others hnode _ ih =>
    rw [weave_cons, Node.instructions_append, ih, nodesAt, Node.instructions_append, marked]
    have hone : Node.instructions [node] = [node] := by simp [Node.instructions, hnode]
    rw [hone]
    rfl

theorem labels_weave : (known.weave entries plain length).filterMap Node.label? =
    (entries.map Prod.fst ++ [length]).filterMap known.at? := by
  have marked : ∀ offset, ((known.at? offset).toList.map Node.label).filterMap Node.label? =
      (known.at? offset).toList := by
    intro offset
    cases known.at? offset <;> rfl
  induction h with
  | nil =>
    refine (marked length).trans ?_
    cases hl : known.at? length <;> simp [hl]
  | @cons entry node rest others hnode _ ih =>
    have hone : [node].filterMap Node.label? = [] := by
      cases node with
      | label l => cases hnode
      | insn i => rfl
      | branch b => rfl
    rw [weave_cons, List.filterMap_append, ih, nodesAt, List.filterMap_append, marked, hone]
    cases hl : known.at? entry.1 <;> simp [hl]

/-- The label of a boundary stands in front of the instruction with that offset. -/
theorem indexOf?_weave (numbered : known.Numbered)
    (hnodup : (entries.map Prod.fst ++ [length]).Nodup) {i offset : Nat} {label : Label}
    (hi : (entries.map Prod.fst ++ [length])[i]? = some offset) (hl : known.at? offset = some label) :
    Node.indexOf? (known.weave entries plain length) label = some i := by
  rw [Node.indexOf?_eq_some]
  induction h generalizing i with
  | nil =>
    obtain ⟨hzero, rfl⟩ : i = 0 ∧ length = offset := by
      cases i with
      | zero => exact ⟨rfl, Option.some.inj hi⟩
      | succ i => cases hi
    refine ⟨[], [], ?_, List.not_mem_nil, hzero.symm⟩
    unfold weave
    rw [hl]
    rfl
  | @cons entry node rest others hnode _ ih =>
    rw [weave_cons, nodesAt]
    cases i with
    | zero =>
      cases hi
      rw [hl]
      exact ⟨[], _, rfl, List.not_mem_nil, rfl⟩
    | succ i =>
      obtain ⟨hfirst, hrest⟩ := List.nodup_cons.1 hnodup
      obtain ⟨before, after, hsplit, hnew, rfl⟩ := ih hrest hi
      have hother : known.at? entry.1 ≠ some label := fun he => by
        have hsame := numbered.injective _ _ _ he hl
        exact hfirst (hsame ▸ List.mem_of_getElem? hi)
      refine ⟨(known.at? entry.1).toList.map .label ++ [node] ++ before, after, ?_, ?_, ?_⟩
      · rw [hsplit]
        simp only [List.append_assoc]
      · rw [List.mem_append, List.mem_append, List.mem_singleton]
        rintro ((hm | rfl) | hm)
        · obtain ⟨found, hf, he⟩ := List.mem_map.1 hm
          cases he
          exact hother (Option.mem_toList.1 hf)
        · cases hnode
        · exact hnew hm
      · rw [Node.instructions_append, Node.instructions_append]
        have hmark : Node.instructions ((known.at? entry.1).toList.map .label) = [] := by
          cases known.at? entry.1 <;> rfl
        have hone : Node.instructions [node] = [node] := by simp [Node.instructions, hnode]
        rw [hmark, hone]
        simp only [List.nil_append, List.length_append, List.length_singleton]
        omega

end OffsetLabels

/-- A label that was written and a label that is read stand for the same offset. -/
def SameOffset (labels : LabelTable) (known : OffsetLabels) (label other : Label) : Prop :=
  ∃ offset, labels.offset label = .ok offset ∧ known.label offset = .ok other

theorem LabelTable.offset_of_index {labels : LabelTable} {label : Label} {index : UInt16}
    (bounded : ∀ offset, labels.Marks offset → offset ≤ 65535) (h : labels.index label = .ok index) :
    labels.offset label = .ok index.toNat := by
  obtain ⟨offset, ho, h⟩ := except_bind_eq_ok.1 h
  cases h
  rw [ConstantPool.toNat_ofNat_of_lt (bounded offset ⟨label, ho⟩), ho]

theorem LabelTable.index_of_offset {labels : LabelTable} {label : Label} {index : UInt16}
    (h : labels.offset label = .ok index.toNat) : labels.index label = .ok index :=
  except_bind_eq_ok.2 ⟨index.toNat, h, by rw [UInt16.ofNat_toNat]; rfl⟩

/-- The same handler but for its labels. -/
structure Handler.Related (R : Label → Label → Prop) (handler other : Handler) : Prop where
  start : R handler.start other.start
  stop : R handler.stop other.stop
  catchType : other.catchType = handler.catchType
  handler : R handler.handler other.handler

/-- The same line but for its label. -/
structure LineEntry.Related (R : Label → Label → Prop) (entry other : LineEntry) : Prop where
  start : R entry.start other.start
  line : other.line = entry.line

/-- The same variable from the same instruction on, to the same one if that does not lie in front. -/
structure LocalEntry.Related (nodes others : List Node) (entry other : LocalEntry) : Prop where
  range : ∃ i j, Node.indexOf? nodes entry.start = some i ∧ Node.indexOf? nodes entry.stop = some j ∧
    Node.indexOf? others other.start = some i ∧ Node.indexOf? others other.stop = some (max i j)
  name : other.name = entry.name
  descriptor : other.descriptor = entry.descriptor
  slot : other.slot = entry.slot

namespace MethodBody

variable {body out : MethodBody} {version : Version} {pool : ConstantPool} {code : Code}
  {layout : Layout} {tables : CodeTables} {entries : List (Nat × Decoded)} {known : OffsetLabels}

/-- A body that is read back from the code that another was written as. -/
structure ReadBack (body : MethodBody) (version : Version) (pool : ConstantPool) (code : Code)
    (layout : Layout) (tables : CodeTables) (out : MethodBody) (entries : List (Nat × Decoded))
    (known : OffsetLabels) : Prop where
  written : body.WrittenAs version pool code layout tables
  decoded : DecodedAs code pool body.shape out entries tables known
  boundaries : entries.map Prod.fst ++ [code.code.length] = layout.boundaries
  resolved : List.Forall₂ (Placed.Resolved layout.labels)
    (layout.nodes.filter fun placed => !placed.node.isLabel) entries

theorem WrittenAs.readBack (h : body.WrittenAs version pool code layout tables) (fits : body.Fits)
    (sized : body.TablesSized) (inside : version.hasStackMaps = false → body.JumpsInside)
    (hout : decode code pool body.shape = .ok out) :
    ∃ entries known, body.ReadBack version pool code layout tables out entries known := by
  obtain ⟨hlength, entries, hentries, hresolved⟩ := h.readAll_ok fits sized inside
  obtain ⟨entries', tables', known, decoded⟩ := decodedAs_of_decode hout
  have hsame : entries' = entries := Except.ok.inj (decoded.read.symm.trans hentries)
  have htables : tables' = tables :=
    Except.ok.inj (decoded.attributes.symm.trans (h.fold_attributes fits))
  subst hsame htables
  refine ⟨_, known, h, decoded, ?_, hresolved⟩
  unfold Layout.boundaries
  rw [(resolved_entries hresolved).1, hlength]

namespace ReadBack

variable (h : body.ReadBack version pool code layout tables out entries known)

include h

theorem numbered : known.Numbered := OffsetLabels.numbered h.decoded.known

theorem woven : ∃ plain, List.Forall₂ (fun entry node => known.node entry.2 = .ok node) entries plain ∧
    List.Forall₂ (fun _ node => Node.isLabel node = false) entries plain ∧
    out.nodes = known.weave entries plain code.code.length := by
  obtain ⟨plain, hplain, hnodes⟩ := h.decoded.nodes_eq
  exact ⟨plain, hplain, hplain.imp fun _ _ => OffsetLabels.isLabel_of_node, hnodes⟩

theorem nodup_boundaries : (entries.map Prod.fst ++ [code.code.length]).Nodup := by
  rw [h.boundaries]
  exact (Layout.isOf_of_compute h.written.placed).1.pairwise_boundaries.imp Nat.ne_of_lt

theorem nodup_labels : (out.nodes.filterMap Node.label?).Nodup := by
  obtain ⟨plain, -, hplain, hnodes⟩ := h.woven
  rw [hnodes, OffsetLabels.labels_weave hplain]
  exact List.Nodup.filterMap (fun a b label ha hb => h.numbered.injective a b label ha hb)
    h.nodup_boundaries

/-- Labels for one offset stand in front of the same instruction. -/
theorem index {label other : Label} {offset : Nat} (hl : layout.labels.offset label = .ok offset)
    (ho : known.label offset = .ok other) :
    ∃ i, Node.indexOf? body.nodes label = some i ∧ Node.indexOf? out.nodes other = some i ∧
      layout.boundaries[i]? = some offset := by
  obtain ⟨hof, hnodup⟩ := Layout.isOf_of_compute h.written.placed
  obtain ⟨i, hi, hboundary⟩ := hof.index_of_offset hnodup hl
  obtain ⟨plain, -, hplain, hnodes⟩ := h.woven
  refine ⟨i, hi, ?_, hboundary⟩
  rw [hnodes]
  exact OffsetLabels.indexOf?_weave hplain h.numbered h.nodup_boundaries (h.boundaries ▸ hboundary)
    (OffsetLabels.label_eq_ok.1 ho)

theorem aligned {label other : Label} (hl : SameOffset layout.labels known label other) :
    Node.Aligned body.nodes out.nodes label other := by
  obtain ⟨offset, hl, ho⟩ := hl
  obtain ⟨i, hi, hi', -⟩ := h.index hl ho
  exact ⟨i, hi, hi'⟩

/-- The instructions that are read are those that were written. -/
theorem alike : Node.Alike body.nodes out.nodes := by
  obtain ⟨plain, hnode, hplain, hnodes⟩ := h.woven
  have hbody : Node.instructions body.nodes =
      (layout.nodes.filter fun placed => !placed.node.isLabel).map Placed.node := by
    rw [← (Layout.isOf_of_compute h.written.placed).1.map_node]
    unfold Node.instructions
    rw [List.filter_map]
    rfl
  unfold Node.Alike
  rw [hnodes, OffsetLabels.instructions_weave hplain, hbody, List.forall₂_map_left_iff, ← hnodes]
  refine forall₂_comp h.resolved hnode fun placed entry node hresolved hn => ?_
  obtain ⟨insn, hinsn, he⟩ | ⟨branch, found, hbranch, hfound, he⟩ := hresolved.2
  · rw [he] at hn
    cases hn
    rw [hinsn]
    exact .insn insn
  · rw [he] at hn
    obtain ⟨read, hread, hn⟩ := except_bind_eq_ok.1 hn
    cases hn
    rw [hbranch]
    exact .branch ((Branch.related_of_mapM hfound).comp (Branch.related_of_mapM hread)
      fun label offset other hl ho => h.aligned ⟨offset, hl, ho⟩)

variable {layout' : Layout} (matching : Layout.Matching (Node.Aligned body.nodes out.nodes) layout layout')

include matching

/-- In a matching layout of what is read, a label has the offset that it stands for. -/
theorem offset_again {label other : Label} {offset : Nat}
    (hl : layout.labels.offset label = .ok offset) (ho : known.label offset = .ok other) :
    layout'.labels.offset other = .ok offset := by
  obtain ⟨found, hfound, hagain⟩ := matching.labels label other (h.aligned ⟨offset, hl, ho⟩)
  rw [hl] at hfound
  cases hfound
  exact hagain

theorem index_again {label other : Label} {index : UInt16}
    (hl : layout.labels.index label = .ok index) (ho : known.label index.toNat = .ok other) :
    Node.Aligned body.nodes out.nodes label other ∧ layout'.labels.index other = .ok index := by
  have hoffset := LabelTable.offset_of_index h.written.bounded hl
  exact ⟨h.aligned ⟨_, hoffset, ho⟩, LabelTable.index_of_offset (h.offset_again matching hoffset ho)⟩

/-- The handlers are read as they were written, and are written as the same rows again. -/
theorem handlers : List.Forall₂ (Handler.Related (Node.Aligned body.nodes out.nodes))
      body.handlers out.handlers ∧
    List.Forall₂ (fun handler entry => handler.encode layout'.labels pool = .ok entry pool)
      out.handlers code.exceptions := by
  refine forall₂_around h.written.exceptions (mapM_eq_ok.1 h.decoded.handlers)
    fun handler entry other hentry hother => ?_
  obtain ⟨hstart, hstop, hrange, htarget, hcatch⟩ := Handler.encode_eq_ok.1 hentry
  obtain ⟨-, hstart', hstop', htarget', hcatch'⟩ := OffsetLabels.handler_eq_ok hother
  obtain ⟨hfirst, hfirstAgain⟩ := h.index_again matching hstart hstart'
  obtain ⟨hlast, hlastAgain⟩ := h.index_again matching hstop hstop'
  obtain ⟨hentered, henteredAgain⟩ := h.index_again matching htarget htarget'
  have hsame : other.catchType = handler.catchType := by
    obtain ⟨_, _, _, catchType⟩ := handler
    obtain ⟨_, _, _, caught⟩ := entry
    dsimp only at hcatch hcatch' ⊢
    cases hcatch with
    | none => exact hcatch'
    | some hname =>
      obtain ⟨name, hfound, hcaught⟩ := hcatch'
      rw [ConstantPool.className_of_internClass hname] at hfound
      cases hfound
      exact hcaught
  exact ⟨⟨hfirst, hlast, hsame, hentered⟩, Handler.encode_eq_ok.2
    ⟨hfirstAgain, hlastAgain, hrange, henteredAgain, hsame ▸ hcatch⟩⟩

/-- The lines are read as they were written, and are written as the same rows again. -/
theorem lines : List.Forall₂ (LineEntry.Related (Node.Aligned body.nodes out.nodes))
      body.lines out.lines ∧
    List.Forall₂ (fun entry line => encodeLine layout'.labels entry = .ok line)
      out.lines tables.lines := by
  obtain ⟨_, debug, -, -, hdebug⟩ := h.written.attributes
  refine forall₂_around hdebug.lines (mapM_eq_ok.1 h.decoded.lines) fun entry row other hrow hother => ?_
  obtain ⟨hstart, hline⟩ := encodeLine_eq_ok.1 hrow
  obtain ⟨hstart', hline'⟩ := OffsetLabels.lineEntry_eq_ok hother
  obtain ⟨hsame, hagain⟩ := h.index_again matching hstart hstart'
  exact ⟨⟨hsame, hline'.trans hline⟩, encodeLine_eq_ok.2 ⟨hagain, hline'.symm⟩⟩

/-- A variable is read with its range, which is empty if it ended before its start. -/
theorem localEntry {entry other : LocalEntry} {row : LocalVariable}
    (hrow : encodeLocal layout.labels entry pool = .ok row pool)
    (hother : known.localEntry pool row = .ok other) :
    LocalEntry.Related body.nodes out.nodes entry other ∧
      encodeLocal layout'.labels other pool = .ok row pool := by
  obtain ⟨start, stop, hstart, hstop, hfirst, hlength, hname, hdescriptor, hslot⟩ :=
    encodeLocal_eq_ok.1 hrow
  obtain ⟨hstart', hstop', hname', hdescriptor', hslot'⟩ := OffsetLabels.localEntry_eq_ok hother
  have hlow : start ≤ 65535 := h.written.bounded start ⟨_, hstart⟩
  have hhigh : stop ≤ 65535 := h.written.bounded stop ⟨_, hstop⟩
  have hend : start + (stop - start) = max start stop := by omega
  rw [hfirst, ConstantPool.toNat_ofNat_of_lt hlow] at hstart' hstop'
  rw [hlength, ConstantPool.toNat_ofNat_of_lt (by omega), hend] at hstop'
  rw [ConstantPool.utf8_of_internUtf8 hname] at hname'
  rw [ConstantPool.utf8_of_internUtf8 hdescriptor] at hdescriptor'
  have hsameName : entry.name = other.name := Except.ok.inj hname'
  have hsameDescriptor : entry.descriptor = other.descriptor := Except.ok.inj hdescriptor'
  have hsorted := (Layout.isOf_of_compute h.written.placed).1.pairwise_boundaries
  obtain ⟨i, hi, hi', hbegin⟩ := h.index hstart hstart'
  obtain ⟨j, hj, hclose⟩ := (Layout.isOf_of_compute h.written.placed).1.index_of_offset
    (Layout.isOf_of_compute h.written.placed).2 hstop
  have hrange : Node.indexOf? out.nodes other.stop = some (max i j) ∧
      layout'.labels.offset other.stop = .ok (max start stop) := by
    rcases Nat.le_total start stop with hle | hle
    · rw [Nat.max_eq_right hle] at hstop' ⊢
      obtain ⟨k, hk, hk', -⟩ := h.index hstop hstop'
      rw [hj] at hk
      cases hk
      refine ⟨?_, h.offset_again matching hstop hstop'⟩
      rwa [Nat.max_eq_right (le_of_getElem? hsorted hbegin hclose hle)]
    · rw [Nat.max_eq_left hle] at hstop' ⊢
      obtain ⟨k, hk, hk', -⟩ := h.index hstart hstop'
      rw [hi] at hk
      cases hk
      refine ⟨?_, h.offset_again matching hstart hstop'⟩
      rwa [Nat.max_eq_left (le_of_getElem? hsorted hclose hbegin hle)]
  refine ⟨⟨⟨i, j, hi, hj, hi', hrange.1⟩, hsameName.symm, hsameDescriptor.symm, hslot'.trans hslot⟩, ?_⟩
  refine encodeLocal_eq_ok.2 ⟨start, max start stop, h.offset_again matching hstart hstart', hrange.2,
    hfirst, ?_, hsameName ▸ hname, hsameDescriptor ▸ hdescriptor, hslot'.symm⟩
  rw [hlength]
  congr 1
  omega

theorem locals : List.Forall₂ (LocalEntry.Related body.nodes out.nodes) body.locals out.locals ∧
    List.Forall₂ (fun entry row => encodeLocal layout'.labels entry pool = .ok row pool)
      out.locals tables.locals := by
  obtain ⟨_, debug, -, -, hdebug⟩ := h.written.attributes
  exact forall₂_around hdebug.locals (mapM_eq_ok.1 h.decoded.locals) fun _ _ _ => h.localEntry matching

theorem localTypes :
    List.Forall₂ (LocalEntry.Related body.nodes out.nodes) body.localTypes out.localTypes ∧
    List.Forall₂ (fun entry row => encodeLocal layout'.labels entry pool = .ok row pool)
      out.localTypes tables.localTypes := by
  obtain ⟨_, debug, -, -, hdebug⟩ := h.written.attributes
  exact forall₂_around hdebug.localTypes (mapM_eq_ok.1 h.decoded.localTypes)
    fun _ _ _ => h.localEntry matching

end ReadBack

end MethodBody

end ClassWeave
