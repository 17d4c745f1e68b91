import ClassWeave.Proofs.Code.Written

/-!
A body that was written is decoded again, if its tables fit the fields that count them and no jump leads
to the end of the code.
-/

namespace ClassWeave

section Tables

variable {pool : ConstantPool} {item : Attribute} {tables : CodeTables}

namespace CodeTables

theorem add_stackMaps {frames : List StackMapFrame} (hname : pool.utf8 item.name = .ok stackMapTable.name)
    (h : item.parse stackMapTable = .ok frames) :
    add pool tables item = .ok { tables with frames } := by
  unfold add
  simp only [hname, h]
  rfl

theorem add_lines {lines : List LineNumber} (hname : pool.utf8 item.name = .ok LineNumber.table.name)
    (h : item.parse LineNumber.table = .ok lines) :
    add pool tables item = .ok { tables with lines := tables.lines ++ lines } := by
  unfold add
  simp only [hname, h]
  rfl

theorem add_locals {locals : List LocalVariable}
    (hname : pool.utf8 item.name = .ok LocalVariable.table.name)
    (h : item.parse LocalVariable.table = .ok locals) :
    add pool tables item = .ok { tables with locals := tables.locals ++ locals } := by
  unfold add
  simp only [hname, h]
  rfl

theorem add_localTypes {localTypes : List LocalVariable}
    (hname : pool.utf8 item.name = .ok LocalVariable.typeTable.name)
    (h : item.parse LocalVariable.typeTable = .ok localTypes) :
    add pool tables item = .ok { tables with localTypes := tables.localTypes ++ localTypes } := by
  unfold add
  simp only [hname, h]
  rfl

/-- What an attribute adds to the tables. -/
inductive Adds (pool : ConstantPool) (tables : CodeTables) (item : Attribute) : CodeTables → Prop where
  | frames {frames : List StackMapFrame} : pool.utf8 item.name = .ok stackMapTable.name →
    item.parse stackMapTable = .ok frames → Adds pool tables item { tables with frames }
  | lines {lines : List LineNumber} : pool.utf8 item.name = .ok LineNumber.table.name →
    item.parse LineNumber.table = .ok lines →
    Adds pool tables item { tables with lines := tables.lines ++ lines }
  | locals {locals : List LocalVariable} : pool.utf8 item.name = .ok LocalVariable.table.name →
    item.parse LocalVariable.table = .ok locals →
    Adds pool tables item { tables with locals := tables.locals ++ locals }
  | localTypes {localTypes : List LocalVariable} : pool.utf8 item.name = .ok LocalVariable.typeTable.name →
    item.parse LocalVariable.typeTable = .ok localTypes →
    Adds pool tables item { tables with localTypes := tables.localTypes ++ localTypes }
  | other : pool.utf8 item.name ≠ .ok stackMapTable.name → Adds pool tables item tables

theorem adds_of_add {table : CodeTables} (h : add pool tables item = .ok table) :
    Adds pool tables item table := by
  obtain ⟨name, hname, h⟩ := except_bind_eq_ok.1 h
  have hname := mapError_eq_ok.1 hname
  split at h
  · next hframes =>
    obtain ⟨frames, hparse, h⟩ := except_bind_eq_ok.1 h
    cases h
    exact .frames (hframes ▸ hname) (mapError_eq_ok.1 hparse)
  next hother =>
  split at h
  · next hlines =>
    obtain ⟨lines, hparse, h⟩ := except_bind_eq_ok.1 h
    cases h
    exact .lines (hlines ▸ hname) (mapError_eq_ok.1 hparse)
  split at h
  · next hlocals =>
    obtain ⟨locals, hparse, h⟩ := except_bind_eq_ok.1 h
    cases h
    exact .locals (hlocals ▸ hname) (mapError_eq_ok.1 hparse)
  split at h
  · next hlocalTypes =>
    obtain ⟨localTypes, hparse, h⟩ := except_bind_eq_ok.1 h
    cases h
    exact .localTypes (hlocalTypes ▸ hname) (mapError_eq_ok.1 hparse)
  · cases h
    exact .other fun hframes => hother (Except.ok.inj (hname.symm.trans hframes))

end CodeTables

/-- A table of stack maps is read back from its bytes. -/
theorem reads_stackMapTable {frames : List StackMapFrame} {content : Bytes}
    (hlength : frames.length < 65536) (fits : ∀ frame ∈ frames, frame.Fits)
    (h : stackMapTable.bytes frames = .ok content) : Reads stackMapTable.read content frames := by
  obtain ⟨parts, hparts, h⟩ := except_bind_eq_ok.1 h
  cases h
  refine Reader.reads_parts hlength ?_
  refine List.Forall₂.imp (fun frame part hp => ?_)
    ((List.forall₂_and_left _ _).2 ⟨fits, mapM_eq_ok.1 hparts⟩)
  exact StackMapFrame.reads_bytes hp.1 hp.2

variable {attributes : List Attribute}

/-- The attributes of a table that is read back from its bytes give its entries. -/
theorem HoldsTable.parse {α : Type} {format : AttributeFormat (List α)} {entries : List α}
    (h : HoldsTable pool format entries attributes)
    (hread : ∀ content, format.bytes entries = .ok content → Reads format.read content entries) :
    (entries = [] ∧ attributes = []) ∨ ∃ item, attributes = [item] ∧
      pool.utf8 item.name = .ok format.name ∧ item.parse format = .ok entries := by
  refine h.imp_right ?_
  rintro ⟨item, rfl, hname, hcontent⟩
  exact ⟨item, rfl, hname, Attribute.parse_of_reads (hread _ hcontent) item.name⟩

namespace CodeTables

theorem fold_stackMaps {frames : List StackMapFrame}
    (h : HoldsTable pool stackMapTable frames attributes) (hlength : frames.length < 65536)
    (fits : ∀ frame ∈ frames, frame.Fits) (hnone : tables.frames = []) :
    attributes.foldlM (add pool) tables = .ok { tables with frames } := by
  rcases h.parse fun _ => reads_stackMapTable hlength fits with ⟨rfl, rfl⟩ | ⟨item, rfl, hname, hparse⟩
  · rw [← hnone]
    rfl
  · exact except_bind_eq_ok.2 ⟨_, add_stackMaps hname hparse, rfl⟩

theorem fold_lines {lines : List LineNumber}
    (h : HoldsTable pool LineNumber.table lines attributes) (hlength : lines.length < 65536) :
    attributes.foldlM (add pool) tables = .ok { tables with lines := tables.lines ++ lines } := by
  rcases h.parse fun content hcontent => Except.ok.inj hcontent ▸ Reader.reads_list hlength
    fun entry _ => entry.reads_bytes with ⟨rfl, rfl⟩ | ⟨item, rfl, hname, hparse⟩
  · rw [List.append_nil]
    rfl
  · exact except_bind_eq_ok.2 ⟨_, add_lines hname hparse, rfl⟩

theorem fold_locals {locals : List LocalVariable}
    (h : HoldsTable pool LocalVariable.table locals attributes) (hlength : locals.length < 65536) :
    attributes.foldlM (add pool) tables =
      .ok { tables with locals := tables.locals ++ locals } := by
  rcases h.parse fun content hcontent => Except.ok.inj hcontent ▸ Reader.reads_list hlength
    fun entry _ => entry.reads_bytes with ⟨rfl, rfl⟩ | ⟨item, rfl, hname, hparse⟩
  · rw [List.append_nil]
    rfl
  · exact except_bind_eq_ok.2 ⟨_, add_locals hname hparse, rfl⟩

theorem fold_localTypes {localTypes : List LocalVariable}
    (h : HoldsTable pool LocalVariable.typeTable localTypes attributes)
    (hlength : localTypes.length < 65536) :
    attributes.foldlM (add pool) tables =
      .ok { tables with localTypes := tables.localTypes ++ localTypes } := by
  rcases h.parse fun content hcontent => Except.ok.inj hcontent ▸ Reader.reads_list hlength
    fun entry _ => entry.reads_bytes with ⟨rfl, rfl⟩ | ⟨item, rfl, hname, hparse⟩
  · rw [List.append_nil]
    rfl
  · exact except_bind_eq_ok.2 ⟨_, add_localTypes hname hparse, rfl⟩

end CodeTables

end Tables

namespace MethodBody

variable {body : MethodBody} {version : Version} {limit : Nat} {pool : ConstantPool} {code : Code}
  {layout : Layout} {tables : CodeTables}

/-- The debug tables of a body, and the attributes that hold them. -/
structure DebugWrittenAs (body : MethodBody) (labels : LabelTable) (pool : ConstantPool)
    (tables : CodeTables) (attributes : List Attribute) : Prop where
  lines : List.Forall₂ (fun entry line => encodeLine labels entry = .ok line) body.lines tables.lines
  locals : List.Forall₂ (fun entry row => encodeLocal labels entry pool = .ok row pool)
    body.locals tables.locals
  localTypes : List.Forall₂ (fun entry row => encodeLocal labels entry pool = .ok row pool)
    body.localTypes tables.localTypes
  attributes : ∃ lines locals localTypes, attributes = lines ++ locals ++ localTypes ∧
    storeUnlessEmpty LineNumber.table tables.lines pool = .ok lines pool ∧
    storeUnlessEmpty LocalVariable.table tables.locals pool = .ok locals pool ∧
    storeUnlessEmpty LocalVariable.typeTable tables.localTypes pool = .ok localTypes pool

theorem writtenAs_of_encodeDebug {labels : LabelTable} {start : ConstantPool}
    {attributes : List Attribute} (h : body.encodeDebug labels start = .ok attributes pool)
    (frames : List StackMapFrame) :
    ∃ tables, tables.frames = frames ∧ body.DebugWrittenAs labels pool tables attributes := by
  obtain ⟨lines, hlines, h⟩ := except_bind_run.1 h
  obtain ⟨b, p₁, hb, h⟩ := bind_eq_ok.1 h
  obtain ⟨locals, p₂, hlocals, h⟩ := bind_eq_ok.1 h
  obtain ⟨c, p₃, hc, h⟩ := bind_eq_ok.1 h
  obtain ⟨localTypes, p₄, htypes, h⟩ := bind_eq_ok.1 h
  obtain ⟨d, p₅, hd, h⟩ := bind_eq_ok.1 h
  obtain ⟨rfl, rfl⟩ := pure_eq_ok.1 h
  -- Each step only adds to the pool, so what it gave can be looked at on the last.
  have le₄ := (settled_storeUnlessEmpty _ _ _ _ _ hd).1
  have le₃ := ConstantPool.le_trans (Settled.mapM settled_encodeLocal _ _ _ _ htypes).1 le₄
  have le₂ := ConstantPool.le_trans (settled_storeUnlessEmpty _ _ _ _ _ hc).1 le₃
  have le₁ := ConstantPool.le_trans (Settled.mapM settled_encodeLocal _ _ _ _ hlocals).1 le₂
  refine ⟨⟨frames, lines, locals, localTypes⟩, rfl, mapM_eq_ok.1 hlines, ?_, ?_, b, c, d, rfl, ?_, ?_, ?_⟩
  · exact Settled.mapM_eq_ok settled_encodeLocal
      ((Settled.mapM settled_encodeLocal _ _ _ _ hlocals).2 pool le₂)
  · exact Settled.mapM_eq_ok settled_encodeLocal
      ((Settled.mapM settled_encodeLocal _ _ _ _ htypes).2 pool le₄)
  · exact (settled_storeUnlessEmpty _ _ _ _ _ hb).2 pool le₁
  · exact (settled_storeUnlessEmpty _ _ _ _ _ hc).2 pool le₃
  · exact (settled_storeUnlessEmpty _ _ _ _ _ hd).2 pool (ConstantPool.le_refl pool)

/-- The code that a body was written as, with the pool that is left then. -/
structure WrittenAs (body : MethodBody) (version : Version) (pool : ConstantPool) (code : Code)
    (layout : Layout) (tables : CodeTables) : Prop where
  placed : Layout.compute body.nodes = .ok layout
  envelope : body.envelope = ⟨code.maxStack, code.maxLocals⟩
  short : layout.length ≤ maxCodeLength
  bytes : layout.bytes = .ok code.code
  exceptions : List.Forall₂ (fun handler entry =>
    Handler.encode layout.labels handler pool = .ok entry pool) body.handlers code.exceptions
  frames : version.hasStackMaps = true ∧ body.stackMap layout pool = .ok tables.frames pool ∨
    version.hasStackMaps = false ∧ tables.frames = []
  attributes : ∃ stackMaps debug, code.attributes = stackMaps ++ debug ∧
    storeUnlessEmpty stackMapTable tables.frames pool = .ok stackMaps pool ∧
    body.DebugWrittenAs layout.labels pool tables debug

theorem writtenAs_of_encode {start : ConstantPool}
    (h : body.encodeWithLimit version limit start = .ok code pool) :
    ∃ layout tables, body.WrittenAs version pool code layout tables := by
  obtain ⟨layout, hlayout, h⟩ := except_bind_run.1 h
  split at h
  · exact (throw_bind_ne_ok.1 h).elim
  next hshort =>
  obtain ⟨bytes, hbytes, h⟩ := except_bind_run.1 h
  obtain ⟨exceptions, p, hexceptions, h⟩ := bind_eq_ok.1 h
  have hbound : layout.length ≤ maxCodeLength := by omega
  have hhandlers : p ≤ pool → List.Forall₂ (fun handler entry =>
      Handler.encode layout.labels handler pool = .ok entry pool) body.handlers exceptions := fun hle =>
    Settled.mapM_eq_ok Handler.settled_encode
      ((Settled.mapM Handler.settled_encode _ _ _ _ hexceptions).2 pool hle)
  split at h
  · next hv =>
    obtain ⟨frames, p₁, hframes, h⟩ := bind_eq_ok.1 h
    obtain ⟨stackMaps, p₂, hstackMaps, h⟩ := bind_eq_ok.1 h
    obtain ⟨debug, p₃, hdebug, h⟩ := bind_eq_ok.1 h
    obtain ⟨rfl, rfl⟩ := pure_eq_ok.1 h
    obtain ⟨tables, rfl, htables⟩ := writtenAs_of_encodeDebug hdebug frames
    have le₂ := (body.settled_encodeDebug _ _ _ hdebug).1
    have le₁ := ConstantPool.le_trans (settled_storeUnlessEmpty _ _ _ _ _ hstackMaps).1 le₂
    have le₀ := ConstantPool.le_trans (body.settled_stackMap layout _ _ _ hframes).1 le₁
    exact ⟨layout, tables, hlayout, rfl, hbound, hbytes, hhandlers le₀,
      .inl ⟨hv, (body.settled_stackMap layout _ _ _ hframes).2 pool le₁⟩, stackMaps, debug, rfl,
      (settled_storeUnlessEmpty _ _ _ _ _ hstackMaps).2 pool le₂, htables⟩
  · next hv =>
    obtain ⟨debug, p₃, hdebug, h⟩ := bind_eq_ok.1 (pure_bind_eq_ok.1 h)
    obtain ⟨rfl, rfl⟩ := pure_eq_ok.1 h
    obtain ⟨tables, hnone, htables⟩ := writtenAs_of_encodeDebug hdebug []
    exact ⟨layout, tables, hlayout, rfl, hbound, hbytes,
      hhandlers (body.settled_encodeDebug _ _ _ hdebug).1, .inr ⟨by simpa using hv, hnone⟩, [], debug,
      rfl, hnone ▸ rfl, htables⟩

/-- A body is written as this code again on the pool that is left. -/
theorem WrittenAs.encode_eq_ok (h : body.WrittenAs version pool code layout tables) :
    body.encode version pool = .ok code pool := by
  obtain ⟨stackMaps, debug, hattributes, hstackMaps, hdebug⟩ := h.attributes
  obtain ⟨lines, locals, localTypes, rfl, hlines, hlocals, hlocalTypes⟩ := hdebug.attributes
  have hwritten : body.encodeDebug layout.labels pool = .ok (lines ++ locals ++ localTypes) pool :=
    except_bind_run.2 ⟨_, mapM_eq_ok.2 hdebug.lines, bind_eq_ok.2 ⟨_, pool, hlines,
      bind_eq_ok.2 ⟨_, pool, Settled.mapM_ok hdebug.locals, bind_eq_ok.2 ⟨_, pool, hlocals,
      bind_eq_ok.2 ⟨_, pool, Settled.mapM_ok hdebug.localTypes,
        bind_eq_ok.2 ⟨_, pool, hlocalTypes, rfl⟩⟩⟩⟩⟩⟩
  have hcode : Code.mk body.envelope.maxStack body.envelope.maxLocals code.code code.exceptions
      (stackMaps ++ (lines ++ locals ++ localTypes)) = code := by
    rw [h.envelope, ← hattributes]
  have hroom : ¬min maxCodeLength maxCodeLength < layout.length := by
    rw [Nat.min_self]
    exact Nat.not_lt.2 h.short
  refine except_bind_run.2 ⟨layout, h.placed, ?_⟩
  rw [if_neg hroom]
  refine except_bind_run.2 ⟨_, h.bytes, bind_eq_ok.2 ⟨_, pool, Settled.mapM_ok h.exceptions, ?_⟩⟩
  obtain ⟨hv, hframes⟩ | ⟨hv, hnone⟩ := h.frames
  · rw [if_pos hv]
    exact bind_eq_ok.2 ⟨_, pool, hframes, bind_eq_ok.2 ⟨_, pool, hstackMaps,
      bind_eq_ok.2 ⟨_, pool, hwritten, pure_eq_ok.2 ⟨hcode.symm, rfl⟩⟩⟩⟩
  · rw [hnone] at hstackMaps
    obtain ⟨rfl, -⟩ := pure_eq_ok.1 hstackMaps
    rw [if_neg (by simp [hv])]
    exact bind_eq_ok.2 ⟨[], pool, rfl, bind_eq_ok.2 ⟨_, pool, hwritten,
      pure_eq_ok.2 ⟨hcode.symm, rfl⟩⟩⟩

end MethodBody

namespace Layout

variable {layout : Layout} {nodes : List Node}

/-- Offsets of the instructions, and the one behind the last. -/
def boundaries (layout : Layout) : List Nat :=
  (layout.nodes.filter fun placed => !placed.node.isLabel).map Placed.offset ++ [layout.length]

theorem mem_boundaries_spread (flagged : List (Node × Bool)) (offset : Nat) :
    offset ∈ ((spread offset flagged).filter fun placed => !placed.node.isLabel).map Placed.offset ++
      [reach offset flagged] := by
  induction flagged generalizing offset with
  | nil => exact List.mem_singleton.2 rfl
  | cons first rest ih =>
    obtain ⟨node, wide⟩ := first
    unfold spread reach
    cases node with
    | label l => exact ih offset
    | insn i => exact List.mem_cons_self
    | branch b => exact List.mem_cons_self

/-- An offset of a label is that of an instruction or the end. -/
theorem mem_boundaries_of_marks (hof : layout.IsOf nodes)
    (hnodup : (nodes.filterMap Node.label?).Nodup) {offset : Nat} (h : layout.labels.Marks offset) :
    offset ∈ layout.boundaries ∧ offset ≤ layout.length := by
  obtain ⟨label, ho⟩ := h
  have ho := LabelTable.offset_eq_ok.1 ho
  by_cases hl : .label label ∈ nodes
  · obtain ⟨before, after, hsplit⟩ := List.append_of_mem hl
    obtain ⟨front, back, wide, -, -, hnodes, hlength, hoffset⟩ := hof.offset? hnodup hsplit
    rw [hoffset] at ho
    cases ho
    unfold boundaries
    rw [hnodes, hlength, spread_append, reach_append, List.filter_append, List.map_append,
      List.append_assoc]
    exact ⟨List.mem_append_right _ (mem_boundaries_spread _ _), le_reach _ _⟩
  · rw [hof.offset?_eq_none hl] at ho
    cases ho

end Layout

theorem OffsetFrames.hasOffset_of_checkTargets {layout : Layout} {frames : OffsetFrames}
    {targets : List Label} (h : frames.checkTargets layout targets = .ok ()) :
    ∀ target ∈ targets, ∃ offset, layout.labels.offset target = .ok offset ∧
      frames.hasOffset offset = true := by
  induction targets with
  | nil => exact nofun
  | cons target rest ih =>
    obtain ⟨_, hfirst, hrest⟩ := except_bind_eq_ok.1 h
    obtain ⟨offset, ho, hfirst⟩ := except_bind_eq_ok.1 hfirst
    refine List.forall_mem_cons.2 ⟨⟨offset, ho, ?_⟩, ih hrest⟩
    split at hfirst
    · next hhas => exact hhas
    · cases hfirst

namespace MethodBody

open VerificationType (erase)

variable {body : MethodBody} {version : Version} {limit : Nat} {pool : ConstantPool} {code : Code}
  {layout : Layout} {tables : CodeTables}

/-- The counts of the tables, and of the types in each frame, fit their two bytes. -/
structure Fits (body : MethodBody) : Prop where
  handlers : body.handlers.length < 65536
  lines : body.lines.length < 65536
  locals : body.locals.length < 65536
  localTypes : body.localTypes.length < 65536
  frames : ∀ entry ∈ body.frames, entry.2.compactLocals.length < 65536 ∧
    entry.2.stack.length < 65536

theorem written_of_stackMap (hbound : ∀ offset, layout.labels.Marks offset → offset ≤ layout.length)
    (hshort : layout.length ≤ 65535) {frames : List StackMapFrame}
    (h : body.stackMap layout pool = .ok frames pool) :
    ∃ placed entry, OffsetFrames.ofLabels layout body.frames = .ok placed ∧
      StackMapsWritten layout.labels pool placed entry none frames ∧
      body.shape.entryFrame.compactLocals.map erase = entry.compactLocals.map erase ∧
      placed.length < 65536 ∧ (∀ e ∈ placed, layout.labels.Marks e.1) ∧
      ∀ target ∈ body.jumpTargets, ∀ offset, layout.labels.offset target = .ok offset →
        offset ≠ layout.length := by
  obtain ⟨placed, entry, hplaced, htargets, -, hentry, h⟩ := stackMap_eq_ok.1 h
  have bounded : ∀ offset, layout.labels.Marks offset → offset ≤ 65535 := fun offset hm =>
    Nat.le_trans (hbound offset hm) hshort
  have hmarks : ∀ e ∈ placed, layout.labels.Marks e.1 := fun e hm => by
    obtain ⟨label, -, ho, -⟩ := OffsetFrames.mem_ofLabels hplaced hm
    exact ⟨label, LabelTable.offset_eq_ok.2 ho⟩
  have hsorted := OffsetFrames.sorted_ofLabels hplaced
  obtain ⟨written, rfl, hwritten⟩ := OffsetFrames.written_of_compress bounded h hsorted
    (fun e hm => bounded e.1 (hmarks e hm)) nofun
  refine ⟨placed, entry, hplaced, hwritten, ?_, ?_, hmarks, fun target ht offset ho => ?_⟩
  · exact (Frame.map_erase_compactLocals (EditFrame.written_of_store bounded hentry).2.1).symm
  · have hbelow : ∀ e ∈ placed, 0 ≤ e.1 ∧ e.1 < layout.length := fun e hm => by
      obtain ⟨label, -, -, hne⟩ := OffsetFrames.mem_ofLabels hplaced hm
      exact ⟨Nat.zero_le _, Nat.lt_of_le_of_ne (hbound e.1 (hmarks e hm)) hne⟩
    have hlength := hsorted.length_le hbelow (Nat.zero_le _)
    omega
  · obtain ⟨found, hfound, hhas⟩ := OffsetFrames.hasOffset_of_checkTargets htargets target ht
    rw [ho] at hfound
    cases hfound
    obtain ⟨frame, hm⟩ := (OffsetFrames.hasOffset_iff _ _).1 hhas
    obtain ⟨label, -, -, hne⟩ := OffsetFrames.mem_ofLabels hplaced hm
    exact hne

theorem length_stackMapOffsets (previous : Option Nat) (frames : List StackMapFrame) :
    (stackMapOffsets previous frames).length = frames.length := by
  induction frames generalizing previous with
  | nil => rfl
  | cons first rest ih =>
    unfold stackMapOffsets
    rw [List.length_cons, List.length_cons, ih]

/-- Behind a label that does not end the code there is an instruction. -/
theorem exists_behind {nodes : List Node} {label : Label} (hm : .label label ∈ nodes)
    (hend : label ∉ Builder.trailing nodes.reverse) :
    ∃ before after, nodes = before ++ .label label :: after ∧ ∃ node ∈ after, node.isLabel = false := by
  obtain ⟨before, after, hsplit⟩ := List.append_of_mem hm
  refine ⟨before, after, hsplit, ?_⟩
  by_contra hnone
  have hall : ∀ node ∈ after.reverse ++ [.label label], node.isLabel = true := by
    intro node hn
    rcases List.mem_append.1 hn with hn | hn
    · by_contra hl
      exact hnone ⟨node, List.mem_reverse.1 hn, by simpa using hl⟩
    · rw [List.mem_singleton.1 hn]
      rfl
  refine hend ?_
  unfold Builder.trailing
  rw [hsplit, List.reverse_append, List.reverse_cons, List.takeWhile_append_of_pos hall]
  exact List.mem_filterMap.2 ⟨.label label, List.mem_append_left _ (List.mem_append_right _
    List.mem_cons_self), rfl⟩

/-- The entries that are read have the offsets of the instructions, and lead to labels. -/
theorem resolved_entries {labels : LabelTable} {placed : List Placed} {entries : List (Nat × Decoded)}
    (h : List.Forall₂ (Placed.Resolved labels) placed entries) :
    entries.map Prod.fst = placed.map Placed.offset ∧
      ∀ entry ∈ entries, ∀ target ∈ entry.2.targets, labels.Marks target := by
  constructor
  · induction h with
    | nil => rfl
    | cons first _ ih => rw [List.map_cons, List.map_cons, first.1, ih]
  · intro entry hm target ht
    obtain ⟨node, -, -, hresolved⟩ := exists_left_of_mem h hm
    obtain ⟨insn, -, he⟩ | ⟨branch, found, -, hfound, he⟩ := hresolved
    · rw [he] at ht
      cases ht
    · rw [he] at ht
      obtain ⟨label, -, hl⟩ := exists_left_of_mem (Branch.mapM_eq_ok hfound).1 ht
      exact ⟨label, hl⟩

/-- What is needed to take up the stack maps of code again. -/
structure StackMapsRead (labels : LabelTable) (pool : ConstantPool) (shape : MethodShape)
    (frames : List StackMapFrame) : Prop where
  length : frames.length < 65536
  fits : ∀ frame ∈ frames, frame.Fits
  offsets : ∀ entry ∈ stackMapOffsets none frames, labels.Marks entry.1
  types : ∀ entry ∈ stackMapOffsets none frames, ∀ type ∈ entry.2.types,
    StoredType.Written labels pool type
  taken : ∀ known : OffsetLabels, known.Covers (stackMapOffsets none frames) →
    ∃ table, known.frames pool (stackMapOffsets none frames) shape.entryFrame [] = .ok table

/-- Where there are stack maps, each target has a frame and so is inside. -/
theorem WrittenAs.stackMaps (h : body.WrittenAs version pool code layout tables)
    (hbound : ∀ offset, layout.labels.Marks offset → offset ≤ layout.length)
    (fits : ∀ entry ∈ body.frames, entry.2.compactLocals.length < 65536 ∧
      entry.2.stack.length < 65536) :
    StackMapsRead layout.labels pool body.shape tables.frames ∧
      (version.hasStackMaps = true → ∀ target ∈ body.jumpTargets, ∀ offset,
        layout.labels.offset target = .ok offset → offset ≠ layout.length) := by
  obtain ⟨hv, hmaps⟩ | ⟨hv, hnone⟩ := h.frames
  · obtain ⟨placed, entry, hplaced, hwritten, hentry, hlength, hmarks, hinside⟩ :=
      written_of_stackMap hbound h.short hmaps
    have hcount : tables.frames.length = placed.length := by
      rw [← length_stackMapOffsets none, ← List.length_map (f := Prod.fst), hwritten.offsets,
        List.length_map]
    have hfits : ∀ e ∈ placed, e.2.compactLocals.length < 65536 ∧ e.2.stack.length < 65536 :=
      fun e hm => by
        obtain ⟨label, hf, -⟩ := OffsetFrames.mem_ofLabels hplaced hm
        exact fits (label, e.2) hf
    refine ⟨⟨hcount ▸ hlength, hwritten.fits hfits, fun e hm => ?_, hwritten.types, fun known hcovers =>
      hwritten.taken known hcovers _ [] hentry⟩, fun _ => hinside⟩
    have hfst : e.1 ∈ placed.map Prod.fst := hwritten.offsets ▸ List.mem_map_of_mem hm
    obtain ⟨found, hf, he⟩ := List.mem_map.1 hfst
    exact he ▸ hmarks found hf
  · rw [hnone]
    refine ⟨⟨Nat.zero_lt_succ _, nofun, nofun, nofun, fun known _ => ⟨[], rfl⟩⟩, fun hv' => ?_⟩
    rw [hv] at hv'
    cases hv'

/-- Labels of what was written are at instructions or at the end. -/
theorem WrittenAs.mem_boundaries (h : body.WrittenAs version pool code layout tables) {offset : Nat}
    (hm : layout.labels.Marks offset) : offset ∈ layout.boundaries ∧ offset ≤ layout.length := by
  obtain ⟨hof, hnodup⟩ := Layout.isOf_of_compute h.placed
  exact Layout.mem_boundaries_of_marks hof hnodup hm

theorem WrittenAs.bounded (h : body.WrittenAs version pool code layout tables) (offset : Nat)
    (hm : layout.labels.Marks offset) : offset ≤ 65535 :=
  Nat.le_trans (h.mem_boundaries hm).2 h.short

/-- The code that was written is read as the instructions of the layout. -/
theorem WrittenAs.readAll_ok (h : body.WrittenAs version pool code layout tables) (fits : body.Fits)
    (sized : body.TablesSized) (inside : version.hasStackMaps = false → body.JumpsInside) :
    code.code.length = layout.length ∧ ∃ entries, Decoded.readAll code.code = .ok entries ∧
      List.Forall₂ (Placed.Resolved layout.labels)
        (layout.nodes.filter fun placed => !placed.node.isLabel) entries := by
  obtain ⟨hof, hnodup⟩ := Layout.isOf_of_compute h.placed
  obtain ⟨-, hframed⟩ := h.stackMaps (fun offset hm => (h.mem_boundaries hm).2) fits.frames
  refine Decoded.readAll_bytes hof h.bytes h.short sized fun node hn label hl target ht => ?_
  refine Nat.lt_of_le_of_ne (h.mem_boundaries ⟨label, ht⟩).2 ?_
  cases hv : version.hasStackMaps with
  | true =>
    exact hframed hv label (List.mem_append_left _ (List.mem_flatMap.2 ⟨node, hn, hl⟩)) target ht
  | false =>
    have ho := LabelTable.offset_eq_ok.1 ht
    have hplaced : .label label ∈ body.nodes := by
      by_contra hnone
      rw [hof.offset?_eq_none hnone] at ho
      cases ho
    cases node with
    | branch branch =>
      obtain ⟨before, after, hsplit, behind, hb, hplain⟩ :=
        exists_behind hplaced (inside hv branch hn label hl)
      exact offset_ne_length hof hnodup hsplit hb hplain ho
    | label other => cases hl
    | insn insn => cases hl

/-- The tables that were written are read from the attributes. -/
theorem WrittenAs.fold_attributes (h : body.WrittenAs version pool code layout tables)
    (fits : body.Fits) : code.attributes.foldlM (CodeTables.add pool) .empty = .ok tables := by
  obtain ⟨hmaps, -⟩ := h.stackMaps (fun offset hm => (h.mem_boundaries hm).2) fits.frames
  obtain ⟨stackMaps, debug, hattributes, hstackMaps, hdebug⟩ := h.attributes
  obtain ⟨lines, locals, localTypes, rfl, hlines, hlocals, hlocalTypes⟩ := hdebug.attributes
  rw [hattributes, ← List.append_assoc, ← List.append_assoc, List.foldlM_append,
    List.foldlM_append, List.foldlM_append]
  have hread : stackMaps.foldlM (CodeTables.add pool) .empty =
      .ok { CodeTables.empty with frames := tables.frames } :=
    CodeTables.fold_stackMaps (holdsTable_of_store hstackMaps) hmaps.length hmaps.fits rfl
  exact except_bind_eq_ok.2 ⟨_, except_bind_eq_ok.2 ⟨_, except_bind_eq_ok.2 ⟨_, hread,
    CodeTables.fold_lines (holdsTable_of_store hlines) (hdebug.lines.length_eq ▸ fits.lines)⟩,
    CodeTables.fold_locals (holdsTable_of_store hlocals) (hdebug.locals.length_eq ▸ fits.locals)⟩,
    CodeTables.fold_localTypes (holdsTable_of_store hlocalTypes) (hdebug.localTypes.length_eq ▸ fits.localTypes)⟩

/-- What was written can be decoded, if the tables fit and no jump leads to the end. -/
theorem WrittenAs.decode_ok (h : body.WrittenAs version pool code layout tables) (fits : body.Fits)
    (sized : body.TablesSized) (inside : version.hasStackMaps = false → body.JumpsInside) :
    ∃ out, decode code pool body.shape = .ok out := by
  obtain ⟨hmaps, -⟩ := h.stackMaps (fun offset hm => (h.mem_boundaries hm).2) fits.frames
  obtain ⟨hlength, entries, hentries, hresolved⟩ := h.readAll_ok fits sized inside
  obtain ⟨hoffsets, htargets⟩ := resolved_entries hresolved
  obtain ⟨stackMaps, debug, -, -, hdebug⟩ := h.attributes
  have hboundaries : layout.boundaries = entries.map Prod.fst ++ [code.code.length] := by
    unfold Layout.boundaries
    rw [hoffsets, hlength]
  have hexceptions : ∀ entry ∈ code.exceptions, entry.Written layout.labels pool := fun entry hm => by
    obtain ⟨handler, -, hencode⟩ := exists_left_of_mem h.exceptions hm
    exact Handler.written_of_encode h.bounded hencode
  have hrows : ∀ entry ∈ tables.locals ++ tables.localTypes,
      LocalVariable.Written layout.labels pool entry := fun entry hm => by
    rcases List.mem_append.1 hm with hm | hm
    · obtain ⟨_, -, hencode⟩ := exists_left_of_mem hdebug.locals hm
      exact written_of_encodeLocal h.bounded hencode
    · obtain ⟨_, -, hencode⟩ := exists_left_of_mem hdebug.localTypes hm
      exact written_of_encodeLocal h.bounded hencode
  have hmarks : ∀ offset ∈ references entries code tables (stackMapOffsets none tables.frames),
      layout.labels.Marks offset := by
    intro offset hm
    obtain ⟨entry, he, ht⟩ | ⟨entry, he, rfl | rfl | rfl⟩ | ⟨entry, he, rfl | ⟨allocation, ha, rfl⟩⟩ |
      ⟨entry, he, rfl⟩ | ⟨entry, he, rfl | rfl⟩ := mem_references.1 hm
    · exact htargets entry he offset ht
    · exact (hexceptions entry he).start
    · exact (hexceptions entry he).stop
    · exact (hexceptions entry he).handler
    · exact hmaps.offsets entry he
    · exact (hmaps.types entry he _ ha).allocated allocation rfl
    · obtain ⟨_, -, hencode⟩ := exists_left_of_mem hdebug.lines he
      exact LabelTable.marks_of_index h.bounded (encodeLine_eq_ok.1 hencode).1
    · exact (hrows entry he).start
    · exact (hrows entry he).stop
  refine MethodBody.decode_ok hentries (h.fold_attributes fits)
    (fun offset hm => hboundaries ▸ (h.mem_boundaries (hmarks offset hm)).1)
    (fun entry hm => ⟨(hexceptions entry hm).range, (hexceptions entry hm).catches⟩)
    (fun known hknown => hmaps.taken known fun entry hm => ⟨?_, fun allocation ha => ?_⟩)
    fun entry hm => ⟨(hrows entry hm).name, (hrows entry hm).descriptor⟩
  · exact hknown _ (mem_references.2 (.inr (.inr (.inl ⟨entry, hm, .inl rfl⟩))))
  · exact hknown _ (mem_references.2 (.inr (.inr (.inl ⟨entry, hm, .inr ⟨allocation, ha, rfl⟩⟩))))

end MethodBody

end ClassWeave
