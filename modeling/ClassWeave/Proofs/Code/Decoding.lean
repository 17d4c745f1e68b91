import ClassWeave.Proofs.Code.Offsets
import ClassWeave.Proofs.Code.Reading
import ClassWeave.Proofs.Code.Soundness

/-!
What decoding gives. A jump that was read leads to an instruction, and the table of a switch that was
read has the size that its bounds tell, so both can be written and read again.
-/

namespace ClassWeave

section Yields

variable {α β : Type}

/-- Every value that the reader gives has the property. -/
def Yields (reader : CodeReader α) (P : α → Prop) : Prop :=
  ∀ cursor value next, reader cursor = .ok (value, next) → P value

namespace Yields

variable {P : α → Prop} {Q : β → Prop}

theorem pure {a : α} (h : P a) : Yields (Pure.pure a) P := fun _ _ _ hr => by
  obtain ⟨rfl, -⟩ := stateT_pure_eq_ok.1 hr
  exact h

theorem throw (problem : ClassError) : Yields (throw problem) P := fun _ _ _ hr =>
  (stateT_throw_ne_ok.1 hr).elim

theorem bind {reader : CodeReader α} {next : α → CodeReader β} (hr : Yields reader P)
    (hn : ∀ a, P a → Yields (next a) Q) : Yields (reader >>= next) Q := fun cursor b rest h => by
  obtain ⟨a, middle, ha, hb⟩ := stateT_bind_eq_ok.1 h
  exact hn a (hr cursor a middle ha) middle b rest hb

/-- An operand of which nothing is said. -/
theorem skip {reader : CodeReader α} {next : α → CodeReader β} (hn : ∀ a, Yields (next a) Q) :
    Yields (reader >>= next) Q := fun _ b rest h => by
  obtain ⟨a, middle, -, hb⟩ := stateT_bind_eq_ok.1 h
  exact hn a middle b rest hb

theorem map {reader : CodeReader α} {f : α → β} (hr : Yields reader P) (hf : ∀ a, P a → Q (f a)) :
    Yields (reader >>= fun a => Pure.pure (f a)) Q := .bind hr fun a ha => .pure (hf a ha)

theorem ite {p : Prop} [Decidable p] {a b : CodeReader α} (ha : p → Yields a P)
    (hb : ¬p → Yields b P) : Yields (if p then a else b) P := by
  split
  · next h => exact ha h
  · next h => exact hb h

end Yields

end Yields

namespace Site

variable (site : Site)

/-- The table of the branch has the size that its bounds tell, and all its jumps stay inside. -/
def Keeps (branch : Branch Nat) : Prop :=
  branch.Sized ∧ ∀ target ∈ branch.jumpTargets, target < site.length

theorem yields_target (relative : Int) : Yields (site.target relative) (· < site.length) := by
  unfold target
  refine .ite (fun h => .pure ?_) fun _ => .throw _
  omega

theorem yields_target16 : Yields site.target16 (· < site.length) :=
  .skip fun relative => site.yields_target relative.toInt

theorem yields_target32 : Yields site.target32 (· < site.length) :=
  .skip fun relative => site.yields_target relative.toInt

theorem yields_repeatOnto {α : Type} {item : CodeReader α} {P : α → Prop} (hitem : Yields item P)
    (count : Nat) {found : List α} (hfound : ∀ value ∈ found, P value) :
    Yields (repeatOnto item count found)
      fun values => values.length = found.length + count ∧ ∀ value ∈ values, P value := by
  induction count generalizing found with
  | zero =>
    intro cursor values next h
    cases h
    exact ⟨List.length_reverse, fun value hm => hfound value (List.mem_reverse.1 hm)⟩
  | succ count ih =>
    intro cursor values next h
    unfold repeatOnto at h
    split at h
    · next value middle hvalue =>
      have hnext : ∀ v ∈ value :: found, P v :=
        List.forall_mem_cons.2 ⟨hitem cursor value middle hvalue, hfound⟩
      obtain ⟨hlength, hall⟩ := ih hnext middle values next h
      refine ⟨?_, hall⟩
      rw [hlength, List.length_cons]
      omega
    · cases h

theorem yields_tableSwitch : Yields site.tableSwitch site.Keeps := by
  refine .skip fun _ => .bind site.yields_target32 fun default hdefault => .skip fun low =>
    .skip fun high => .ite (fun _ => .bind (P := fun _ => False) (.throw _) nofun) fun hordered =>
    .map (yields_repeatOnto site.yields_target32 _ (by simp)) fun targets htargets => ?_
  have hle : low.toInt ≤ high.toInt := by
    rw [Int32.lt_iff_toInt_lt] at hordered
    omega
  have hmax := high.toInt_lt
  have hcount : targets.length = (high.toInt - low.toInt + 1).toNat := by
    rw [htargets.1, List.length_nil, Nat.zero_add]
  refine ⟨⟨fun hnil => ?_, ?_⟩, List.forall_mem_cons.2 ⟨hdefault, htargets.2⟩⟩
  · rw [hnil, List.length_nil] at hcount
    omega
  · omega

theorem yields_lookupSwitch : Yields site.lookupSwitch site.Keeps := by
  refine .skip fun _ => .bind site.yields_target32 fun default hdefault => .skip fun count =>
    .ite (fun _ => .bind (P := fun _ => False) (.throw _) nofun) fun _ =>
    .map (yields_repeatOnto (P := fun pair => pair.2 < site.length) ?_ _ (by simp))
      fun targets htargets => ?_
  · exact .skip fun key => .map site.yields_target32 fun _ h => h
  · refine ⟨trivial, List.forall_mem_cons.2 ⟨hdefault, fun target hm => ?_⟩⟩
    obtain ⟨pair, hp, rfl⟩ := List.mem_map.1 hm
    exact htargets.2 pair hp

theorem yields_branch (opcode : UInt8) : Yields (site.branch opcode) site.Keeps := by
  have jump : ∀ make : Nat → Branch Nat, (∀ t, (make t).Sized ∧ (make t).jumpTargets = [t]) →
      Yields (do return make (← site.target16)) site.Keeps := fun make hmake =>
    .map site.yields_target16 fun t ht => ⟨(hmake t).1, by
      rw [(hmake t).2]
      exact List.forall_mem_singleton.2 ht⟩
  unfold branch
  refine .ite (fun _ => jump _ fun t => ⟨trivial, rfl⟩) fun _ => ?_
  refine .ite (fun _ => jump _ fun t => ⟨trivial, rfl⟩) fun _ => ?_
  refine .ite (fun _ => jump _ fun t => ⟨trivial, rfl⟩) fun _ => ?_
  refine .ite (fun _ => jump _ fun t => ⟨trivial, rfl⟩) fun _ => ?_
  refine .ite (fun _ => site.yields_tableSwitch) fun _ => ?_
  refine .ite (fun _ => site.yields_lookupSwitch) fun _ => ?_
  refine .ite (fun _ => .pure ⟨trivial, by simp [Branch.jumpTargets]⟩) fun _ => ?_
  refine .ite (fun _ => .pure ⟨trivial, by simp [Branch.jumpTargets]⟩) fun _ => ?_
  refine .ite (fun _ => .pure ⟨trivial, by simp [Branch.jumpTargets]⟩) fun _ => ?_
  refine .ite (fun _ => jump _ fun t => ⟨trivial, rfl⟩) fun _ => ?_
  refine .ite (fun _ => .map site.yields_target32 fun t ht => ⟨trivial, ?_⟩) fun _ => .throw _
  exact List.forall_mem_singleton.2 ht

theorem yields_decoded :
    Yields site.decoded fun decoded => ∀ branch, decoded = .branch branch → site.Keeps branch := by
  refine .skip fun opcode => .ite (fun _ => .skip fun _ => .pure nofun) fun _ =>
    .ite (fun _ => .skip fun _ => .pure nofun) fun _ => .map (site.yields_branch opcode) ?_
  rintro branch hkeeps _ ⟨⟩
  exact hkeeps

end Site

theorem Decoded.mem_readAll {code : Bytes} {entries : List (Nat × Decoded)}
    (h : readAll code = .ok entries) {branch : Branch Nat} {offset : Nat}
    (hm : (offset, .branch branch) ∈ entries) :
    branch.Sized ∧ ∀ target ∈ branch.jumpTargets, target < code.length := by
  have onto : ∀ (fuel : Nat) (found : List (Nat × Decoded)) (cursor : Cursor),
      (∀ o b, (o, Decoded.branch b) ∈ found → (Site.mk 0 code.length).Keeps b) →
      readOnto code.length fuel found cursor = .ok entries →
      ∀ o b, (o, Decoded.branch b) ∈ entries → (Site.mk 0 code.length).Keeps b := by
    intro fuel
    induction fuel with
    | zero =>
      intro found cursor hfound h o b hb
      cases h
      exact hfound o b (List.mem_reverse.1 hb)
    | succ fuel ih =>
      intro found cursor hfound h
      unfold readOnto at h
      split at h
      · intro o b hb
        cases h
        exact hfound o b (List.mem_reverse.1 hb)
      · split at h
        · next decoded next hread =>
          refine ih _ next (fun o b hb => ?_) h
          rcases List.mem_cons.1 hb with he | hb
          · cases he
            exact (Site.mk _ code.length).yields_decoded cursor _ next hread b rfl
          · exact hfound o b hb
        · cases h
  exact onto _ _ _ (by simp) h offset branch hm

namespace Branch

variable {T U : Type} {f : T → Except ClassError U}

/-- Translating the targets keeps the branch but for them. -/
theorem mapM_eq_ok {branch : Branch T} {out : Branch U} (h : branch.mapM f = .ok out) :
    List.Forall₂ (fun target found => f target = .ok found) branch.jumpTargets out.jumpTargets ∧
      (branch.Sized → out.Sized) := by
  cases branch with
  | tableSwitch default low targets =>
    obtain ⟨first, hfirst, h⟩ := except_bind_eq_ok.1 h
    obtain ⟨rest, hrest, h⟩ := except_bind_eq_ok.1 h
    cases h
    have hall := ClassWeave.mapM_eq_ok.1 hrest
    refine ⟨.cons hfirst hall, fun ⟨hne, hbound⟩ => ⟨?_, hall.length_eq ▸ hbound⟩⟩
    rintro rfl
    exact hne (List.forall₂_nil_right_iff.1 hall)
  | lookupSwitch default targets =>
    obtain ⟨first, hfirst, h⟩ := except_bind_eq_ok.1 h
    obtain ⟨rest, hrest, h⟩ := except_bind_eq_ok.1 h
    cases h
    refine ⟨.cons hfirst ?_, fun _ => trivial⟩
    rw [List.forall₂_map_left_iff, List.forall₂_map_right_iff]
    refine (ClassWeave.mapM_eq_ok.1 hrest).imp fun pair found hp => ?_
    obtain ⟨target, ht, hp⟩ := except_bind_eq_ok.1 hp
    cases hp
    exact ht
  | «return» kind =>
    cases h
    exact ⟨.nil, id⟩
  | raise =>
    cases h
    exact ⟨.nil, id⟩
  | _ =>
    obtain ⟨target, ht, h⟩ := except_bind_eq_ok.1 h
    cases h
    exact ⟨.cons ht .nil, fun _ => trivial⟩

theorem mapM_ok {branch : Branch T} (h : ∀ target ∈ branch.jumpTargets, ∃ found, f target = .ok found) :
    ∃ out, branch.mapM f = .ok out := by
  cases branch with
  | tableSwitch default low targets =>
    obtain ⟨first, hfirst⟩ := h default List.mem_cons_self
    obtain ⟨rest, hrest⟩ := Layout.mapM_ok fun target ht => h target (List.mem_cons_of_mem _ ht)
    exact ⟨_, except_bind_eq_ok.2 ⟨first, hfirst, except_bind_eq_ok.2 ⟨rest, hrest, rfl⟩⟩⟩
  | lookupSwitch default targets =>
    obtain ⟨first, hfirst⟩ := h default List.mem_cons_self
    have hpairs : ∀ pair ∈ targets,
        ∃ out, (do return (pair.1, ← f pair.2) : Except ClassError (Int32 × U)) = .ok out := by
      intro pair hp
      obtain ⟨found, hfound⟩ := h pair.2 (List.mem_cons_of_mem _ (List.mem_map_of_mem hp))
      exact ⟨_, except_bind_eq_ok.2 ⟨found, hfound, rfl⟩⟩
    obtain ⟨rest, hrest⟩ := Layout.mapM_ok hpairs
    exact ⟨_, except_bind_eq_ok.2 ⟨first, hfirst, except_bind_eq_ok.2 ⟨rest, hrest, rfl⟩⟩⟩
  | «return» kind => exact ⟨_, rfl⟩
  | raise => exact ⟨_, rfl⟩
  | _ =>
    obtain ⟨target, ht⟩ := h _ List.mem_cons_self
    exact ⟨_, except_bind_eq_ok.2 ⟨target, ht, rfl⟩⟩

end Branch

namespace OffsetLabels

variable {labels : OffsetLabels}

theorem nodesOnto_ok {entries : List (Nat × Decoded)}
    (h : ∀ entry ∈ entries, ∀ target ∈ entry.2.targets, ∃ label, labels.label target = .ok label)
    (done : List Node) : ∃ nodes, labels.nodesOnto entries done = .ok nodes := by
  induction entries generalizing done with
  | nil => exact ⟨done, rfl⟩
  | cons entry rest ih =>
    obtain ⟨offset, decoded⟩ := entry
    have hnode : ∃ node, labels.node decoded = .ok node := by
      cases decoded with
      | insn insn => exact ⟨_, rfl⟩
      | branch branch =>
        obtain ⟨found, hfound⟩ := Branch.mapM_ok (h _ List.mem_cons_self)
        exact ⟨_, except_bind_eq_ok.2 ⟨found, hfound, rfl⟩⟩
    obtain ⟨node, hnode⟩ := hnode
    unfold nodesOnto
    rw [hnode]
    exact ih (fun e he => h e (List.mem_cons_of_mem _ he)) _

/-- Every branch among the nodes was read, and no label follows the last instruction that was. -/
theorem nodesOnto_eq_ok {entries : List (Nat × Decoded)} {done nodes : List Node}
    (h : labels.nodesOnto entries done = .ok nodes) :
    (∀ branch, .branch branch ∈ nodes → .branch branch ∈ done ∨ ∃ offset found,
      (offset, .branch found) ∈ entries ∧ found.mapM labels.label = .ok branch) ∧
      (Builder.trailing done = [] → Builder.trailing nodes = []) := by
  induction entries generalizing done with
  | nil =>
    cases h
    exact ⟨fun _ => .inl, id⟩
  | cons entry rest ih =>
    obtain ⟨offset, decoded⟩ := entry
    unfold nodesOnto at h
    dsimp only at h
    split at h
    · next node hnode =>
      obtain ⟨hbranch, htrailing⟩ := ih h
      have hplain : node.isLabel = false := by
        cases decoded with
        | insn insn =>
          cases hnode
          rfl
        | branch branch =>
          obtain ⟨found, -, hnode⟩ := except_bind_eq_ok.1 hnode
          cases hnode
          rfl
      refine ⟨fun branch hm => ?_, fun _ => htrailing ?_⟩
      · rcases hbranch branch hm with hm | ⟨o, found, he, hf⟩
        · rcases List.mem_cons.1 hm with he | hm
          · cases decoded with
            | insn insn =>
              cases hnode
              cases he
            | branch read =>
              obtain ⟨found, hfound, hnode⟩ := except_bind_eq_ok.1 hnode
              cases hnode
              cases he
              exact .inr ⟨offset, read, List.mem_cons_self, hfound⟩
          · split at hm
            · rcases List.mem_cons.1 hm with he | hm
              · cases he
              · exact .inl hm
            · exact .inl hm
        · exact .inr ⟨o, found, List.mem_cons_of_mem _ he, hf⟩
      · unfold Builder.trailing
        rw [List.takeWhile_cons_of_neg (by simp [hplain])]
        rfl
    · cases h

end OffsetLabels

namespace MethodBody

variable {code : Code} {pool : ConstantPool} {shape : MethodShape} {body : MethodBody}

/-- The switches have tables of the size that their bounds tell. -/
def TablesSized (body : MethodBody) : Prop :=
  ∀ branch, .branch branch ∈ body.nodes → branch.Sized

/-- No branch leads to the end of the code. -/
def JumpsInside (body : MethodBody) : Prop :=
  ∀ branch : Branch Label, .branch branch ∈ body.nodes → ∀ target ∈ branch.jumpTargets,
    target ∉ Builder.trailing body.nodes.reverse

/-- What a body is decoded from: the instructions and the tables that are read, and a label for each
offset that they refer to. -/
structure DecodedAs (code : Code) (pool : ConstantPool) (shape : MethodShape) (body : MethodBody)
    (entries : List (Nat × Decoded)) (tables : CodeTables) (labels : OffsetLabels) : Prop where
  read : Decoded.readAll code.code = .ok entries
  attributes : code.attributes.foldlM (CodeTables.add pool) .empty = .ok tables
  known : OffsetLabels.ofReferences (entries.map Prod.fst ++ [code.code.length])
    (references entries code tables (stackMapOffsets none tables.frames)) = .ok labels
  nodes : ∃ nodes, labels.nodesOnto entries [] = .ok nodes ∧ body.nodes =
    (match labels.at? code.code.length with
      | some label => Node.label label :: nodes
      | none => nodes).reverse
  handlers : code.exceptions.mapM (labels.handler pool) = .ok body.handlers
  frames : labels.frames pool (stackMapOffsets none tables.frames) shape.entryFrame [] = .ok body.frames
  lines : tables.lines.mapM labels.lineEntry = .ok body.lines
  locals : tables.locals.mapM (labels.localEntry pool) = .ok body.locals
  localTypes : tables.localTypes.mapM (labels.localEntry pool) = .ok body.localTypes
  shape : body.shape = shape
  envelope : body.envelope = ⟨code.maxStack, code.maxLocals⟩
  supply : body.labels = ⟨labels.count⟩

theorem decodedAs_of_decode (h : decode code pool shape = .ok body) :
    ∃ entries tables labels, DecodedAs code pool shape body entries tables labels := by
  obtain ⟨entries, hentries, h⟩ := except_bind_eq_ok.1 h
  obtain ⟨tables, htables, h⟩ := except_bind_eq_ok.1 h
  obtain ⟨labels, hlabels, h⟩ := except_bind_eq_ok.1 h
  obtain ⟨nodes, hnodes, h⟩ := except_bind_eq_ok.1 h
  obtain ⟨handlers, hhandlers, h⟩ := except_bind_eq_ok.1 h
  obtain ⟨frames, hframes, h⟩ := except_bind_eq_ok.1 h
  obtain ⟨lines, hlines, h⟩ := except_bind_eq_ok.1 h
  obtain ⟨locals, hlocals, h⟩ := except_bind_eq_ok.1 h
  obtain ⟨localTypes, hlocalTypes, h⟩ := except_bind_eq_ok.1 h
  cases h
  exact ⟨entries, tables, labels, hentries, htables, hlabels, ⟨nodes, hnodes, rfl⟩, hhandlers, hframes,
    hlines, hlocals, hlocalTypes, rfl, rfl, rfl⟩

/-- A body that was decoded has the shape it was decoded for, and its branches can be read again. -/
theorem keeps_of_decode (h : decode code pool shape = .ok body) :
    body.shape = shape ∧ body.TablesSized ∧ body.JumpsInside := by
  obtain ⟨entries, tables, labels, h⟩ := decodedAs_of_decode h
  have hentries := h.read
  have hlabels := h.known
  obtain ⟨nodes, hnodes, hbody⟩ := h.nodes
  obtain ⟨hread, htrailing⟩ := OffsetLabels.nodesOnto_eq_ok hnodes
  have hbranch : ∀ branch : Branch Label, .branch branch ∈ nodes → branch.Sized ∧
      ∀ target ∈ branch.jumpTargets, ∃ offset < code.code.length,
        labels.at? offset = some target := by
    intro branch hm
    obtain ⟨offset, found, he, hfound⟩ := (hread branch hm).resolve_left (by simp)
    obtain ⟨hsized, hinside⟩ := Decoded.mem_readAll hentries he
    obtain ⟨htargets, hkept⟩ := Branch.mapM_eq_ok hfound
    refine ⟨hkept hsized, fun target ht => ?_⟩
    obtain ⟨offset, ho, hl⟩ := exists_left_of_mem htargets ht
    exact ⟨offset, hinside offset ho, OffsetLabels.label_eq_ok.1 hl⟩
  refine ⟨h.shape, fun branch hm => ?_, fun branch hm target ht hend => ?_⟩
  · rw [hbody, List.mem_reverse] at hm
    split at hm
    · exact (hbranch branch ((List.mem_cons.1 hm).resolve_left (by simp))).1
    · exact (hbranch branch hm).1
  · rw [hbody, List.mem_reverse] at hm
    rw [hbody, List.reverse_reverse] at hend
    -- Only the label of the end of the code can be behind the last instruction.
    cases hlast : labels.at? code.code.length with
    | some last =>
      rw [hlast] at hm hend
      have hone : Builder.trailing (.label last :: nodes) = [last] := by
        change last :: Builder.trailing nodes = [last]
        rw [htrailing rfl]
      rw [hone, List.mem_singleton] at hend
      obtain ⟨offset, hlt, hl⟩ :=
        (hbranch branch ((List.mem_cons.1 hm).resolve_left (by simp))).2 target ht
      have hsame := (OffsetLabels.numbered hlabels).injective offset _ _ (hend ▸ hl) hlast
      omega
    | none =>
      rw [hlast] at hend
      exact absurd (htrailing rfl ▸ hend) List.not_mem_nil

end MethodBody

end ClassWeave
