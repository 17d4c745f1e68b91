import ClassWeave.Proofs.Code.Operations

/-!
Code without dead instructions. A builder refuses an instruction where control does not get. Where nothing falls into a
label that is placed, a jump from further in front leads to it or a handler starts there; so control gets to every
instruction.
-/

namespace ClassWeave

/-- A handler starts at the label, or one of the nodes jumps to it. -/
def Node.Comes (handlers : List Handler) (nodes : List Node) (label : Label) : Prop :=
  (∃ handler ∈ handlers, handler.handler = label) ∨
    ∃ branch : Branch Label, .branch branch ∈ nodes ∧ label ∈ branch.jumpTargets

theorem Node.Comes.mono {handlers more : List Handler} {nodes further : List Node} {label : Label}
    (h : Node.Comes handlers nodes label) (hhandlers : handlers ⊆ more) (hnodes : nodes ⊆ further) :
    Node.Comes more further label := by
  rcases h with ⟨handler, hm, hl⟩ | ⟨branch, hm, hl⟩
  · exact .inl ⟨handler, hhandlers hm, hl⟩
  · exact .inr ⟨branch, hnodes hm, hl⟩

/-- Nodes, given from the last, where control gets to each instruction, and whether it gets behind them. It comes to a
label where it falls into it, jumps to it from further in front, or where a handler starts. -/
inductive Node.Leads (handlers : List Handler) : List Node → Bool → Prop where
  | start : Leads handlers [] true
  | fall {nodes : List Node} {label : Label} (leads : Leads handlers nodes true) :
      Leads handlers (.label label :: nodes) true
  | jump {nodes : List Node} {label : Label} (leads : Leads handlers nodes false)
      (comes : Comes handlers nodes label) : Leads handlers (.label label :: nodes) true
  /-- Control does not get to the label. -/
  | idle {nodes : List Node} {label : Label} (leads : Leads handlers nodes false) :
      Leads handlers (.label label :: nodes) false
  | insn {nodes : List Node} {insn : Insn} (leads : Leads handlers nodes true) :
      Leads handlers (.insn insn :: nodes) true
  | branch {nodes : List Node} {branch : Branch Label} (leads : Leads handlers nodes true) :
      Leads handlers (.branch branch :: nodes) branch.fallsThrough

namespace Node.Leads

variable {handlers more : List Handler} {nodes later : List Node} {node : Node} {live : Bool}

theorem mono (h : Leads handlers nodes live) (hle : handlers ⊆ more) : Leads more nodes live := by
  induction h with
  | start => exact .start
  | fall _ ih => exact .fall ih
  | jump _ comes ih => exact .jump ih (comes.mono hle (List.Subset.refl _))
  | idle _ ih => exact .idle ih
  | insn _ ih => exact .insn ih
  | branch _ ih => exact .branch ih

/-- The same holds along the way. -/
theorem earlier (h : Leads handlers (later ++ nodes) live) : ∃ before, Leads handlers nodes before := by
  induction later generalizing live with
  | nil => exact ⟨live, h⟩
  | cons node later ih => cases h with
    | fall leads | jump leads | idle leads | insn leads | branch leads => exact ih leads

/-- Control gets to what is no label. -/
theorem front (h : Leads handlers (node :: nodes) live) (plain : node.isLabel = false) : Leads handlers nodes true := by
  cases h with
  | fall | jump | idle => cases plain
  | insn leads | branch leads => exact leads

end Node.Leads

namespace Builder

variable {B C : Builder} {label : Label}

/-- Control gets to each instruction of the code, and labels that are still to be placed are jumped to or start
handlers. -/
structure Live (B : Builder) : Prop where
  leads : Node.Leads B.handlers B.nodes B.isReachable
  comes : ∀ label, B.isPlaced label = false → B.isJumpedTo label = true → Node.Comes B.handlers B.nodes label

namespace Live

theorem start (pool : ConstantPool) (labels : LabelSupply) (shape : MethodShape) (entry : EditFrame) :
    (start pool labels shape entry).Live := ⟨.start, nofun⟩

theorem congr (h : B.Live) (nodes : C.nodes = B.nodes) (frame : C.frame = B.frame)
    (labelFrames : C.labelFrames = B.labelFrames) (handlers : C.handlers = B.handlers) : C.Live := by
  refine ⟨?_, fun label ahead jumped => ?_⟩
  · rw [handlers, nodes, isReachable, frame]
    exact h.leads
  · rw [handlers, nodes]
    rw [isPlaced_congr nodes] at ahead
    rw [isJumpedTo, labelFrames] at jumped
    exact h.comes label ahead jumped

/-- One more node. Labels that are still to be placed were so before, or are its targets. -/
theorem cons (h : B.Live) {node : Node} (nodes : C.nodes = node :: B.nodes) (handlers : C.handlers = B.handlers)
    (leads : Node.Leads B.handlers (node :: B.nodes) C.isReachable)
    (known : ∀ label, node ≠ .label label → C.isJumpedTo label = true →
      B.isJumpedTo label = true ∨ label ∈ node.jumpTargets) : C.Live := by
  refine ⟨nodes ▸ handlers ▸ leads, fun label ahead jumped => ?_⟩
  obtain ⟨hne, hahead⟩ := (isPlaced_cons nodes).1 ahead
  rw [handlers, nodes]
  rcases known label hne jumped with hjumped | hm
  · exact (h.comes label hahead hjumped).mono (List.Subset.refl _) (List.subset_cons_self _ _)
  · cases node with
    | label | insn => cases hm
    | branch branch => exact .inr ⟨branch, List.mem_cons_self, hm⟩

theorem placed (h : B.Live) {frame : EditFrame} (ahead : B.isPlaced label = false)
    (arrives : B.arrival? label = some frame) : (B.placed label frame).Live := by
  refine h.cons (placed_nodes B label frame) (placed_handlers B label frame) ?_ fun l hne jumped => .inl ?_
  · rw [isReachable, placed_frame]
    have leads := h.leads
    cases hf : B.frame with
    | some current =>
      rw [isReachable, hf] at leads
      exact .fall leads
    | none =>
      rw [isReachable, hf] at leads
      rw [arrival?, hf] at arrives
      refine .jump leads (h.comes label ahead ?_)
      unfold isJumpedTo
      cases hj : B.labelFrames.find? label with
      | some jumped => rfl
      | none =>
        rw [hj] at arrives
        cases arrives
  · have hother : l ≠ label := fun he => hne (congrArg Node.label he.symm)
    rwa [isJumpedTo, find?_placed, if_neg hother] at jumped

theorem branch (h : B.Live) {branch : Branch Label} {before after : EditFrame} (hf : B.frame = some before)
    (jumps : Jumps after branch.jumpTargets { B with frame := none } C) :
    ({ C with frame := if branch.fallsThrough then some after else none }.append (.branch branch) none).Live := by
  have leads := h.leads
  rw [isReachable, hf] at leads
  have nodes : C.nodes = B.nodes := jumps.nodes_eq
  have handlers : C.handlers = B.handlers := jumps.handlers_eq
  refine h.cons (by rw [append_nodes, nodes]) (by rw [append_handlers, handlers]) ?_ fun label _ jumped => ?_
  · have hreachable : ({ C with frame := if branch.fallsThrough then some after else none }.append (.branch branch)
        none).isReachable = branch.fallsThrough := by
      rw [isReachable, append_frame]
      cases branch.fallsThrough <;> rfl
    rw [hreachable]
    exact .branch leads
  · by_cases hm : label ∈ branch.jumpTargets
    · exact .inr hm
    · rw [isJumpedTo, append_labelFrames, jumps.find?_of_notMem hm] at jumped
      exact .inl jumped

theorem left (h : B.Live) {start stop : Label} {catchType : Option String} {known : List EditType}
    {outer : List (List EditType)} : (B.left start stop catchType known outer).Live := by
  refine ⟨?_, fun label ahead jumped => ?_⟩
  · rw [left_nodes, isReachable, left_frame, left_handlers]
    exact h.leads.mono (List.subset_cons_self _ _)
  · rw [left_nodes, left_handlers]
    rw [isPlaced_congr (left_nodes _ _ _ _ _ _)] at ahead
    by_cases he : label = B.labels.fresh.1
    · exact .inl ⟨_, List.mem_cons_self, he.symm⟩
    · rw [isJumpedTo, find?_left, if_neg he] at jumped
      exact (h.comes label ahead jumped).mono (List.subset_cons_self _ _) (List.Subset.refl _)

theorem step (h : B.Live) (hs : Step B C) : C.Live := by
  cases hs with
  | intern | fresh => exact h.congr rfl rfl rfl rfl
  | @insn insn before after reachable typed =>
    have leads := h.leads
    rw [isReachable, reachable] at leads
    refine h.cons (append_nodes _ _ _) (append_handlers _ _ _) ?_ fun label _ jumped => .inl ?_
    · rw [isReachable, append_frame]
      exact .insn leads
    · rwa [isJumpedTo, append_labelFrames] at jumped
  | branch reachable typed known jumps => exact h.branch reachable jumps
  | place known ahead arrives => exact h.placed ahead arrives
  | stop unreachable =>
    have leads := h.leads
    rw [isReachable, unreachable] at leads
    refine h.cons (append_nodes _ _ _) (append_handlers _ _ _) ?_ fun label _ jumped => .inl ?_
    · rw [isReachable, append_frame, unreachable]
      exact .idle leads
    · rwa [isJumpedTo, append_labelFrames] at jumped
  | @enter current frame reachable ahead arrives =>
    have fresh : { B with labels := B.labels.fresh.2 }.Live := h.congr rfl rfl rfl rfl
    exact (fresh.placed ahead arrives).congr (opened_nodes _ _) (opened_frame _ _) rfl (opened_handlers _ _)
  | leave => exact h.left

/-- No step of a builder leaves dead instructions, so no run does. -/
theorem run (h : B.Live) (hr : Run B C) : C.Live := by
  induction hr with
  | refl => exact h
  | tail _ step ih => exact ih.step step

end Live

end Builder

end ClassWeave
