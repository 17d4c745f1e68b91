import ClassWeave.Proofs.Script.Composing
import ClassWeave.Proofs.Script.Refining

/-!
The code of an expression is a span of instructions, with no label in it and no jump. So control walks it from
its start to its end, whatever stands in front of it and behind it.
-/

namespace ClassWeave

open Evaluating Compiler Builder

variable {M : Machine} {α : Type}

section Straight

/-- The second builder has the code of the first, and behind it only instructions. -/
def Builder.Lengthens (B C : Builder) : Prop :=
  ∃ added : List Node, C.nodes = added ++ B.nodes ∧ ∀ node ∈ added, ∃ insn, node = .insn insn

namespace Builder.Lengthens

variable {B C D : Builder}

theorem of_eq (h : C.nodes = B.nodes) : Lengthens B C := ⟨[], h, nofun⟩

theorem trans (h : Lengthens B C) (h' : Lengthens C D) : Lengthens B D := by
  obtain ⟨added, hadded, insns⟩ := h
  obtain ⟨more, hmore, insns'⟩ := h'
  refine ⟨more ++ added, by rw [hmore, hadded, List.append_assoc], fun node hm => ?_⟩
  exact (List.mem_append.1 hm).elim (insns' node) (insns node)

end Builder.Lengthens

/-- The building step adds nothing but instructions. -/
def Building.Straight (step : Building α) : Prop := ∀ B a C, step B = .ok a C → Lengthens B C

/-- The compiling step adds nothing but instructions. -/
def Compiling.Straight (step : Compiling α) : Prop :=
  ∀ c a c', step c = .ok a c' → Lengthens c.builder c'.builder

theorem Builder.composes_straight : Builder.Composes fun _ => Building.Straight where
  pure _ _ _ _ h := .of_eq (by rw [(pure_eq_ok.1 h).2])
  throw _ _ _ _ h := (throw_ne_ok.1 h).elim
  bind hs hn _ _ _ h := by
    obtain ⟨_, _, h₁, h₂⟩ := bind_eq_ok.1 h
    exact (hs _ _ _ h₁).trans (hn _ _ _ _ h₂)
  intern _ _ _ _ _ h := by
    obtain ⟨_, -, rfl⟩ := interning_eq_ok.1 h
    exact .of_eq rfl
  push insn operates _ _ _ h := by
    obtain ⟨_, _, -, -, rfl⟩ := push_eq_ok (Insn.ne_new (Insn.isScripted_of_isOperation operates)) h
    exact ⟨[.insn insn], append_nodes _ _ _, List.forall_mem_singleton.2 ⟨insn, rfl⟩⟩

/-- The code of an expression is straight. -/
theorem Compiler.composes_straight :
    ComposesExpr (fun _ _ => True) (fun _ => Building.Straight) fun _ => Compiling.Straight where
  building := Builder.composes_straight
  lift h _ _ _ hstep := by
    obtain ⟨_, hB, rfl⟩ := lift_eq_ok.1 hstep
    exact h _ _ _ hB
  pure _ _ _ _ h := .of_eq (by rw [(pure_eq_ok.1 h).2])
  throw _ _ _ _ h := (throw_ne_ok.1 h).elim
  bind hs hn _ _ _ h := by
    obtain ⟨_, _, h₁, h₂⟩ := bind_eq_ok.1 h
    exact (hs _ _ _ h₁).trans (hn _ _ _ _ h₂)
  shape _ _ _ h := by
    cases h
    exact .of_eq rfl
  argument _ _ _ hn _ _ _ h := by
    obtain ⟨v, _, hfound, h⟩ := bind_eq_ok.1 h
    exact (Host.argument_eq_ok hfound).2 ▸ hn v.1 v.2 trivial _ _ _ h
  lookUp _ _ _ hn _ _ _ h := by
    obtain ⟨v, _, hfound, h⟩ := bind_eq_ok.1 h
    exact (lookUp_eq_ok hfound).1 ▸ hn v.1 v.2 trivial _ _ _ h

end Straight

section Spans

/-- Code from one position up to another. -/
structure Span where
  start : Nat
  stop : Nat
  deriving DecidableEq

def Span.positions (span : Span) : List Nat := List.range' span.start (span.stop - span.start)

/-- The positions of the instructions among nodes that are in reverse. -/
def instructions : List Node → List Nat
  | [] => []
  | .insn _ :: earlier => instructions earlier ++ [earlier.length]
  | .label _ :: earlier | .branch _ :: earlier => instructions earlier

theorem instructions_append {added : List Node} (h : ∀ node ∈ added, ∃ insn, node = .insn insn)
    (earlier : List Node) : instructions (added ++ earlier) =
      instructions earlier ++ List.range' earlier.length added.length := by
  induction added with
  | nil => exact (List.append_nil _).symm
  | cons node rest ih =>
    obtain ⟨insn, rfl⟩ := h node List.mem_cons_self
    rw [List.cons_append, instructions, ih fun node hm => h node (List.mem_cons_of_mem _ hm), List.length_cons,
      List.range'_concat, List.append_assoc, List.length_append, Nat.one_mul, Nat.add_comm rest.length]

variable {c c₁ c₂ c' : Compiler} {u : Unit} {label : Label}

/-- The span holds the code that an expression is compiled to between two compilers. -/
def Compiler.Codes (c c' : Compiler) (span : Span) (operand : Expr) : Prop :=
  ∃ c₁ c₂ type, Stays c c₁ ∧ expr operand c₁ = .ok (some type) c₂ ∧ Stays c₂ c' ∧
    span = ⟨c₁.position, c₂.position⟩

/-- Between two compilers there are instructions only in the spans, each of them the code of an operand. -/
structure Compiler.Lays (c c' : Compiler) (spans : List Span) (operands : List Expr) : Prop where
  stays : Stays c c'
  codes : List.Forall₂ (Codes c c') spans operands
  insns : instructions c'.builder.nodes = instructions c.builder.nodes ++ spans.flatMap Span.positions

namespace Compiler.Lays

variable {spans spans' : List Span} {operands operands' : List Expr}

theorem append (h : Lays c c₁ spans operands) (h' : Lays c₁ c' spans' operands') :
    Lays c c' (spans ++ spans') (operands ++ operands') where
  stays := h.stays.trans h'.stays
  codes := List.rel_append
    (h.codes.imp fun _ _ ⟨d, d', type, hd, he, hd', hs⟩ => ⟨d, d', type, hd, he, hd'.trans h'.stays, hs⟩)
    (h'.codes.imp fun _ _ ⟨d, d', type, hd, he, hd', hs⟩ => ⟨d, d', type, h.stays.trans hd, he, hd', hs⟩)
  insns := by rw [h'.insns, h.insns, List.flatMap_append, List.append_assoc]

/-- Labels and branches are no code of operands. -/
theorem steer (stays : Stays c c')
    (h : instructions c'.builder.nodes = instructions c.builder.nodes) : Lays c c' [] [] :=
  ⟨stays, .nil, by rw [h]; exact (List.append_nil _).symm⟩

theorem before (h : Lays c c₁ spans operands) (h' : Lays c₁ c' [] []) : Lays c c' spans operands := by
  have all := h.append h'
  rwa [List.append_nil, List.append_nil] at all

theorem operand {operand : Expr} {type : FieldType} (stays : Stays c c')
    (h : expr operand c = .ok (some type) c') : Lays c c' [⟨c.position, c'.position⟩] [operand] where
  stays := stays
  codes := .cons ⟨c, c', type, .refl c, h, .refl c', rfl⟩ .nil
  insns := by
    obtain ⟨added, hadded, insns⟩ := composes_straight.expr operand c _ c' h
    rw [hadded, instructions_append insns, List.flatMap_singleton, Span.positions, position, position, hadded,
      List.length_append, Nat.add_sub_cancel]

theorem branch {branch : Branch Label} {B : Builder}
    (known : ∀ target ∈ branch.jumpTargets, target.number < c.builder.labels.allocated)
    (plain : branch.isTable = false) (h : pushBranch branch c.builder = .ok u B) :
    Lays c { c with builder := B } [] [] :=
  steer (Host.stays_pushBranch known plain h) (by rw [Host.nodes_pushBranch h]; rfl)

theorem placeIfReachable (known : label.number < c.builder.labels.allocated)
    (h : Compiler.placeIfReachable label c = .ok u c') : Lays c c' [] [] := by
  refine steer (Host.stays_placeIfReachable known h) ?_
  rcases Host.placeIfReachable_eq_ok h with ⟨rfl, -⟩ | ⟨B, hB, rfl⟩
  · rfl
  · rw [(Host.nodes_place hB).1]
    rfl

end Compiler.Lays

end Spans

namespace Host

variable {host : Host} {c c₁ c₂ c' : Compiler} {label target : Label}

section Cut

/-- The labels that branches among the nodes jump to. -/
def targetsOf (nodes : List Node) : List Label :=
  nodes.flatMap fun
    | .branch branch => branch.jumpTargets
    | _ => []

/-- The host with nothing behind the code so far but the labels that this code needs. -/
def cut (host : Host) (c : Compiler) : Host :=
  { host with
    program := ⟨c.builder.nodes.reverse ++ (targetsOf c.builder.nodes).map .label,
      c.builder.handlers.reverse, host.program.pool⟩ }

theorem contains_cut (contains : host.Contains c) : (host.cut c).Contains c where
  nodes := List.prefix_append _ _
  handlers := List.prefix_refl _
  pool := contains.pool
  targets branch hb label hl := by
    have placed : Node.label label ∈ (host.cut c).program.nodes :=
      List.mem_append_right _ (List.mem_map_of_mem (List.mem_flatMap.2 ⟨_, hb, hl⟩))
    exact Option.isSome_iff_exists.1 (List.findIdx?_isSome.trans (List.any_eq_true.2 ⟨_, placed, by simp⟩))
  shape := contains.shape
  slots := contains.slots
  later := contains.later

theorem matches_cut {store : Store M} {locals : Locals M} (hm : host.Matches store locals) (c : Compiler) :
    (host.cut c).Matches store locals := ⟨hm.receiver, hm.arguments, hm.bindings⟩

/-- Behind a compiler the program goes straight ahead, if only instructions follow in it. -/
theorem straight_cut (contains : host.Contains c') (fine : Fine c.builder) (stays : Stays c c')
    (lengthens : Lengthens c.builder c'.builder) : (host.cut c').program.Straight c.position where
  unbranched position hle branch hn := by
    obtain ⟨added, hadded, insns⟩ := lengthens
    rw [show (host.cut c').program.nodes = c.builder.nodes.reverse ++ (added.reverse ++
        (targetsOf c'.builder.nodes).map .label) by rw [cut, hadded, List.reverse_append, List.append_assoc],
      List.getElem?_append_right (by rw [List.length_reverse]; exact hle)] at hn
    rcases List.mem_append.1 (List.mem_of_getElem? hn) with hm | hm
    · obtain ⟨insn, he⟩ := insns _ (List.mem_reverse.1 hm)
      cases he
    · obtain ⟨label, -, he⟩ := List.mem_map.1 hm
      cases he
  uncovered position hle handler hm := by
    have hm' : handler ∈ c.builder.handlers := stays.handlers ▸ List.mem_reverse.1 hm
    refine Bool.eq_false_iff.2 fun hc => Nat.not_lt.2 hle ?_
    exact ((contains_cut contains).of_goes stays.goes).covers_lt fine.bookkept hm' hc

theorem insn_of_lengthens {B C : Builder} (h : Lengthens B C) {position : Nat}
    (hle : B.nodes.length ≤ position) (hlt : position < C.nodes.length) :
    ∃ insn, C.nodes.reverse[position]? = some (.insn insn) := by
  obtain ⟨added, hadded, insns⟩ := h
  rw [hadded, List.length_append] at hlt
  rw [hadded, List.reverse_append, List.getElem?_append_right (by rw [List.length_reverse]; exact hle),
    List.length_reverse]
  have hlt' : position - B.nodes.length < added.reverse.length := by
    rw [List.length_reverse]
    omega
  obtain ⟨insn, he⟩ := insns _ (List.mem_reverse.1 (List.getElem_mem hlt'))
  exact ⟨insn, by rw [List.getElem?_eq_getElem hlt', he]⟩

/-- An operand that ends normally is evaluated by all the instructions of its code, each once. -/
theorem walks_expr {e : Expr} {type : Option FieldType} {store : Store M} {locals : Locals M}
    {values : List M.Slot} {world world' : World M} (fine : Fine c.builder) (contains : host.Contains c')
    (h : expr e c = .ok type c') (hm : host.Matches store locals) (ha : c.builder.Arrives [] locals.filled)
    (stack : List M.Slot) (heval : e.eval c.builder.shape c.names store world = .ok values world') :
    host.program.Walks ⟨c.position, locals, stack, world⟩ (Span.positions ⟨c.position, c'.position⟩)
      ⟨c'.position, locals, values ++ stack, world'⟩ := by
  have computes := (evaluates_expr M (host.cut c') e h).2
  have lengthens := composes_straight.expr e c type c' h
  have hrun := computes.runs (contains_cut contains) store locals (matches_cut hm c') ha [] stack world rfl
  rw [heval] at hrun
  obtain ⟨position, stack', hreaches, rfl, rfl, -⟩ := hrun
  have straight := straight_cut contains fine computes.stays lengthens
  obtain ⟨rest, hrest⟩ := contains.nodes
  -- The cut program has the same instructions here as the whole one.
  have same : ∀ position, c.position ≤ position → position < c'.position → ∃ insn,
      (host.cut c').program.nodes[position]? = some (.insn insn) ∧
        host.program.nodes[position]? = some (.insn insn) := by
    intro position hle hlt
    obtain ⟨insn, hn⟩ := insn_of_lengthens lengthens hle hlt
    have hlength : position < c'.builder.nodes.reverse.length := by
      rw [List.length_reverse]
      exact hlt
    refine ⟨insn, (List.getElem?_append_left hlength).trans hn, ?_⟩
    rw [← hrest]
    exact (List.getElem?_append_left hlength).trans hn
  have pool : host.program.pool = (host.cut c').program.pool := rfl
  exact (straight.walks pool same (Nat.le_refl _) hreaches rfl).2

end Cut

end Host

end ClassWeave
