import ClassWeave.Proofs.Patch.Patched
import ClassWeave.Proofs.Script.Compiled
import ClassWeave.Proofs.Script.Evaluating

/-!
What is done with an exception that a guard catches. The log is called, if there is one, and the method
returns a constant of its return type. Code that only pushes and calls is straight: it runs from its start
to its end wherever it is put, or throws on the way.
-/

namespace ClassWeave

open Evaluating

variable {M : Machine}

/-- A constant that a method returns in place of a value. -/
inductive Literal where
  | void
  | int (value : Int32)
  | long (value : Int64)
  | zeroFloat
  | zeroDouble
  | null
  | string (text : String)

namespace Literal

def zero (type : FieldType) : Literal :=
  match SlotKind.ofFieldType type with
  | .int => .int 0
  | .long => .long 0
  | .float => .zeroFloat
  | .double => .zeroDouble
  | .reference => .null

/-- The slots of the constant. -/
def eval : Literal → Evaluating M (List M.Slot)
  | .void => pure []
  | .int value => pure [M.int value]
  | .long value => perform (.long value) [] 2
  | .zeroFloat => perform (.other (.constFloat ⟨0, Nat.zero_lt_succ 2⟩)) [] 1
  | .zeroDouble => perform (.other (.constDouble ⟨0, Nat.zero_lt_succ 1⟩)) [] 2
  | .null => pure [M.null]
  | .string text => perform (.text text) [] 1

/-- The int is a value of a type. -/
inductive Ranges (value : Int32) : BaseType → Prop
  | int : Ranges value .int
  | short : -32768 ≤ value → value ≤ 32767 → Ranges value .short
  | byte : -128 ≤ value → value ≤ 127 → Ranges value .byte
  | char : 0 ≤ value → value ≤ 65535 → Ranges value .char
  | boolean : value = 0 ∨ value = 1 → Ranges value .boolean

/-- The constant is a value of the return type. -/
inductive IsOf : Literal → Option FieldType → Prop
  | void : IsOf .void none
  | int {value : Int32} {type : BaseType} : Ranges value type → IsOf (.int value) (some (.base type))
  | long {value : Int64} : IsOf (.long value) (some (.base .long))
  | zeroFloat : IsOf .zeroFloat (some (.base .float))
  | zeroDouble : IsOf .zeroDouble (some (.base .double))
  | null {type : RefType} : IsOf .null (some (.ref type))
  | string {text : String} {name : ClassName} : name.text ∈ Fallback.stringTypes →
      IsOf (.string text) (some (.ref (.object name)))

theorem isOf_zero (type : FieldType) : (zero type).IsOf (some type) := by
  cases type with
  | ref type => exact .null
  | base type =>
    cases type with
    | long => exact .long
    | float => exact .zeroFloat
    | double => exact .zeroDouble
    | int => exact .int .int
    | short => exact .int (.short (by decide) (by decide))
    | byte => exact .int (.byte (by decide) (by decide))
    | char => exact .int (.char (by decide) (by decide))
    | boolean => exact .int (.boolean (.inl rfl))

end Literal

namespace Fallback

/-- The constant that is returned. -/
def literal : Fallback → Option FieldType → Literal
  | .default, none => .void
  | .default, some type => .zero type
  | .int value, _ => .int value
  | .bool value, _ => .int (if value then 1 else 0)
  | .long value, _ => .long value
  | .string text, _ => .string text

theorem isOf_literal {fallback : Fallback} {returnType : Option FieldType}
    (h : fallback.fits returnType = true) : (fallback.literal returnType).IsOf returnType := by
  cases fallback with
  | default =>
    cases returnType with
    | none => exact .void
    | some type => exact Literal.isOf_zero type
  | int value =>
    rcases returnType with _ | type | type
    · cases h
    · cases type with
      | int => exact .int .int
      | short =>
        obtain ⟨hlow, hhigh⟩ := of_decide_eq_true h
        exact .int (.short hlow hhigh)
      | byte =>
        obtain ⟨hlow, hhigh⟩ := of_decide_eq_true h
        exact .int (.byte hlow hhigh)
      | char =>
        obtain ⟨hlow, hhigh⟩ := of_decide_eq_true h
        exact .int (.char hlow hhigh)
      | _ => cases h
    · cases h
  | bool value =>
    rcases returnType with _ | type | type
    · cases h
    · cases type with
      | boolean =>
        cases value with
        | false => exact .int (.boolean (.inl rfl))
        | true => exact .int (.boolean (.inr rfl))
      | _ => cases h
    · cases h
  | long value =>
    rcases returnType with _ | type | type
    · cases h
    · cases type with
      | long => exact .long
      | _ => cases h
    · cases h
  | string text =>
    rcases returnType with _ | type | type
    · cases h
    · cases h
    · cases type with
      | object name => exact .string (List.contains_iff_mem.1 h)
      | array more element => cases h

end Fallback

namespace LogCall

/-- What the method is called with: what was caught, if it takes anything. -/
def operands {α : Type} (log : LogCall) (caught : List α) : List α :=
  match MethodDescriptor.parse log.descriptor with
  | .ok ⟨[], _⟩ => []
  | _ => caught

/-- The call of the method. -/
def action (log : LogCall) : Action := .call .static ⟨log.owner, log.name, log.descriptor, false⟩

end LogCall

namespace WrapGuard

/-- The call of the log, if there is one; it gives no value. -/
def record (guard : WrapGuard) (caught : List M.Slot) : Evaluating M (List M.Slot) :=
  match guard.log with
  | none => pure []
  | some log => perform log.action (log.operands caught) 0

/-- What is done with what was caught: the log is called, and a constant returned. -/
def rescue (guard : WrapGuard) (returnType : Option FieldType) (caught : List M.Slot) :
    Evaluating M (List M.Slot) :=
  guard.record caught >>= fun _ => (guard.fallback.literal returnType).eval

end WrapGuard

namespace Builder

variable {B C D : Builder} {u : Unit} {popped under pushed : List Nat}
  {op first second : (M : Machine) → List M.Slot → Evaluating M (List M.Slot)}

/-- Instructions are put that do an operation on operands of some widths and leave values of others. -/
structure Straight (B C : Builder) (popped pushed : List Nat)
    (op : (M : Machine) → List M.Slot → Evaluating M (List M.Slot)) : Prop where
  code : ∃ insns : List Insn, C.nodes = insns.map .insn ++ B.nodes
  pool : B.pool ≤ C.pool
  shape : C.shape = B.shape
  labels : C.labels = B.labels
  labelFrames : C.labelFrames = B.labelFrames
  runs : ∀ {M : Machine} {program : Program}, C.nodes.reverse <+: program.nodes → C.pool ≤ program.pool →
    ∀ (locals : Locals M) (operands stack : List M.Slot) (world : World M), operands.length = popped.sum →
      program.Yields locals B.nodes.length C.nodes.length ⟨B.nodes.length, locals, operands ++ stack, world⟩
        (op M operands world) fun values position stack' =>
          position = C.nodes.length ∧ stack' = values ++ stack ∧ values.length = pushed.sum

namespace Straight

theorem nodes_suffix (h : Straight B C popped pushed op) : B.nodes <:+ C.nodes := by
  obtain ⟨insns, hcode⟩ := h.code
  exact ⟨insns.map .insn, hcode.symm⟩

theorem nothing (B : Builder) (popped : List Nat) : Straight B B popped popped fun _ operands => pure operands where
  code := ⟨[], rfl⟩
  pool := ConstantPool.le_refl _
  shape := rfl
  labels := rfl
  labelFrames := rfl
  runs _ _ _ _ _ _ hlength := .pure ⟨rfl, rfl, hlength⟩

theorem congr (h : Straight B C popped pushed first)
    (heq : ∀ (M : Machine) (operands : List M.Slot), first M operands = second M operands) :
    Straight B C popped pushed second := by
  have hsame : first = second := funext fun M => funext fun operands => heq M operands
  rwa [hsame] at h

theorem trans (h : Straight B C popped under first) (h' : Straight C D under pushed second) :
    Straight B D popped pushed fun M operands => first M operands >>= second M where
  code := by
    obtain ⟨insns, hcode⟩ := h.code
    obtain ⟨insns', hcode'⟩ := h'.code
    refine ⟨insns' ++ insns, ?_⟩
    rw [hcode', hcode, List.map_append, List.append_assoc]
  pool := ConstantPool.le_trans h.pool h'.pool
  shape := h'.shape.trans h.shape
  labels := h'.labels.trans h.labels
  labelFrames := h'.labelFrames.trans h.labelFrames
  runs := by
    intro M program hnodes hpool locals operands stack world hlength
    have hbefore := (List.reverse_prefix.2 h'.nodes_suffix).trans hnodes
    have hfirst := h.runs hbefore (ConstantPool.le_trans h'.pool hpool) locals operands stack world hlength
    have hreach := hfirst.mono le_rfl h'.nodes_suffix.length_le fun _ _ _ hgoal => hgoal
    apply hreach.bind
    intro values position stack' world' _ hgoal
    obtain ⟨rfl, rfl, hvalues⟩ := hgoal
    have hsecond := h'.runs hnodes hpool locals values stack world' hvalues
    exact hsecond.mono h.nodes_suffix.length_le le_rfl fun _ _ _ hgoal => hgoal

end Straight

/-- One instruction that does the operation with all constants that there are behind it. -/
theorem straight_push {insn : Insn} (h : push insn B = .ok u C) (hnew : ∀ index, insn ≠ .new index)
    (performs : ∀ {M : Machine} {pool : ConstantPool} (locals : Locals M), B.pool ≤ pool →
      insn.Performs pool locals popped pushed (op M)) :
    Straight B C popped pushed op := by
  obtain ⟨before, after, -, -, rfl⟩ := push_eq_ok hnew h
  constructor
  case code => exact ⟨[insn], append_nodes _ _ _⟩
  case pool => rw [append_pool]; exact ConstantPool.le_refl _
  case shape => exact append_shape _ _ _
  case labels => exact append_labels _ _ _
  case labelFrames => exact append_labelFrames _ _ _
  case runs =>
    intro M program hnodes hpool locals operands stack world hlength
    rw [append_nodes] at hnodes
    rw [append_pool] at hpool
    rw [append_nodes]
    have hinsn : program.nodes[B.nodes.length]? = some (.insn insn) := by
      obtain ⟨rest, hrest⟩ := hnodes
      rw [← hrest, List.reverse_cons, List.append_assoc, List.getElem?_append_right (by simp)]
      simp
    have hmove := performs locals hpool operands stack world hlength
    have hrun : program.move ⟨B.nodes.length, locals, operands ++ stack, world⟩ =
        insn.run program.pool locals (operands ++ stack) world := by
      rw [Program.move, hinsn]
    cases hop : op M operands world with
    | ok values world' =>
      rw [hop] at hmove
      exact ⟨_, _, .next (hrun.trans hmove.2), rfl, rfl, hmove.1⟩
    | error fault world' =>
      rw [hop] at hmove
      cases fault with
      | thrown exception =>
        exact ⟨_, _, _, le_rfl, Nat.lt_succ_self _, .refl _, hrun.trans hmove⟩
      | stuck => exact hmove.elim

/-- An instruction for a constant that is put into the pool first. -/
theorem straight_interned {α : Type} {step : Interning α} {insn : α → Insn}
    (h : (do push (insn (← interning step)) : Building Unit) B = .ok u C) (settled : Settled step)
    (hnew : ∀ a index, insn a ≠ .new index)
    (performs : ∀ {a : α} {p pool : ConstantPool}, step B.pool = .ok a p → p ≤ pool →
      ∀ {M : Machine} (locals : Locals M), (insn a).Performs pool locals popped pushed (op M)) :
    Straight B C popped pushed op := by
  obtain ⟨a, B₁, hstep, h⟩ := bind_eq_ok.1 h
  obtain ⟨p, hp, rfl⟩ := interning_eq_ok.1 hstep
  have pushes := straight_push h (hnew a) fun locals hle => performs hp hle locals
  exact { pushes with pool := ConstantPool.le_trans (settled _ _ _ hp).1 pushes.pool }

section Constants

/-- An instruction that pushes a slot that is always the same. -/
theorem straight_slot {insn : Insn} {value : (M : Machine) → M.Slot} (h : push insn B = .ok u C)
    (hnew : ∀ index, insn ≠ .new index)
    (hrun : ∀ {M : Machine} (pool : ConstantPool) (locals : Locals M) stack world,
      insn.run pool locals stack world = .next locals (value M :: stack) world) :
    Straight B C [] [1] fun M _ => pure [value M] := by
  apply straight_push h hnew
  intro M pool locals _
  refine Insn.performs_pure fun operands stack world hlength => ?_
  rw [List.length_eq_zero_iff.1 hlength]
  exact ⟨rfl, hrun pool locals stack world⟩

theorem straight_constInt (value : Int32) (h : constInt value B = .ok u C) :
    Straight B C [] [1] fun M _ => pure [M.int value] := by
  unfold constInt at h
  split at h
  · next hsmall =>
    refine straight_slot h (by simp) fun pool locals stack world => ?_
    rw [Insn.run, ofInt_small value hsmall]
  · split at h
    · next hbyte =>
      refine straight_slot h (by simp) fun pool locals stack world => ?_
      rw [Insn.run, toInt32_toInt8 value hbyte]
    · split at h
      · next hshort =>
        refine straight_slot h (by simp) fun pool locals stack world => ?_
        rw [Insn.run, toInt32_toInt16 value hshort]
      · refine straight_interned h (ConstantPool.settled_internInteger value) (by simp)
          fun hp hle M locals => Insn.performs_pure fun operands stack world hlength => ?_
        rw [Insn.run, ConstantPool.get_of_le hle (ConstantPool.get_of_intern hp),
          List.length_eq_zero_iff.1 hlength]
        exact ⟨rfl, rfl⟩

/-- An instruction for an action of its own. -/
theorem straight_action {insn : Insn} {action : Action} (h : push insn B = .ok u C)
    (hnew : ∀ index, insn ≠ .new index)
    (hrun : ∀ {M : Machine} (pool : ConstantPool) (locals : Locals M) stack world,
      insn.run pool locals stack world = insn.act pool locals stack world)
    (haction : ∀ pool, insn.action pool = .ok action)
    (heffect : ∀ pool, insn.stackEffect pool = .ok ⟨0, pushed.sum⟩) :
    Straight B C [] pushed fun _ _ => perform action [] pushed.sum :=
  straight_push h hnew fun locals _ =>
    Host.performs_alone (fun stack world => hrun _ locals stack world) (haction _) (heffect _)

theorem straight_constLong (value : Int64) (h : constLong value B = .ok u C) :
    Straight B C [] [2] fun _ _ => perform (.long value) [] 2 := by
  unfold constLong at h
  split at h
  · next hzero =>
    subst hzero
    exact straight_action h (by simp) (fun _ _ _ _ => rfl) (fun _ => rfl) fun _ => rfl
  · split at h
    · next hone =>
      subst hone
      exact straight_action h (by simp) (fun _ _ _ _ => rfl) (fun _ => rfl) fun _ => rfl
    · refine straight_interned h (ConstantPool.settled_internLong value) (by simp)
        fun hp hle M locals => Host.performs_alone (fun _ _ => rfl) ?_ rfl
      exact Insn.action_long (ConstantPool.get_of_le hle (ConstantPool.get_of_intern hp))

theorem straight_constString (text : String) (h : constString text B = .ok u C) :
    Straight B C [] [1] fun _ _ => perform (.text text) [] 1 := by
  refine straight_interned h (ConstantPool.settled_internString text) (by simp)
    fun hp hle M locals => ?_
  obtain ⟨content, middle, hcontent, hindex⟩ := bind_eq_ok.1 hp
  have hget := ConstantPool.get_of_le hle (ConstantPool.get_of_intern hindex)
  have hgrown := ConstantPool.le_trans (ConstantPool.settled_intern _ _ _ _ hindex).1 hle
  have hutf8 := ConstantPool.utf8_of_le hgrown (ConstantPool.utf8_of_internUtf8 hcontent)
  refine Host.performs_alone (fun stack world => ?_) (Insn.action_text hget hutf8) rfl
  rw [Insn.run, hget]

end Constants

theorem straight_zero (type : FieldType) (h : zero type B = .ok u C) :
    Straight B C [] [type.width] fun _ _ => (Literal.zero type).eval := by
  have null (h : push .constNull B = .ok u C) : Straight B C [] [1] fun M _ => pure [M.null] :=
    straight_slot h (by simp) fun _ _ _ _ => rfl
  have int (h : push (.constInt 1) B = .ok u C) : Straight B C [] [1] fun M _ => pure [M.int 0] :=
    straight_slot h (by simp) fun _ _ _ _ => rfl
  have long (h : push (.constLong 0) B = .ok u C) : Straight B C [] [2] fun _ _ => perform (.long 0) [] 2 :=
    straight_action h (by simp) (fun _ _ _ _ => rfl) (fun _ => rfl) fun _ => rfl
  have float (h : push (.constFloat ⟨0, Nat.zero_lt_succ 2⟩) B = .ok u C) :
      Straight B C [] [1] fun _ _ => perform (.other (.constFloat ⟨0, Nat.zero_lt_succ 2⟩)) [] 1 :=
    straight_action h (by simp) (fun _ _ _ _ => rfl) (fun _ => rfl) fun _ => rfl
  have double (h : push (.constDouble ⟨0, Nat.zero_lt_succ 1⟩) B = .ok u C) :
      Straight B C [] [2] fun _ _ => perform (.other (.constDouble ⟨0, Nat.zero_lt_succ 1⟩)) [] 2 :=
    straight_action h (by simp) (fun _ _ _ _ => rfl) (fun _ => rfl) fun _ => rfl
  cases type with
  | ref type => exact null h
  | base type =>
    cases type with
    | long => exact long h
    | float => exact float h
    | double => exact double h
    | _ => exact int h

theorem sum_widths (type : Option FieldType) : (type.map FieldType.width).toList.sum = slotsOf type := by
  cases type <;> rfl

/-- What a method falls back to is a constant in as many slots as its return type has. -/
theorem straight_fallback {fallback : Fallback} {returnType : Option FieldType}
    (fits : fallback.fits returnType = true) (h : fallback.push returnType B = .ok u C) :
    Straight B C [] (returnType.map FieldType.width).toList fun _ _ => (fallback.literal returnType).eval := by
  cases fallback with
  | default =>
    cases returnType with
    | none =>
      obtain ⟨-, rfl⟩ := pure_eq_ok.1 h
      exact { Straight.nothing C [] with
        runs := fun _ _ _ operands _ _ hlength =>
          .pure ⟨rfl, List.length_eq_zero_iff.1 hlength ▸ rfl, rfl⟩ }
    | some type => exact straight_zero type h
  | int value =>
    have straight := straight_constInt value h
    rcases returnType with _ | type | type
    · cases fits
    · cases type with
      | long | float | double | boolean => cases fits
      | _ => exact straight
    · cases fits
  | bool value =>
    have straight := straight_constInt _ h
    rcases returnType with _ | type | type
    · cases fits
    · cases type with
      | boolean => exact straight
      | _ => cases fits
    · cases fits
  | long value =>
    have straight := straight_constLong value h
    rcases returnType with _ | type | type
    · cases fits
    · cases type with
      | long => exact straight
      | _ => cases fits
    · cases fits
  | string text =>
    have straight := straight_constString text h
    rcases returnType with _ | type | type
    · cases fits
    · cases fits
    · exact straight

/-- The exception on top of the stack is dropped. -/
theorem straight_pop {locals rest : List EditType} {type : EditType}
    (hf : B.frame = some ⟨locals, type :: rest⟩) (narrow : type.isWide = false) (h : pop B = .ok u C) :
    Straight B C [1] [] fun _ _ => pure [] := by
  unfold pop at h
  rw [get_bind_eq_ok, hf] at h
  dsimp only at h
  rw [narrow] at h
  apply straight_push (h : push (.stack .pop) B = .ok u C) (by simp)
  intro M pool stored _
  refine Insn.performs_pure fun operands stack world hlength => ?_
  obtain ⟨value, rfl⟩ := List.length_eq_one_iff.1 hlength
  exact ⟨rfl, rfl⟩

theorem straight_invoke {owner name descriptor : String} {method : MethodDescriptor}
    (hd : MethodDescriptor.parse descriptor = .ok method) (void : method.returnType = none)
    (h : invoke .static owner name descriptor B = .ok u C) :
    Straight B C (method.parameters.reverse.map FieldType.width) [] fun _ operands =>
      perform (.call .static ⟨owner, name, descriptor, false⟩) operands 0 := by
  have h : (do push (.invoke .static (← interning (ConstantPool.internMethod owner name descriptor false))) :
      Building Unit) B = .ok u C := h
  refine straight_interned h (ConstantPool.settled_internMethod owner name descriptor false) (by simp)
    fun hp hle M locals => ?_
  have hmethod := ConstantPool.methodRef_of_le hle (ConstantPool.methodRef_of_internMethod hp)
  have hpops : method.parameterSlots false = (method.parameters.reverse.map FieldType.width).sum := by
    rw [List.map_reverse, List.sum_reverse, MethodDescriptor.parameterSlots, ← List.sum_eq_foldr]
    rfl
  apply Insn.performs_act (fun _ _ => rfl) (Insn.action_invoke hmethod)
  rw [Insn.stackEffect_invoke hmethod hd, void, ← hpops]
  rfl

end Builder

namespace WrapGuard

open Compiler Builder

variable {guard : WrapGuard} {c c' : Compiler} {u : Unit}

theorem straight_log {log : LogCall} {locals rest : List EditType} {type : EditType}
    (hf : c.builder.frame = some ⟨locals, type :: rest⟩) (narrow : type.isWide = false)
    (h : log.push c = .ok u c') :
    Straight c.builder c'.builder [1] [] fun _ caught => perform log.action (log.operands caught) 0 := by
  unfold LogCall.push at h
  generalize hd : MethodDescriptor.parse log.descriptor = parsed at h
  -- All but two kinds of descriptors are refused.
  rcases parsed with problem | ⟨_ | ⟨base | type, _ | ⟨second, more⟩⟩, _ | returned⟩
  all_goals try exact (throw_bind_ne_ok.1 h).elim
  · obtain ⟨_, B, hB, h⟩ := lift_bind_eq_ok.1 h
    obtain ⟨C, hC, rfl⟩ := lift_eq_ok.1 h
    have drops := straight_pop hf narrow hB
    have calls := straight_invoke hd rfl hC
    apply (drops.trans calls).congr
    intro M caught
    rw [LogCall.operands, hd]
    rfl
  · obtain ⟨C, hC, rfl⟩ := lift_eq_ok.1 h
    apply (straight_invoke hd rfl hC).congr
    intro M caught
    rw [LogCall.operands, hd]
    rfl

/-- The code behind the label of the handler does what is to be done with an exception, up to the return. -/
structure Handles (guard : WrapGuard) (labels : LabelSupply) (shape : MethodShape) (pool pool' : ConstantPool)
    (label : Label) (tail : Fragment) : Prop where
  fresh : label = ⟨labels.allocated⟩
  pool : pool ≤ pool'
  nodes : ∃ insns : List Insn,
    tail.nodes = .label label :: (insns.map .insn ++ [.branch (.returnFor shape.returnType)])
  frames : ∀ other, other ≠ label → ∀ entry ∈ tail.frames, entry.1 ≠ other
  runs : ∀ {M : Machine} (locals : Locals M) (exception : M.Slot) (world : World M),
    (Program.mk tail.nodes [] pool').Yields locals 0 tail.nodes.length ⟨0, locals, [exception], world⟩
      (guard.rescue shape.returnType [exception] world) fun values position stack =>
        position + 1 = tail.nodes.length ∧ stack = values ∧ values.length = slotsOf shape.returnType

/-- Behind its label the code does what is to be done with an exception, and then comes the return. -/
theorem handler_eq_ok {label : Label} (fits : guard.fallback.fits c.builder.shape.returnType = true)
    (h : guard.handler c = .ok label c') :
    ∃ placed filled : Builder, label = c.builder.labels.fresh.1 ∧
      placed.nodes = .label label :: c.builder.nodes ∧ placed.pool = c.builder.pool ∧
      placed.labelFrames = c.builder.labelFrames.set label ⟨[], [caughtType guard.catchType]⟩ ∧
      Straight placed filled [1] (c.builder.shape.returnType.map FieldType.width).toList
        (fun _ => guard.rescue c.builder.shape.returnType) ∧
      pushBranch (.returnFor c.builder.shape.returnType) filled = .ok () c'.builder := by
  obtain ⟨_, B₁, hB₁, h⟩ := lift_bind_eq_ok.1 h
  obtain ⟨_, B₂, hB₂, h⟩ := lift_bind_eq_ok.1 h
  obtain ⟨rfl, rfl⟩ := Builder.fresh_eq_ok.1 hB₁
  obtain ⟨-, -, hplaced⟩ := placeWith_eq_ok hB₂
  have hnodes : B₂.nodes = .label c.builder.labels.fresh.1 :: c.builder.nodes := by
    rw [hplaced, append_nodes]
    exact congrArg _ (require_nodes _ _)
  have hpool : B₂.pool = c.builder.pool := by
    rw [hplaced, append_pool]
    exact require_pool _ _
  have hshape : B₂.shape = c.builder.shape := by
    rw [hplaced, append_shape]
    exact require_shape _ _
  have hframes : B₂.labelFrames =
      c.builder.labelFrames.set c.builder.labels.fresh.1 ⟨[], [caughtType guard.catchType]⟩ := by
    rw [hplaced, append_labelFrames]
    change FrameTable.set (require _ _).labelFrames _ _ = _
    rw [require_labelFrames]
  have hframe : B₂.frame = some ⟨[], [caughtType guard.catchType]⟩ := by
    rw [hplaced, append_frame]
  -- Whatever is done with the exception first, the constant and the return come behind it.
  have ending : ∀ c₃ : Compiler, Straight B₂ c₃.builder [1] [] (fun _ => guard.record) → (do
      guard.fallback.push (← Compiler.shape).returnType
      Builder.leave
      return c.builder.labels.fresh.1 : Compiling Label) c₃ = .ok label c' →
      ∃ filled : Builder, label = c.builder.labels.fresh.1 ∧
        Straight B₂ filled [1] (c.builder.shape.returnType.map FieldType.width).toList
          (fun _ => guard.rescue c.builder.shape.returnType) ∧
        pushBranch (.returnFor c.builder.shape.returnType) filled = .ok () c'.builder := by
    intro c₃ records h
    rw [Host.shape_bind_eq_ok] at h
    obtain ⟨_, B₄, hB₄, h⟩ := lift_bind_eq_ok.1 h
    obtain ⟨_, B₅, hB₅, h⟩ := lift_bind_eq_ok.1 h
    obtain ⟨rfl, rfl⟩ := pure_eq_ok.1 h
    have hsame : c₃.builder.shape = c.builder.shape := records.shape.trans hshape
    rw [hsame] at hB₄
    have falls := straight_fallback fits hB₄
    have hleft : pushBranch (.returnFor B₄.shape.returnType) B₄ = .ok () B₅ := hB₅
    rw [falls.shape, hsame] at hleft
    exact ⟨B₄, rfl, records.trans falls, hleft⟩
  have hmade : ∃ c₃ : Compiler, Straight B₂ c₃.builder [1] [] (fun _ => guard.record) ∧ (do
      guard.fallback.push (← Compiler.shape).returnType
      Builder.leave
      return c.builder.labels.fresh.1 : Compiling Label) c₃ = .ok label c' := by
    unfold record
    cases hlog : guard.log with
    | none =>
      rw [hlog] at h
      obtain ⟨_, B₃, hB₃, h⟩ := lift_bind_eq_ok.1 h
      exact ⟨_, straight_pop hframe rfl hB₃, h⟩
    | some log =>
      rw [hlog] at h
      obtain ⟨_, c₃, hcall, h⟩ := bind_eq_ok.1 h
      exact ⟨c₃, straight_log hframe rfl hcall, h⟩
  obtain ⟨c₃, records, h⟩ := hmade
  obtain ⟨filled, hlabel, rescues, hleave⟩ := ending c₃ records h
  subst hlabel
  exact ⟨B₂, filled, rfl, hnodes, hpool, hframes, rescues, hleave⟩

theorem handles_of_tail {labels labels' : LabelSupply} {shape : MethodShape} {pool pool' : ConstantPool}
    {label : Label} {tail : Fragment} (fits : guard.fallback.fits shape.returnType = true)
    (h : guard.tail labels shape pool = .ok (label, tail, labels') pool') :
    guard.Handles labels shape pool pool' label tail := by
  obtain ⟨⟨first, compiler⟩, _, hbuild, h⟩ := bind_eq_ok.1 h
  obtain ⟨he, rfl⟩ := pure_eq_ok.1 h
  cases he
  obtain ⟨hstep, rfl⟩ := Replacement.build_eq_ok hbuild
  obtain ⟨placed, filled, rfl, hnodes, hpool, hframes, straight, hleave⟩ := handler_eq_ok fits hstep
  obtain ⟨_, _, D, -, -, jumps, hleft⟩ := pushBranch_eq_ok hleave
  cases jumps
  have hends : compiler.builder.nodes = .branch (.returnFor shape.returnType) :: filled.nodes := by
    rw [hleft, append_nodes]
    rfl
  have hpools : compiler.builder.pool = filled.pool := by
    rw [hleft, append_pool]
  have hfinal : compiler.builder.labelFrames =
      FrameTable.set [] ⟨labels.allocated⟩ ⟨[], [caughtType guard.catchType]⟩ := by
    rw [hleft, append_labelFrames]
    exact straight.labelFrames.trans hframes
  have hreversed : compiler.builder.finish.nodes =
      filled.nodes.reverse ++ [.branch (.returnFor shape.returnType)] := by
    change compiler.builder.nodes.reverse = _
    rw [hends, List.reverse_cons]
  have hlength : placed.nodes.length = 1 := by
    rw [hnodes]
    rfl
  constructor
  case fresh => rfl
  case pool =>
    rw [hpools]
    have hle := straight.pool
    rwa [hpool] at hle
  case nodes =>
    obtain ⟨insns, hcode⟩ := straight.code
    refine ⟨insns.reverse, ?_⟩
    rw [hreversed, hcode, hnodes, List.reverse_append, List.reverse_cons, ← List.map_reverse]
    rfl
  case frames =>
    intro other hne entry hm he
    have hentry := (List.mem_filter.1 hm).1
    rw [hfinal] at hentry
    rw [List.mem_singleton.1 hentry] at he
    exact hne he.symm
  case runs =>
    intro M locals exception world
    have hprefix : filled.nodes.reverse <+: compiler.builder.finish.nodes := ⟨_, hreversed.symm⟩
    let program : Program := ⟨compiler.builder.finish.nodes, [], compiler.builder.pool⟩
    have hpool' : filled.pool ≤ program.pool := hpools ▸ ConstantPool.le_refl _
    have hrun := straight.runs (M := M) (show filled.nodes.reverse <+: program.nodes from hprefix) hpool' locals
      [exception] [] world rfl
    rw [hlength] at hrun
    have hfirst : program.nodes[0]? = some (.label (⟨labels.allocated⟩ : Label)) := by
      obtain ⟨insns, hcode⟩ := straight.code
      change compiler.builder.finish.nodes[0]? = _
      rw [hreversed, hcode, hnodes, List.reverse_append, List.reverse_cons]
      rfl
    have hstart : program.Reaches ⟨0, locals, [exception], world⟩ ⟨1, locals, [exception], world⟩ := by
      apply Program.Reaches.next
      rw [Program.move, hfirst]
    have hlast : filled.nodes.length + 1 = program.nodes.length := by
      change _ = compiler.builder.finish.nodes.length
      rw [hreversed, List.length_append, List.length_reverse]
      rfl
    apply (Program.Yields.after hstart hrun).mono (Nat.zero_le _) (hlast ▸ Nat.le_succ _)
    intro values position stack hgoal
    obtain ⟨rfl, rfl, hvalues⟩ := hgoal
    exact ⟨hlast, List.append_nil _, hvalues.trans (sum_widths _)⟩

end WrapGuard

end ClassWeave
