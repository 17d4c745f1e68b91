import ClassWeave.Proofs.Frame.Balancing
import ClassWeave.Proofs.Script.Hosting

/-!
Code that computes: it takes operands from the stack, leaves values there or throws, and does not touch the
locals. What the instructions compute is put together to what runs of them compute.
-/

namespace ClassWeave

open Evaluating Compiler Builder

variable {M : Machine} {popped pushed : List Nat}

/-- The operand of the shortest constant instruction is one more than its value. -/
theorem ofInt_small (value : Int32) (h : -1 ≤ value ∧ value ≤ 5) :
    Int32.ofInt (((value.toInt + 1).toNat % 7 : Nat) - 1 : Int) = value := by
  obtain ⟨hlow, hhigh⟩ := h
  rw [Int32.le_iff_toInt_le] at hlow hhigh
  change -1 ≤ value.toInt at hlow
  change value.toInt ≤ 5 at hhigh
  rw [show (((value.toInt + 1).toNat % 7 : Nat) - 1 : Int) = value.toInt by omega]
  exact Int32.ofInt_toInt value

/-- An int that fits a byte is its byte. -/
theorem toInt32_toInt8 (value : Int32) (h : -128 ≤ value ∧ value ≤ 127) :
    value.toInt8.toInt32 = value := by
  obtain ⟨hlow, hhigh⟩ := h
  rw [Int32.le_iff_toInt_le] at hlow hhigh
  change -128 ≤ value.toInt at hlow
  change value.toInt ≤ 127 at hhigh
  rw [← Int32.toInt_inj, Int8.toInt_toInt32, Int32.toInt_toInt8]
  exact Int.bmod_eq_of_le (by omega) (by omega)

theorem toInt32_toInt16 (value : Int32) (h : -32768 ≤ value ∧ value ≤ 32767) :
    value.toInt16.toInt32 = value := by
  obtain ⟨hlow, hhigh⟩ := h
  rw [Int32.le_iff_toInt_le] at hlow hhigh
  change -32768 ≤ value.toInt at hlow
  change value.toInt ≤ 32767 at hhigh
  rw [← Int32.toInt_inj, Int16.toInt_toInt32, Int32.toInt_toInt16]
  exact Int.bmod_eq_of_le (by omega) (by omega)

namespace Insn

section Actions

variable {pool : ConstantPool} {index : PoolIndex}

theorem action_text {content : PoolIndex} {text : String} (h : pool.get index = .ok (.string content))
    (ht : pool.utf8 content = .ok text) : (loadConstant index).action pool = .ok (.text text) := by
  unfold action
  dsimp only
  rw [h]
  change ((liftM (pool.utf8 content) : Except ClassError String) >>= fun text =>
    pure (Action.text text)) = _
  rw [ht]
  rfl

theorem action_long {value : Int64} (h : pool.get index = .ok (.long value)) :
    (loadWideConstant index).action pool = .ok (.long value) := by
  unfold action
  dsimp only
  rw [h]
  rfl

theorem action_field {access : FieldAccess} {field : ConstantPool.MemberRef}
    (h : pool.fieldRef index = .ok field) :
    (Insn.field access index).action pool =
      .ok (.field access ⟨field.owner, field.name, field.descriptor⟩) := by
  unfold action
  dsimp only
  rw [h]
  rfl

theorem action_invoke {kind : InvokeKind} {method : ConstantPool.MemberRef}
    (h : pool.methodRef index = .ok method) :
    (invoke kind index).action pool = .ok (.call kind.callKind method) := by
  unfold action
  dsimp only
  rw [h]
  rfl

theorem action_checkCast {name : String} (h : pool.className index = .ok name) :
    (checkCast index).action pool = .ok (.cast name) := by
  unfold action
  dsimp only
  rw [h]
  rfl

theorem action_newRefArray {name : String} (h : pool.className index = .ok name) :
    (newRefArray index).action pool = .ok (.newArray name) := by
  unfold action
  dsimp only
  rw [h]
  rfl

end Actions

end Insn

/-- On operands of some widths the instruction does the operation, whose results have the other
widths. -/
def Insn.Performs (pool : ConstantPool) (locals : Locals M) (insn : Insn) (popped pushed : List Nat)
    (op : List M.Slot → Evaluating M (List M.Slot)) : Prop :=
  ∀ operands stack world, operands.length = popped.sum →
    match op operands world with
    | .ok values world' => values.length = pushed.sum ∧
      insn.run pool locals (operands ++ stack) world = .next locals (values ++ stack) world'
    | .error (.thrown exception) world' =>
      insn.run pool locals (operands ++ stack) world = .thrown exception world'
    | .error .stuck _ => False

theorem Insn.performs_act {pool : ConstantPool} {locals : Locals M} {insn : Insn} {action : Action}
    (hrun : ∀ stack world, insn.run pool locals stack world = insn.act pool locals stack world)
    (haction : insn.action pool = .ok action)
    (heffect : insn.stackEffect pool = .ok ⟨popped.sum, pushed.sum⟩) :
    insn.Performs pool locals popped pushed fun operands => perform action operands pushed.sum := by
  intro operands stack world hlength
  have hpops : popped.sum ≤ (operands ++ stack).length := by
    rw [List.length_append]
    omega
  beta_reduce
  rw [hrun, Insn.act, haction, heffect, perform]
  dsimp only
  rw [if_pos hpops, List.take_left' hlength, List.drop_left' hlength]
  cases world.perform action operands pushed.sum with
  | ok result => exact ⟨result.1.property, rfl⟩
  | error problem => rfl

/-- An instruction that always goes on. -/
theorem Insn.performs_pure {pool : ConstantPool} {locals : Locals M} {insn : Insn}
    {result : List M.Slot → List M.Slot}
    (hrun : ∀ operands stack world, operands.length = popped.sum →
      (result operands).length = pushed.sum ∧
      insn.run pool locals (operands ++ stack) world = .next locals (result operands ++ stack) world) :
    insn.Performs pool locals popped pushed fun operands => pure (result operands) :=
  fun operands stack world hlength => hrun operands stack world hlength

namespace Host

/-- From one compiler to the next the code takes operands of some widths and leaves values of others, as
the evaluation does. -/
structure Computes (host : Host) (c c' : Compiler) (popped pushed : List Nat)
    (meaning : Store M → List M.Slot → Evaluating M (List M.Slot)) : Prop where
  stays : Stays c c'
  arrives : ∀ rest filled, c.builder.Arrives (popped ++ rest) filled →
    c'.builder.Arrives (pushed ++ rest) filled
  holds : ∀ rest, c.builder.Holds (popped ++ rest) → c'.builder.Holds (pushed ++ rest)
  runs : host.Contains c' → ∀ store locals, host.Matches store locals →
    c.builder.Arrives popped locals.filled → ∀ operands stack world, operands.length = popped.sum →
      host.program.Yields locals c.position c'.position ⟨c.position, locals, operands ++ stack, world⟩
        (meaning store operands world) fun values position stack' =>
          position = c'.position ∧ stack' = values ++ stack ∧ values.length = pushed.sum

namespace Computes

variable {host : Host} {c c₁ c' : Compiler} {under more : List Nat}
  {first second : Store M → List M.Slot → Evaluating M (List M.Slot)}

theorem congr (h : host.Computes c c' popped pushed first)
    (heq : ∀ store operands, first store operands = second store operands) :
    host.Computes c c' popped pushed second := by
  rw [show second = first from funext fun store => funext fun operands => (heq store operands).symm]
  exact h

theorem nothing (c : Compiler) : host.Computes c c [] [] fun (_ : Store M) _ => pure [] where
  stays := .refl c
  arrives _ _ h := h
  holds _ h := h
  runs _ _ _ _ _ operands stack world hlength := by
    rw [List.length_eq_zero_iff.1 hlength]
    exact .pure ⟨rfl, rfl, rfl⟩

theorem trans (h : host.Computes c c₁ popped under first)
    (h' : host.Computes c₁ c' under pushed second) :
    host.Computes c c' popped pushed fun store operands => first store operands >>= second store where
  stays := h.stays.trans h'.stays
  arrives rest filled ha := h'.arrives rest filled (h.arrives rest filled ha)
  holds rest hs := h'.holds rest (h.holds rest hs)
  runs contains store locals hm ha operands stack world hlength := by
    have contains₁ := contains.of_goes h'.stays.goes
    have ha₁ := h.arrives [] locals.filled (by rwa [List.append_nil])
    rw [List.append_nil] at ha₁
    have hfirst := (h.runs contains₁ store locals hm ha operands stack world hlength).mono le_rfl
      (position_le h'.stays.run) fun _ _ _ hgoal => hgoal
    refine hfirst.bind fun values position stack' world' _ hgoal => ?_
    obtain ⟨rfl, rfl, hvalues⟩ := hgoal
    exact (h'.runs contains store locals hm ha₁ values stack world' hvalues).mono
      (position_le h.stays.run) le_rfl fun _ _ _ hgoal => hgoal

/-- Values below the operands stay where they are. -/
theorem above (h : host.Computes c c' popped pushed first) (more : List Nat) :
    host.Computes c c' (popped ++ more) (pushed ++ more) fun store operands => do
      let values ← first store (operands.take popped.sum)
      return values ++ operands.drop popped.sum where
  stays := h.stays
  arrives rest filled ha := by
    rw [List.append_assoc] at ha ⊢
    exact h.arrives (more ++ rest) filled ha
  holds rest hs := by
    rw [List.append_assoc] at hs ⊢
    exact h.holds (more ++ rest) hs
  runs contains store locals hm ha operands stack world hlength := by
    rw [List.sum_append] at hlength
    have hrun := h.runs contains store locals hm ha.weaken (operands.take popped.sum)
      (operands.drop popped.sum ++ stack) world (by rw [List.length_take]; omega)
    rw [← List.append_assoc, List.take_append_drop] at hrun
    refine hrun.bind fun values position stack' world' _ hgoal => ?_
    obtain ⟨rfl, rfl, hvalues⟩ := hgoal
    refine .pure ⟨rfl, List.append_assoc .. ▸ rfl, ?_⟩
    rw [List.length_append, List.length_drop, List.sum_append, hvalues]
    omega

/-- The values of a second evaluation are above those of the first. -/
theorem append {meaning : Store M → Evaluating M (List M.Slot)} (h : host.Computes c c₁ popped under first)
    (h' : host.Computes c₁ c' [] pushed fun store _ => meaning store) :
    host.Computes c c' popped (pushed ++ under) fun store operands => do
      let below ← first store operands
      let values ← meaning store
      return values ++ below :=
  h.trans (h'.above under)

/-- The code behind tells the widths of the values. -/
theorem retake {taken : List Nat} (h : host.Computes c c' popped pushed first)
    (takes : c'.builder.Takes taken) (hlength : pushed.length = taken.length) :
    host.Computes c c' popped taken first where
  stays := h.stays
  arrives rest filled ha := by
    have ha' := h.arrives rest filled ha
    rwa [takes.eq_of_arrives ha'.weaken hlength] at ha'
  holds rest hs := takes.holds (h.holds rest hs) hlength
  runs contains store locals hm ha operands stack world hlength' := by
    have ha' := h.arrives [] locals.filled (by rwa [List.append_nil])
    rw [← takes.eq_of_arrives ha'.weaken hlength]
    exact h.runs contains store locals hm ha operands stack world hlength'

/-- Where nothing can be thrown the code gets to its end. -/
theorem reaches {values : List M.Slot} (h : host.Computes c c' popped pushed first) (contains : host.Contains c')
    {store : Store M} {locals : Locals M} (hm : host.Matches store locals)
    (ha : c.builder.Arrives popped locals.filled) (operands : List M.Slot) (hlength : operands.length = popped.sum)
    (hpure : first store operands = pure values) (stack : List M.Slot) (world : World M) :
    host.program.Reaches ⟨c.position, locals, operands ++ stack, world⟩
      ⟨c'.position, locals, values ++ stack, world⟩ := by
  have hrun := h.runs contains store locals hm ha operands stack world hlength
  rw [hpure] at hrun
  obtain ⟨_, _, hreaches, rfl, rfl, -⟩ := hrun
  exact hreaches

section Pairs

variable {w v : Nat} {c₂ : Compiler} {left right : Store M → Evaluating M (List M.Slot)}
  (ha : host.Computes c c₁ [] [w] fun store _ => left store)
  (hb : host.Computes c₁ c₂ [] [v] fun store _ => right store) (takes : c₂.builder.Takes [1, 1])
include ha hb takes

/-- What follows two values of one slot each finds them on the stack. -/
theorem runs_pair {α : Type} {op : List M.Slot → List M.Slot → Evaluating M α}
    {goal : α → Nat → List M.Slot → Prop} {last : Nat} {store : Store M} {locals : Locals M}
    {stack : List M.Slot} {world : World M} (contains : host.Contains c₂) (hm : host.Matches store locals)
    (harrives : c.builder.Arrives [] locals.filled) (hlast : c₂.position ≤ last)
    (next : ∀ a b world, host.program.Yields locals c.position last
      ⟨c₂.position, locals, b :: a :: stack, world⟩ (op [a] [b] world) goal) :
    host.program.Yields locals c.position last ⟨c.position, locals, stack, world⟩
      ((left store >>= fun a => right store >>= fun b => op a b) world) goal := by
  have h₁ := ha.arrives [] locals.filled harrives
  have heq := takes.eq_of_arrives (hb.arrives [w] locals.filled h₁) rfl
  obtain ⟨rfl, hw⟩ := List.cons.inj heq
  obtain ⟨rfl, -⟩ := List.cons.inj hw
  have hleft := (ha.runs (contains.of_goes hb.stays.goes) store locals hm harrives [] stack world rfl).mono
    le_rfl ((position_le hb.stays.run).trans hlast) fun _ _ _ hgoal => hgoal
  refine hleft.bind fun a position stack₁ world₁ _ hgoal => ?_
  obtain ⟨rfl, rfl, hla⟩ := hgoal
  obtain ⟨a, rfl⟩ := List.length_eq_one_iff.1 hla
  have hright := (hb.runs contains store locals hm h₁.bare [] ([a] ++ stack) world₁ rfl).mono
    (position_le ha.stays.run) hlast fun _ _ _ hgoal => hgoal
  refine hright.bind fun b position stack₂ world₂ _ hgoal => ?_
  obtain ⟨rfl, rfl, hlb⟩ := hgoal
  obtain ⟨b, rfl⟩ := List.length_eq_one_iff.1 hlb
  exact next a b world₂

/-- An operation on two values of one slot each. -/
theorem pair (op : List M.Slot → List M.Slot → Evaluating M (List M.Slot))
    (hop : host.Computes c₂ c' [1, 1] pushed second)
    (heq : ∀ store a b, second store [b, a] = op [a] [b]) :
    host.Computes c c' [] pushed fun store _ =>
      left store >>= fun a => right store >>= fun b => op a b := by
  have all := ((ha.append hb).retake takes rfl).trans hop
  refine ⟨all.stays, all.arrives, all.holds, fun contains store locals hm harrives operands stack world hlength => ?_⟩
  rw [List.length_eq_zero_iff.1 hlength]
  refine ha.runs_pair hb takes (contains.of_goes hop.stays.goes) hm harrives (position_le hop.stays.run)
    fun a b world => ?_
  have h₂ := ((ha.append hb).retake takes rfl).arrives [] locals.filled harrives
  have hrun := (hop.runs contains store locals hm h₂ [b, a] stack world rfl).mono
    (position_le (ha.stays.trans hb.stays).run) le_rfl fun _ _ _ hgoal => hgoal
  rw [heq] at hrun
  exact hrun

end Pairs

end Computes

section Instructions

variable {host : Host} {c : Compiler} {B : Builder} {u : Unit}
  {meaning : Store M → List M.Slot → Evaluating M (List M.Slot)}

theorem stays_push {insn : Insn} (hnew : ∀ index, insn ≠ .new index)
    (h : push insn c.builder = .ok u B) : Stays c { c with builder := B } where
  run := (@extends_push _ _ _ _ [] hnew h).run
  balanced := by
    obtain ⟨before, after, -, -, rfl⟩ := push_eq_ok hnew h
    exact .append { c.builder with frame := some after } _ _
  scope := rfl
  nextLocal := rfl
  handlers := by
    obtain ⟨before, after, -, -, rfl⟩ := push_eq_ok hnew h
    exact append_handlers _ _ _

theorem computes_push {insn : Insn} (h : push insn c.builder = .ok u B)
    (hnew : ∀ index, insn ≠ .new index)
    (shifts : ∀ thisClass allocation,
      Verifying.Shifts (insn.verify c.builder.pool thisClass allocation) popped pushed)
    (performs : host.Contains { c with builder := B } → ∀ store locals, host.Matches store locals →
      c.builder.Arrives popped locals.filled →
        insn.Performs host.program.pool locals popped pushed (meaning store)) :
    c.builder.Takes popped ∧ host.Computes c { c with builder := B } popped pushed meaning := by
  have stays := stays_push hnew h
  refine ⟨takes_of_push hnew h shifts, stays, fun rest filled ha => arrives_of_push hnew h shifts ha,
    fun rest hs => holds_of_push hnew h shifts hs, ?_⟩
  intro contains store locals hm ha operands stack world hlength
  have hn : B.nodes = .insn insn :: c.builder.nodes := by
    obtain ⟨before, after, -, -, rfl⟩ := push_eq_ok hnew h
    exact append_nodes _ _ _
  have hposition : ({ c with builder := B } : Compiler).position = c.position + 1 := by
    rw [Compiler.position, hn]
    rfl
  have hmove := performs contains store locals hm ha operands stack world hlength
  cases hop : meaning store operands world with
  | ok values world' =>
    rw [hop] at hmove
    exact ⟨_, _, .next ((contains.move_insn hn).trans hmove.2), hposition.symm, rfl, hmove.1⟩
  | error fault world' =>
    rw [hop] at hmove
    cases fault with
    | thrown exception =>
      exact ⟨_, _, _, le_rfl, hposition ▸ Nat.lt_succ_self _, .refl _,
        (contains.move_insn hn).trans hmove⟩
    | stuck => exact hmove.elim

/-- A constant of the pool is found again in that of the program. -/
theorem computes_interned {α : Type} {step : Interning α} {insn : α → Insn}
    (h : (do push (insn (← interning step)) : Building Unit) c.builder = .ok u B) (settled : Settled step)
    (hnew : ∀ a index, insn a ≠ .new index)
    (shifts : ∀ a p pool, step p = .ok a pool → ∀ thisClass allocation,
      Verifying.Shifts ((insn a).verify pool thisClass allocation) popped pushed)
    (performs : ∀ a p pool, step p = .ok a pool → pool ≤ host.program.pool → ∀ store locals,
      (insn a).Performs host.program.pool locals popped pushed (meaning store)) :
    c.builder.Takes popped ∧ host.Computes c { c with builder := B } popped pushed meaning := by
  obtain ⟨a, B₁, hstep, h⟩ := bind_eq_ok.1 h
  obtain ⟨pool, hpool, rfl⟩ := interning_eq_ok.1 hstep
  have interned : Stays c { c with builder := { c.builder with pool := pool } } :=
    ⟨.step (.intern (settled _ _ _ hpool).1), .of_eq rfl, rfl, rfl, rfl⟩
  obtain ⟨takes, computes⟩ := @computes_push M popped pushed host
    { c with builder := { c.builder with pool := pool } } B u meaning (insn a) h (hnew a)
    (shifts a _ pool hpool) fun contains store locals _ _ => performs a _ pool hpool
      (contains.of_goes (stays_push (hnew a) h).goes).pool store locals
  exact ⟨takes, interned.trans computes.stays, computes.arrives, computes.holds, computes.runs⟩

/-- An instruction that pushes what it is for. -/
theorem computes_const {insn : Insn} {type : EditType} {value : M.Slot}
    (h : push insn c.builder = .ok u B) (hnew : ∀ index, insn ≠ .new index)
    (hverify : ∀ pool thisClass allocation, insn.verify pool thisClass allocation = Verifying.push type)
    (htype : type.width = 1)
    (hrun : ∀ pool (locals : Locals M) stack world,
      insn.run pool locals stack world = .next locals (value :: stack) world) :
    host.Computes c { c with builder := B } [] [1] fun (_ : Store M) _ => pure [value] := by
  refine (computes_push h hnew (fun thisClass allocation => ?_) (fun _ _ _ _ _ => ?_)).2
  · rw [hverify, ← htype]
    exact .push type
  · refine Insn.performs_pure fun operands stack world hlength => ?_
    rw [List.length_eq_zero_iff.1 hlength]
    exact ⟨rfl, hrun _ _ stack world⟩

theorem computes_constInt (value : Int32) (h : Builder.constInt value c.builder = .ok u B) :
    host.Computes c { c with builder := B } [] [1] fun (_ : Store M) _ => pure [M.int value] := by
  unfold Builder.constInt at h
  split at h
  · next hsmall =>
    refine computes_const h (by simp) (fun _ _ _ => rfl) rfl fun pool locals stack world => ?_
    rw [Insn.run, ofInt_small value hsmall]
  · split at h
    · next hbyte =>
      refine computes_const h (by simp) (fun _ _ _ => rfl) rfl fun pool locals stack world => ?_
      rw [Insn.run, toInt32_toInt8 value hbyte]
    · split at h
      · next hshort =>
        refine computes_const h (by simp) (fun _ _ _ => rfl) rfl fun pool locals stack world => ?_
        rw [Insn.run, toInt32_toInt16 value hshort]
      · refine (computes_interned h (ConstantPool.settled_internInteger value) (by simp)
          (fun index _ pool _ _ _ => Insn.shifts_loadOfWidth index 1)
          fun index _ pool hp hle _ _ => Insn.performs_pure fun operands stack world hlength => ?_).2
        rw [Insn.run, ConstantPool.get_of_le hle (ConstantPool.get_of_intern hp),
          List.length_eq_zero_iff.1 hlength]
        exact ⟨rfl, rfl⟩

/-- An instruction that takes nothing, for an action of its own. -/
theorem performs_alone {pool : ConstantPool} {locals : Locals M} {insn : Insn} {action : Action}
    (hrun : ∀ stack world, insn.run pool locals stack world = insn.act pool locals stack world)
    (haction : insn.action pool = .ok action)
    (heffect : insn.stackEffect pool = .ok ⟨0, pushed.sum⟩) :
    insn.Performs pool locals [] pushed fun _ => perform action [] pushed.sum :=
  fun operands stack world hlength => by
    have hnil := List.length_eq_zero_iff.1 hlength
    subst hnil
    exact @Insn.performs_act M [] pushed pool locals insn action hrun haction heffect [] stack world rfl

theorem computes_constLong (value : Int64) (h : Builder.constLong value c.builder = .ok u B) :
    host.Computes c { c with builder := B } [] [2] fun (_ : Store M) _ => perform (.long value) [] 2 := by
  unfold Builder.constLong at h
  split at h
  · next hzero =>
    refine (computes_push h (by simp) (fun _ _ => .push .long) fun _ _ _ _ _ =>
      performs_alone (fun _ _ => rfl) ?_ rfl).2
    rw [hzero]
    rfl
  · split at h
    · next hone =>
      refine (computes_push h (by simp) (fun _ _ => .push .long) fun _ _ _ _ _ =>
        performs_alone (fun _ _ => rfl) ?_ rfl).2
      rw [hone]
      rfl
    · refine (computes_interned h (ConstantPool.settled_internLong value) (by simp)
        (fun index _ pool _ _ _ => Insn.shifts_loadOfWidth index 2)
        fun index _ pool hp hle _ _ => performs_alone (fun _ _ => rfl) ?_ rfl).2
      exact Insn.action_long (ConstantPool.get_of_le hle (ConstantPool.get_of_intern hp))

theorem computes_constString (text : String) (h : Builder.constString text c.builder = .ok u B) :
    host.Computes c { c with builder := B } [] [1] fun (_ : Store M) _ => perform (.text text) [] 1 := by
  refine (computes_interned h (ConstantPool.settled_internString text) (by simp)
    (fun index _ pool _ _ _ => Insn.shifts_loadOfWidth index 1)
    fun index _ pool hp hle _ _ => ?_).2
  obtain ⟨content, middle, hcontent, hindex⟩ := bind_eq_ok.1 hp
  have hget := ConstantPool.get_of_le hle (ConstantPool.get_of_intern hindex)
  have hutf8 := ConstantPool.utf8_of_le (ConstantPool.le_trans (ConstantPool.settled_intern _ _ _ _ hindex).1 hle)
    (ConstantPool.utf8_of_internUtf8 hcontent)
  refine performs_alone (fun stack world => ?_) (Insn.action_text hget hutf8) rfl
  rw [Insn.run, hget]

theorem computes_load {kind : SlotKind} {slot : UInt16} {value : Store M → Option (List M.Slot)}
    (h : push (.load kind slot) c.builder = .ok u B)
    (hread : host.Contains c → ∀ store locals, host.Matches store locals →
      locals.read slot.toNat kind.width = value store) :
    host.Computes c { c with builder := B } [] [kind.width] fun store _ => ofOption (value store) := by
  refine (computes_push h (by simp) (fun thisClass allocation before _ after hv => ?_)
    fun contains store locals hm ha => ?_).2
  · obtain ⟨hwidths, hlocals, -⟩ := Insn.verify_load hv
    exact ⟨⟨before.widths, rfl, hwidths⟩, hlocals ▸ subset_rfl⟩
  · obtain ⟨before, after, hf, hv, -⟩ := push_eq_ok (by simp) h
    obtain ⟨frame, -, hframe, -, hsub⟩ := ha
    cases hf.symm.trans hframe
    obtain ⟨-, -, promised⟩ := Insn.verify_load hv
    obtain ⟨values, hvalues⟩ := Locals.exists_read fun k hk => hsub (promised k hk)
    rw [← hread (contains.of_goes (stays_push (by simp) h).goes) store locals hm, hvalues]
    refine Insn.performs_pure fun operands stack world hlength => ?_
    rw [List.length_eq_zero_iff.1 hlength, Insn.run, hvalues]
    exact ⟨(Locals.read_eq_some.1 hvalues).1.trans (Nat.add_zero _).symm, rfl⟩

theorem computes_arrayLength (h : push .arrayLength c.builder = .ok u B) :
    c.builder.Takes [1] ∧ host.Computes c { c with builder := B } [1] [1]
      fun (_ : Store M) operands => perform (.other .arrayLength) operands 1 :=
  computes_push h (by simp) (fun _ _ => Insn.shifts_arrayLength) fun _ _ _ _ _ =>
    Insn.performs_act (fun _ _ => rfl) rfl rfl

theorem computes_arrayLoad (kind : ArrayKind) (h : push (.arrayLoad kind) c.builder = .ok u B) :
    c.builder.Takes [1, 1] ∧ host.Computes c { c with builder := B } [1, 1] [kind.width]
      fun (_ : Store M) operands => perform (.other (.arrayLoad kind)) operands kind.width :=
  computes_push h (by simp) (fun _ _ => Insn.shifts_arrayLoad kind) fun _ _ _ _ _ =>
    @Insn.performs_act M [1, 1] [kind.width] _ _ _ _ (fun _ _ => rfl) rfl rfl

theorem computes_arrayStore (h : push (.arrayStore .reference) c.builder = .ok u B) :
    c.builder.Takes [1, 1, 1] ∧ host.Computes c { c with builder := B } [1, 1, 1] []
      fun (_ : Store M) operands => perform (.other (.arrayStore .reference)) operands 0 :=
  computes_push h (by simp) (fun _ _ => Insn.shifts_arrayStore) fun _ _ _ _ _ =>
    Insn.performs_act (fun _ _ => rfl) rfl rfl

theorem computes_dup (h : push (.stack .dup) c.builder = .ok u B) :
    host.Computes c { c with builder := B } [1] [1, 1]
      fun (_ : Store M) operands => pure (operands ++ operands) := by
  refine (computes_push h (by simp) (fun _ _ => Insn.shifts_dup) fun _ _ _ _ _ =>
    Insn.performs_pure fun operands stack world hlength => ?_).2
  obtain ⟨value, rfl⟩ := List.length_eq_one_iff.1 hlength
  exact ⟨rfl, rfl⟩

theorem computes_bitwise (h : push (.bitwise .and false) c.builder = .ok u B) :
    c.builder.Takes [1, 1] ∧ host.Computes c { c with builder := B } [1, 1] [1]
      fun (_ : Store M) operands => match operands with
        | [b, a] => pure [M.int (M.toInt a &&& M.toInt b)]
        | _ => throw .stuck := by
  refine computes_push h (by simp) (fun _ _ => Insn.shifts_bitwise .and) fun _ _ _ _ _ =>
    fun operands stack world hlength => ?_
  obtain ⟨b, a, rfl⟩ := List.length_eq_two.1 hlength
  exact ⟨rfl, rfl⟩

theorem computes_checkCast (name : String) (h : Builder.checkCast name c.builder = .ok u B) :
    c.builder.Takes [1] ∧ host.Computes c { c with builder := B } [1] [1]
      fun (_ : Store M) operands => perform (.cast name) operands 1 :=
  computes_interned h (ConstantPool.settled_internClass name) (by simp)
    (fun index _ pool _ _ _ => Insn.shifts_checkCast index) fun _ _ _ hp hle _ _ =>
      Insn.performs_act (fun _ _ => rfl)
        (Insn.action_checkCast (ConstantPool.className_of_le hle (ConstantPool.className_of_internClass hp)))
        rfl

theorem computes_newRefArray (element : String) (h : Builder.newRefArray element c.builder = .ok u B) :
    c.builder.Takes [1] ∧ host.Computes c { c with builder := B } [1] [1]
      fun (_ : Store M) operands => perform (.newArray element) operands 1 :=
  computes_interned h (ConstantPool.settled_internClass element) (by simp)
    (fun index _ pool _ _ _ => Insn.shifts_newRefArray index) fun _ _ _ hp hle _ _ =>
      Insn.performs_act (fun _ _ => rfl)
        (Insn.action_newRefArray (ConstantPool.className_of_le hle (ConstantPool.className_of_internClass hp)))
        rfl

section Members

variable {owner name descriptor : String}

theorem computes_getField {type : FieldType} (ht : FieldType.parse descriptor = .ok type)
    (h : Builder.field .getField owner name descriptor c.builder = .ok u B) :
    c.builder.Takes [1] ∧ host.Computes c { c with builder := B } [1] [type.width]
      fun (_ : Store M) operands =>
        perform (.field .getField ⟨owner, name, descriptor⟩) operands type.width := by
  refine computes_interned h (ConstantPool.settled_internField owner name descriptor) (by simp)
    (fun index _ pool hp _ _ => (Insn.shifts_field (ConstantPool.fieldRef_of_internField hp) ht).1 rfl)
    fun index _ pool hp hle _ _ => ?_
  have hfield := ConstantPool.fieldRef_of_le hle (ConstantPool.fieldRef_of_internField hp)
  exact @Insn.performs_act M [1] [type.width] _ _ _ _ (fun _ _ => rfl) (Insn.action_field hfield)
    (Insn.stackEffect_field hfield ht .getField)

theorem computes_getStatic {type : FieldType} (ht : FieldType.parse descriptor = .ok type)
    (h : Builder.field .getStatic owner name descriptor c.builder = .ok u B) :
    host.Computes c { c with builder := B } [] [type.width] fun (_ : Store M) _ =>
      perform (.field .getStatic ⟨owner, name, descriptor⟩) [] type.width := by
  refine (computes_interned h (ConstantPool.settled_internField owner name descriptor) (by simp)
    (fun index _ pool hp _ _ => (Insn.shifts_field (ConstantPool.fieldRef_of_internField hp) ht).2 rfl)
    fun index _ pool hp hle _ _ => ?_).2
  have hfield := ConstantPool.fieldRef_of_le hle (ConstantPool.fieldRef_of_internField hp)
  exact @performs_alone M [type.width] _ _ _ _ (fun _ _ => rfl) (Insn.action_field hfield)
    (Insn.stackEffect_field hfield ht .getStatic)

theorem computes_invoke {kind : CallKind} {method : MethodDescriptor}
    (hd : MethodDescriptor.parse descriptor = .ok method)
    (h : Builder.invoke kind.invokeKind owner name descriptor c.builder = .ok u B) :
    c.builder.Takes (method.parameters.reverse.map FieldType.width ++
        List.replicate kind.invokeKind.hasReceiver.toNat 1) ∧
      host.Computes c { c with builder := B } (method.parameters.reverse.map FieldType.width ++
        List.replicate kind.invokeKind.hasReceiver.toNat 1)
        (method.returnType.map FieldType.width).toList fun (_ : Store M) operands =>
          perform (.call kind ⟨owner, name, descriptor, kind == .interface⟩) operands
            (slotsOf method.returnType) := by
  have hpops := (Insn.sum_widths_call method kind.invokeKind.hasReceiver).1
  have hpushes : (method.returnType.map FieldType.width).toList.sum = slotsOf method.returnType := by
    unfold slotsOf
    cases method.returnType <;> rfl
  obtain ⟨call, hkind, hreceiver, h⟩ : ∃ call : InvokeKind, call.callKind = kind ∧
      call.hasReceiver = kind.invokeKind.hasReceiver ∧
      (do push (.invoke call (← interning (ConstantPool.internMethod owner name descriptor
        (kind == .interface)))) : Building Unit) c.builder = .ok u B := by
    unfold Builder.invoke at h
    cases kind with
    | interface =>
      simp only [CallKind.invokeKind, hd] at h
      exact ⟨.interface (UInt8.ofNat (method.parameterSlots true)), rfl, rfl, h⟩
    | static => exact ⟨_, rfl, rfl, h⟩
    | virtual => exact ⟨_, rfl, rfl, h⟩
    | special => exact ⟨_, rfl, rfl, h⟩
  refine computes_interned h (ConstantPool.settled_internMethod owner name descriptor _) (by simp)
    (fun index _ pool hp _ _ => ?_) fun index _ pool hp hle _ _ => ?_
  · rw [← hreceiver]
    exact Insn.shifts_invoke (ConstantPool.methodRef_of_internMethod hp) hd
  · have hmethod := ConstantPool.methodRef_of_le hle (ConstantPool.methodRef_of_internMethod hp)
    have haction := @Insn.action_invoke _ _ call _ hmethod
    rw [hkind] at haction
    rw [← hpushes]
    refine Insn.performs_act (fun _ _ => rfl) haction ?_
    rw [Insn.stackEffect_invoke hmethod hd, hpops, hpushes, hreceiver]
    rfl

end Members

end Instructions

end Host

end ClassWeave
