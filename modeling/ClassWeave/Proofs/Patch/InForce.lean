import ClassWeave.Proofs.Code.Repeating
import ClassWeave.Proofs.Patch.Recognising
import ClassWeave.Proofs.Script.Regions

/-!
Patches in force. A patch is in force in a body that comes of it and of further guards. Then a try statement of
its first guard has a row. Without any row the first branch is one of guards, and if the handler around the code
has the only row, then its return comes last. A body can show a patch without any of this.
-/

namespace ClassWeave

namespace Node

def branch? : Node → Option (Branch Label)
  | .branch found => some found
  | _ => none

/-- The jumps, switches and returns of the code, in order. -/
def branches (nodes : List Node) : List (Branch Label) := nodes.filterMap branch?

theorem mem_branches {nodes : List Node} {found : Branch Label} :
    found ∈ branches nodes ↔ .branch found ∈ nodes := by
  unfold branches
  rw [List.mem_filterMap]
  constructor
  · rintro ⟨node, hm, hbranch⟩
    cases node with
    | branch other =>
      cases Option.some.inj hbranch
      exact hm
    | label label => cases hbranch
    | insn insn => cases hbranch
  · intro hm
    exact ⟨_, hm, rfl⟩

theorem branches_append (nodes others : List Node) :
    branches (nodes ++ others) = branches nodes ++ branches others := List.filterMap_append

theorem branches_instructions (nodes : List Node) : branches (instructions nodes) = branches nodes := by
  unfold branches instructions
  rw [List.filterMap_filter]
  congr 1
  funext node
  cases node <;> rfl

/-- Code that is alike has the same branches but for their targets. -/
theorem Alike.branches {nodes others : List Node} (h : Alike nodes others) :
    List.Forall₂ (Branch.Related (Aligned nodes others)) (branches nodes) (branches others) := by
  rw [← branches_instructions nodes, ← branches_instructions others]
  refine List.rel_filterMap (fun node other related => ?_) h
  cases related with
  | insn insn => exact .none
  | branch hbranch => exact .some hbranch

theorem Alike.head?_branches {nodes others : List Node} (h : Alike nodes others) {first : Branch Label}
    (hfirst : (Node.branches nodes).head? = some first) :
    ∃ found, (Node.branches others).head? = some found ∧ first.Related (Aligned nodes others) found := by
  have related := h.branches
  generalize Node.branches nodes = jumps at hfirst related
  generalize Node.branches others = jumps' at related
  cases related with
  | nil => cases hfirst
  | cons hrelated _ =>
    cases Option.some.inj hfirst
    exact ⟨_, rfl, hrelated⟩

theorem Alike.getLast?_branches {nodes others : List Node} (h : Alike nodes others) {last : Branch Label}
    (hlast : (Node.branches nodes).getLast? = some last) :
    ∃ found, (Node.branches others).getLast? = some found ∧ last.Related (Aligned nodes others) found := by
  have related := List.forall₂_reverse_iff.2 h.branches
  rw [← List.head?_reverse] at hlast ⊢
  generalize (Node.branches nodes).reverse = jumps at hlast related
  generalize (Node.branches others).reverse = jumps' at related
  cases related with
  | nil => cases hlast
  | cons hrelated _ =>
    cases Option.some.inj hlast
    exact ⟨_, rfl, hrelated⟩

end Node

theorem Branch.Related.isTable_eq {R : Label → Label → Prop} {branch other : Branch Label}
    (h : branch.Related R other) : other.isTable = branch.isTable := by
  cases h <;> rfl

namespace PatchStrategy

/-- Is code put around old code or in front of it, rather than in its place? -/
def keepsCode : PatchStrategy → Bool
  | .replace _ => false
  | _ => true

/-- What comes of a body by patches one after the other, each with whatever constants there are. -/
inductive Makes : List PatchStrategy → MethodBody → MethodBody → Prop where
  | nil (body : MethodBody) : Makes [] body body
  | cons {strategy : PatchStrategy} {rest : List PatchStrategy} {old body last : MethodBody}
    {pool pool' : ConstantPool} : strategy.apply (some old) pool = .ok (.patched body) pool' →
      Makes rest body last → Makes (strategy :: rest) old last

end PatchStrategy

namespace MethodBody

/-- The same code with the same exception table but for the names of labels. -/
structure SameCode (body other : MethodBody) : Prop where
  shape : other.shape = body.shape
  nodes : Node.Alike body.nodes other.nodes
  handlers : List.Forall₂ (Handler.Related (Node.Aligned body.nodes other.nodes)) body.handlers other.handlers

/-- The old rows are in the table. Without new ones the old code comes last, behind branches
without tables of targets. -/
structure Keeps (old body : MethodBody) : Prop where
  shape : body.shape = old.shape
  handlers : old.handlers <:+: body.handlers
  nodes : body.handlers.length = old.handlers.length → ∃ front, body.nodes = front ++ old.nodes ∧
    ∀ branch ∈ Node.branches front, branch.isTable = false

namespace Keeps

variable {old body last : MethodBody}

theorem refl (body : MethodBody) : Keeps body body :=
  ⟨rfl, List.infix_refl _, fun _ => ⟨[], rfl, List.forall_mem_nil _⟩⟩

theorem trans (h : Keeps old body) (h' : Keeps body last) : Keeps old last where
  shape := h'.shape.trans h.shape
  handlers := h.handlers.trans h'.handlers
  nodes hlength := by
    have hold := h.handlers.length_le
    have hlast := h'.handlers.length_le
    obtain ⟨front, hfront, hplain⟩ := h.nodes (by omega)
    obtain ⟨front', hfront', hplain'⟩ := h'.nodes (by omega)
    refine ⟨front' ++ front, by rw [hfront', hfront, List.append_assoc], fun branch hm => ?_⟩
    rw [Node.branches_append] at hm
    exact (List.mem_append.1 hm).elim (hplain' branch) (hplain branch)

end Keeps

theorem labelAt_handlers (body : MethodBody) (position : Nat) :
    (body.labelAt position).2.handlers = body.handlers := by
  unfold labelAt
  dsimp only
  split <;> rfl

end MethodBody

namespace WrapGuard

variable {guard : WrapGuard} {old body : MethodBody} {pool pool' : ConstantPool}

theorem around_handlers (before : MethodBody) (label : Label) (tail : Fragment) (labels : LabelSupply) :
    ∃ start, (guard.around before label tail labels).handlers =
      before.handlers ++ [⟨start, label, label, guard.catchType⟩] :=
  ⟨(before.labelAt before.firstInstruction).1, congrArg (· ++ _) (before.labelAt_handlers _)⟩

theorem keeps_of_apply (h : guard.apply (some old) pool = .ok (.patched body) pool') : old.Keeps body := by
  obtain ⟨before, hbefore, patches⟩ := patches_of_apply h
  cases hbefore
  obtain ⟨label, tail, labels, -, rfl⟩ := patches.put
  obtain ⟨start, hhandlers⟩ := around_handlers old label tail labels
  constructor
  case shape => exact old.labelAt_shape _
  case handlers => exact hhandlers ▸ (List.prefix_append _ _).isInfix
  case nodes =>
    intro hlength
    rw [hhandlers, List.length_append, List.length_singleton] at hlength
    omega

end WrapGuard

theorem PrologueGuard.keeps_of_apply {guard : PrologueGuard} {old body : MethodBody} {pool pool' : ConstantPool}
    (h : guard.apply (some old) pool = .ok (.patched body) pool') : old.Keeps body := by
  obtain ⟨before, hbefore, patches⟩ := patches_of_apply h
  cases hbefore
  obtain ⟨code, labels, hcode, rfl⟩ := patches.put
  obtain ⟨-, hplain⟩ := branches_of_code patches.guards hcode
  constructor
  case shape => rfl
  case handlers => exact (List.suffix_append _ _).isInfix
  case nodes =>
    intro _
    exact ⟨code.nodes, rfl, fun branch hm => hplain branch (Node.mem_branches.1 hm)⟩

namespace PatchStrategy

/-- The code is made by the patch and then by guards. -/
def InForce (strategy : PatchStrategy) (body : MethodBody) : Prop :=
  ∃ old rest last, (∀ further ∈ rest, further.keepsCode = true) ∧ Makes (strategy :: rest) old last ∧
    last.SameCode body

theorem keeps_of_apply {strategy : PatchStrategy} {old body : MethodBody} {pool pool' : ConstantPool}
    (keeps : strategy.keepsCode = true) (h : strategy.apply (some old) pool = .ok (.patched body) pool') :
    old.Keeps body := by
  cases strategy with
  | wrap guard => exact WrapGuard.keeps_of_apply h
  | prologue guard => exact PrologueGuard.keeps_of_apply h
  | replace replacement => cases keeps

/-- Guards keep what is there, however many there are. -/
theorem Makes.keeps {strategies : List PatchStrategy} {old last : MethodBody} (h : Makes strategies old last)
    (all : ∀ strategy ∈ strategies, strategy.keepsCode = true) : old.Keeps last := by
  induction h with
  | nil body => exact .refl body
  | cons happly _ ih =>
    obtain ⟨hfirst, hrest⟩ := List.forall_mem_cons.1 all
    exact (keeps_of_apply hfirst happly).trans (ih hrest)

/-- The patch leaves a body, of which guards keep everything. -/
theorem InForce.exists_patched {strategy : PatchStrategy} {body : MethodBody} (h : strategy.InForce body) :
    ∃ old patched last pool pool', strategy.apply (some old) pool = .ok (.patched patched) pool' ∧
      patched.Keeps last ∧ last.SameCode body := by
  obtain ⟨old, rest, last, hrest, makes, same⟩ := h
  cases makes with
  | cons happly makes => exact ⟨_, _, _, _, _, happly, makes.keeps hrest, same⟩

end PatchStrategy

namespace PrologueGuard

variable {body : MethodBody}

/-- A try statement of a first guard that is in force has its row. -/
theorem lists_of_inForce {guard : Guard} {rest : List Guard} {statements handler : List Stmt}
    {catchType binding : Option String} (hm : .tryCatch statements catchType binding handler ∈ guard.tail)
    (h : (PatchStrategy.prologue ⟨guard :: rest⟩).InForce body) : Handler.Lists body.handlers catchType := by
  obtain ⟨old, patched, last, pool, pool', happly, keeps, same⟩ := h.exists_patched
  change PrologueGuard.apply ⟨guard :: rest⟩ (some old) pool = .ok (.patched patched) pool' at happly
  obtain ⟨before, hbefore, patches⟩ := patches_of_apply happly
  cases hbefore
  obtain ⟨code, labels, hcode, rfl⟩ := patches.put
  obtain ⟨row, hrow, hcatch⟩ := lists_of_code hm hcode
  have hlast : row ∈ last.handlers := keeps.handlers.subset (List.mem_append_left _ hrow)
  obtain ⟨other, hother, related⟩ := exists_right_of_mem same.handlers hlast
  exact ⟨other, hother, related.catchType.trans hcatch⟩

/-- In a body without rows the first branch is one of guards, which have no tables of targets. -/
theorem head?_of_inForce {guard : PrologueGuard} (h : (PatchStrategy.prologue guard).InForce body)
    (bare : body.handlers = []) :
    ∃ branch, (Node.branches body.nodes).head? = some branch ∧ branch.isTable = false := by
  obtain ⟨old, patched, last, pool, pool', happly, keeps, same⟩ := h.exists_patched
  change guard.apply (some old) pool = .ok (.patched patched) pool' at happly
  obtain ⟨before, hbefore, patches⟩ := patches_of_apply happly
  cases hbefore
  obtain ⟨code, labels, hcode, rfl⟩ := patches.put
  obtain ⟨⟨inner, hinner⟩, hplain⟩ := branches_of_code patches.guards hcode
  have hnone : last.handlers = [] := List.forall₂_nil_right_iff.1 (bare ▸ same.handlers)
  have hle := keeps.handlers.length_le
  rw [hnone] at hle
  obtain ⟨front, hfront, hplain'⟩ := keeps.nodes (hnone ▸ (Nat.le_zero.1 hle).symm)
  have hbranches : Node.branches last.nodes =
      (Node.branches front ++ Node.branches code.nodes) ++ Node.branches old.nodes := by
    rw [hfront, List.append_assoc, ← Node.branches_append, ← Node.branches_append]
    rfl
  have some : Node.branches front ++ Node.branches code.nodes ≠ [] :=
    List.ne_nil_of_mem (List.mem_append_right _ (Node.mem_branches.2 hinner))
  have hfirst : (Node.branches last.nodes).head? = .some (List.head _ some) := by
    rw [hbranches, List.head?_append_of_ne_nil _ some, List.head?_eq_some_head some]
  obtain ⟨found, hfound, hrelated⟩ := same.nodes.head?_branches hfirst
  refine ⟨found, hfound, hrelated.isTable_eq.trans ?_⟩
  rcases List.mem_append.1 (List.head_mem some) with hm | hm
  · exact hplain' _ hm
  · exact hplain _ (Node.mem_branches.1 hm)

end PrologueGuard

/-- If the guard that is in force has the only row, then the return of its handler comes last. -/
theorem WrapGuard.getLast?_of_inForce {guard : WrapGuard} {body : MethodBody}
    (h : (PatchStrategy.wrap guard).InForce body) (single : body.handlers.length ≤ 1) :
    (Node.branches body.nodes).getLast? = some (.returnFor body.shape.returnType) := by
  obtain ⟨old, patched, last, pool, pool', happly, keeps, same⟩ := h.exists_patched
  change guard.apply (some old) pool = .ok (.patched patched) pool' at happly
  obtain ⟨before, hbefore, patches⟩ := patches_of_apply happly
  cases hbefore
  obtain ⟨label, tail, labels, htail, hpatched⟩ := patches.put
  obtain ⟨start, hhandlers⟩ := around_handlers old label tail labels
  have hlength : patched.handlers.length = old.handlers.length + 1 := by
    rw [hpatched, hhandlers, List.length_append, List.length_singleton]
  have hle := keeps.handlers.length_le
  have hsame := same.handlers.length_eq
  obtain ⟨front, hfront, -⟩ := keeps.nodes (by omega)
  obtain ⟨insns, htailNodes⟩ := (handles_of_tail patches.fits htail).nodes
  have hnodes : ∃ inside, last.nodes = inside ++ [.branch (.returnFor old.shape.returnType)] := by
    rw [hfront, hpatched]
    change ∃ inside, front ++ (_ ++ tail.nodes) = _
    rw [htailNodes, ← List.cons_append, ← List.append_assoc, ← List.append_assoc]
    exact ⟨_, rfl⟩
  obtain ⟨inside, hinside⟩ := hnodes
  have hshape : body.shape = old.shape := by
    rw [same.shape, keeps.shape, hpatched]
    exact old.labelAt_shape _
  have hlast : (Node.branches last.nodes).getLast? = some (.returnFor old.shape.returnType) := by
    rw [hinside, Node.branches_append]
    exact List.getLast?_concat
  obtain ⟨found, hfound, hrelated⟩ := same.nodes.getLast?_branches hlast
  cases hrelated
  exact hshape ▸ hfound

namespace PatchStrategy

/-- The body that the patch makes, and the constants then. -/
def patched? (strategy : PatchStrategy) (old : MethodBody) (pool : ConstantPool) :
    Option (MethodBody × ConstantPool) :=
  match strategy.apply (some old) pool with
  | .ok (.patched body) pool' => some (body, pool')
  | _ => none

theorem patched?_eq_some {strategy : PatchStrategy} {old body : MethodBody} {pool pool' : ConstantPool} :
    strategy.patched? old pool = some (body, pool') ↔
      strategy.apply (some old) pool = .ok (.patched body) pool' := by
  unfold patched?
  constructor
  · intro h
    split at h
    · next happly =>
      cases h
      exact happly
    · cases h
  · intro happly
    rw [happly]

/-- Guards that return if the argument is zero. -/
def zeroCheck : PatchStrategy := .prologue ⟨[⟨.isFalse (.argument 0), [.leave none]⟩]⟩

/-- The argument is compared with zero in one case of a switch only. -/
def switching : MethodBody where
  shape := ⟨"com/example/Thing", true, false, ⟨[.base .int], none⟩⟩
  envelope := ⟨1, 1⟩
  nodes := [.insn (.load .int 0), .branch (.tableSwitch ⟨0⟩ 1 [⟨1⟩]), .label ⟨0⟩, .insn (.load .int 0),
    .branch (.ifZero .ne ⟨1⟩), .branch (.return none), .label ⟨1⟩, .branch (.return none)]
  handlers := []
  frames := [(⟨0⟩, ⟨[.integer], []⟩), (⟨1⟩, ⟨[.integer], []⟩)]
  lines := []
  locals := []
  localTypes := []
  labels := ⟨2⟩

/-- Guards that, if the argument is zero, make a call and return, also if something of a class is thrown. -/
def tryingCheck (caught : String) : PatchStrategy :=
  .prologue ⟨[⟨.isFalse (.argument 0), [.tryCatch
    [.eval (.call .static "com/example/Thing" "check" "()V" none [])] (some caught) none [.leave none]]⟩]⟩

def returning : MethodBody where
  shape := ⟨"com/example/Thing", true, false, ⟨[.base .int], none⟩⟩
  envelope := ⟨0, 1⟩
  nodes := [.branch (.return none)]
  handlers := []
  frames := []
  lines := []
  locals := []
  localTypes := []
  labels := ⟨0⟩

/-- A patch may change nothing where it is not in force: where its handler protects other code, where its guards
are behind other code, and where a guard of the same form catches something else. -/
theorem not_inForce_of_unchanged :
    (∃ pool', suppressing.apply (some throwing) .empty = .ok .unchanged pool' ∧ ¬suppressing.InForce throwing) ∧
    (∃ pool', zeroCheck.apply (some switching) .empty = .ok .unchanged pool' ∧ ¬zeroCheck.InForce switching) ∧
    ∃ body pool pool', (tryingCheck "a/A").apply (some returning) .empty = .ok (.patched body) pool ∧
      (tryingCheck "a/B").apply (some body) pool = .ok .unchanged pool' ∧ ¬(tryingCheck "a/B").InForce body := by
  refine ⟨?wrapped, ?behind, ?catching⟩
  case wrapped =>
    have found : suppressing.isFound throwing .empty = true := by decide +kernel
    obtain ⟨pool', happly⟩ := isFound_iff.1 found
    refine ⟨pool', happly, fun h => ?_⟩
    -- The last branch throws.
    have hlast := WrapGuard.getLast?_of_inForce h (by decide)
    cases hlast
  case behind =>
    have found : zeroCheck.isFound switching .empty = true := by decide +kernel
    obtain ⟨pool', happly⟩ := isFound_iff.1 found
    refine ⟨pool', happly, fun h => ?_⟩
    obtain ⟨branch, hfirst, hplain⟩ := PrologueGuard.head?_of_inForce h rfl
    cases hfirst
    cases hplain
  case catching =>
    have patched : ((tryingCheck "a/A").patched? returning .empty).any (fun made =>
        made.1.handlers.all (·.catchType = some "a/A") && (tryingCheck "a/B").isFound made.1 made.2) = true := by
      decide +kernel
    obtain ⟨⟨body, pool⟩, hbody, hrest⟩ := (Option.any_eq_true _ _).1 patched
    obtain ⟨hall, found⟩ := Bool.and_eq_true_iff.1 hrest
    obtain ⟨pool', happly⟩ := isFound_iff.1 found
    refine ⟨body, pool, pool', patched?_eq_some.1 hbody, happly, fun h => ?_⟩
    obtain ⟨row, hrow, hcatch⟩ := PrologueGuard.lists_of_inForce (List.mem_singleton_self _) h
    have hother := of_decide_eq_true (List.all_eq_true.1 hall row hrow)
    rw [hother] at hcatch
    exact absurd hcatch (by decide)

end PatchStrategy

end ClassWeave
