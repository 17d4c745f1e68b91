import ClassWeave.Proofs.Class.Consuming
import ClassWeave.Proofs.Pool.Leaving

/-!
Classes that are made and edited by the library. Whatever was interned on the way, also by steps that
failed, their pools were filled by appending constants to the empty pool, so the index of a pool is told
by its constants. Such a class is read back as it was.
-/

namespace ClassWeave

namespace ConstantPool

/-- The pool was filled one constant after the other. -/
inductive Built : ConstantPool → Prop
  | empty : Built .empty
  | push {pool : ConstantPool} (h : Built pool) (constant : Constant)
      (room : pool.size + constant.width ≤ 65535) : Built (pool.push constant room)

/-- The constants tell the whole pool, and so where each of them is found. -/
theorem Built.eq_of_constants {p q : ConstantPool} (hp : p.Built) (hq : q.Built)
    (h : p.constants = q.constants) : p = q := by
  induction hp generalizing q with
  | empty =>
    cases hq with
    | empty => rfl
    | push _ constant room =>
      rw [constants_push] at h
      exact absurd h.symm (List.append_ne_nil_of_right_ne_nil _ (List.cons_ne_nil _ _))
  | push _ constant room ih =>
    cases hq with
    | empty =>
      rw [constants_push] at h
      exact absurd h (List.append_ne_nil_of_right_ne_nil _ (List.cons_ne_nil _ _))
    | push hq other room' =>
      rw [constants_push, constants_push] at h
      obtain ⟨hbefore, hlast⟩ := List.append_inj' h rfl
      cases ih hq hbefore
      cases hlast
      rfl

/-- What the pools of classes have in common: texts that are kept as bytes are not those of a text. -/
structure Canonical (pool : ConstantPool) : Prop where
  built : pool.Built
  undecoded : ∀ constant ∈ pool.constants, constant.isUndecoded = true → constant.Fits

theorem canonical_empty : ConstantPool.empty.Canonical := ⟨.empty, fun constant hm => by cases hm⟩

theorem kept_canonical : KeptByInterning Canonical := by
  refine kept_of_push fun pool constant room hdecoded _ h => ⟨h.built.push constant room, ?_⟩
  intro other hm hundecoded
  rw [constants_push] at hm
  rcases List.mem_append.1 hm with hm | hm
  · exact h.undecoded other hm hundecoded
  · rw [List.mem_singleton.1 hm, hdecoded] at hundecoded
    cases hundecoded

theorem built_readOnto {limit : Nat} {limit_le : limit ≤ 65535} {fuel : Nat} {pool found : ConstantPool}
    {input rest : Bytes} (h : readOnto limit limit_le fuel pool input = .ok (found, rest))
    (hbuilt : pool.Built) : found.Built := by
  induction fuel generalizing pool input with
  | zero =>
    cases h
    exact hbuilt
  | succ fuel ih =>
    unfold readOnto at h
    split at h
    · split at h
      · cases h
      · split at h
        · exact ih h (hbuilt.push _ _)
        · cases h
    · cases h
      exact hbuilt

theorem gives_built : Gives ConstantPool.read Built := by
  refine .skip fun count input pool rest h => ?_
  split at h
  · obtain ⟨_, _, hthrow, -⟩ := stateT_bind_eq_ok.1 h
    exact (stateT_throw_ne_ok.1 hthrow).elim
  · exact built_readOnto h .empty

end ConstantPool

/-- A request for a constant, which is found or else appended with what it refers to. -/
inductive ConstantRequest where
  | utf8 (text : String)
  | classRef (name : String)
  | string (text : String)
  | integer (value : Int32)
  | long (value : Int64)
  | nameAndType (name descriptor : String)
  | field (owner name descriptor : String)
  | method (owner name descriptor : String) (ofInterface : Bool)

namespace ConstantRequest

open ConstantPool

def run : ConstantRequest → Interning PoolIndex
  | .utf8 text => internUtf8 text
  | .classRef name => internClass name
  | .string text => internString text
  | .integer value => internInteger value
  | .long value => internLong value
  | .nameAndType name descriptor => internNameAndType name descriptor
  | .field owner name descriptor => internField owner name descriptor
  | .method owner name descriptor ofInterface => internMethod owner name descriptor ofInterface

theorem leaves_run {holds : ConstantPool → Prop} (interns : KeptByInterning holds)
    (request : ConstantRequest) : Leaves holds request.run := by
  cases request with
  | utf8 text => exact leaves_internUtf8 interns text
  | classRef name => exact leaves_internClass interns name
  | string text => exact leaves_internString interns text
  | integer value => exact leaves_internInteger interns value
  | long value => exact leaves_internLong interns value
  | nameAndType name descriptor => exact leaves_internNameAndType interns name descriptor
  | field owner name descriptor => exact leaves_internField interns owner name descriptor
  | method owner name descriptor ofInterface => exact leaves_internMethod interns owner name descriptor ofInterface

end ConstantRequest

namespace Member

/-- The member with one more attribute. -/
def attach {kind : FlagKind} (item : Attribute) (declared : Member kind) : Member kind :=
  { declared with attributes := declared.attributes ++ [item] }

end Member

namespace ClassFile

/-- The class was made or parsed, and then edited. An edit may fail and leave what it interned. -/
inductive Reachable : ClassFile → Prop
  | new {thisClass : String} {superClass : Option String} {flags : ClassFlags} {version : Version}
      {file : ClassFile} (h : ClassFile.new thisClass superClass flags version = .ok file) : Reachable file
  | parse {image : Bytes} {file : ClassFile} (h : ClassFile.parse image = .ok file) : Reachable file
  | addField {file : ClassFile} (h : Reachable file) (flags : FieldFlags) (name descriptor : String) :
      Reachable (stateAfter (ClassFile.addField flags name descriptor) file)
  | addMethod {file : ClassFile} (h : Reachable file) (flags : MethodFlags) (name descriptor : String)
      (code : Option Code) : Reachable (stateAfter (ClassFile.addMethod flags name descriptor code) file)
  | setMethodCode {file : ClassFile} (h : Reachable file) (position : Nat) (code : Code) :
      Reachable (stateAfter (ClassFile.setMethodCode position code) file)
  | request {file : ClassFile} (h : Reachable file) (request : ConstantRequest) :
      Reachable { file with pool := stateAfter request.run file.pool }
  | attach {file : ClassFile} (h : Reachable file) (item : Attribute) :
      Reachable { file with attributes := file.attributes ++ [item] }
  | attachToField {file : ClassFile} (h : Reachable file) (position : Nat) (item : Attribute) :
      Reachable { file with fields := file.fields.modify position (Member.attach item) }
  | attachToMethod {file : ClassFile} (h : Reachable file) (position : Nat) (item : Attribute) :
      Reachable { file with methods := file.methods.modify position (Member.attach item) }

section Editing

variable {holds : ConstantPool → Prop}

/-- The class has a pool of the kind. -/
def Pooled (holds : ConstantPool → Prop) (file : ClassFile) : Prop := holds file.pool

/-- A step on the pool, which may depend on the rest of the class, keeps what it keeps of the pool. -/
theorem leaves_withPool {ε α : Type} {step : ClassFile → EStateM ε ConstantPool α}
    (h : ∀ file, Leaves holds (step file)) : Leaves (Pooled holds) fun file => file.withPool (step file) := by
  intro file hfile
  have hpool : holds (stateAfter (step file) file.pool) := h file file.pool hfile
  unfold Pooled stateAfter withPool at *
  cases hstep : step file file.pool <;> simpa only [hstep] using hpool

theorem leaves_interning {α : Type} {step : Encoding α} (h : Leaves holds step) :
    Leaves (Pooled holds) (interning step) := leaves_withPool fun _ => h

variable (interns : KeptByInterning holds)

include interns

theorem leaves_addField (flags : FieldFlags) (name descriptor : String) :
    Leaves (Pooled holds) (addField flags name descriptor) :=
  .bind (leaves_interning (leaves_utf8 interns name)) fun _ =>
    .bind (leaves_interning (leaves_utf8 interns descriptor)) fun _ => .modify fun _ h => h

theorem leaves_addMethod (flags : MethodFlags) (name descriptor : String) (code : Option Code) :
    Leaves (Pooled holds) (addMethod flags name descriptor code) := by
  have added (stored : Option Attribute) (name descriptor : PoolIndex) : Leaves (Pooled holds) (do
      let method : Method := ⟨flags, name, descriptor, stored.toList⟩
      let file ← get
      set { file with methods := file.methods ++ [method] }
      return file.methods.length : Editing Nat) :=
    .get fun _ h => .bind (.set h) fun _ => .pure _
  refine .bind (leaves_interning (leaves_utf8 interns name)) fun nameIndex =>
    .bind (leaves_interning (leaves_utf8 interns descriptor)) fun descriptorIndex => ?_
  cases code with
  | none => exact .bind (.pure none) fun stored => added stored _ _
  | some code =>
    exact .bind (.map some (leaves_interning (Code.format.leaves_store interns code))) fun stored =>
      added stored _ _

theorem leaves_setMethodCode (position : Nat) (code : Code) :
    Leaves (Pooled holds) (setMethodCode position code) := by
  refine .bind (leaves_interning (Code.format.leaves_store interns code)) fun stored => .get fun file h => ?_
  split
  · exact .throw _
  · exact .set h

end Editing

theorem canonical_of_new {thisClass : String} {superClass : Option String} {flags : ClassFlags}
    {version : Version} {file : ClassFile} (h : ClassFile.new thisClass superClass flags version = .ok file) :
    file.pool.Canonical := by
  have named (name : String) : Leaves ConstantPool.Canonical (ConstantPool.internClass name) :=
    ConstantPool.leaves_internClass ConstantPool.kept_canonical name
  have step : Leaves ConstantPool.Canonical (do
      let thisClass ← ConstantPool.internClass thisClass
      return (thisClass, ← superClass.mapM ConstantPool.internClass) :
        Interning (PoolIndex × Option PoolIndex)) := by
    refine .bind (named thisClass) fun _ => .bind ?_ fun _ => .pure _
    cases superClass with
    | none => exact .pure none
    | some superClass => exact .map some (named superClass)
  unfold ClassFile.new at h
  dsimp only at h
  split at h
  · next hnames =>
    cases h
    have hpool := step .empty ConstantPool.canonical_empty
    rwa [stateAfter_of_ok hnames] at hpool
  · cases h

theorem canonical_of_parse {image : Bytes} {file : ClassFile} (h : ClassFile.parse image = .ok file) :
    file.pool.Canonical := by
  have reads : Gives ClassFile.read fun file => file.pool.Built :=
    .skip fun _ => .bind ConstantPool.gives_built fun _ hbuilt => .skip fun _ => .skip fun _ => .skip fun _ =>
      .skip fun _ => .skip fun _ => .skip fun _ => .skip fun _ => .pure hbuilt
  obtain ⟨rest, -, hread⟩ := parse_eq_ok.1 h
  exact ⟨reads rest file [] hread, fun constant hm _ => (fits_of_parse h).2 constant hm⟩

theorem Reachable.canonical {file : ClassFile} (h : file.Reachable) : file.pool.Canonical := by
  have interns := ConstantPool.kept_canonical
  induction h with
  | new h => exact canonical_of_new h
  | parse h => exact canonical_of_parse h
  | addField _ flags name descriptor ih => exact leaves_addField interns flags name descriptor _ ih
  | addMethod _ flags name descriptor code ih => exact leaves_addMethod interns flags name descriptor code _ ih
  | setMethodCode _ position code ih => exact leaves_setMethodCode interns position code _ ih
  | request _ request ih => exact request.leaves_run interns _ ih
  | attach _ _ ih => exact ih
  | attachToField _ _ _ ih => exact ih
  | attachToMethod _ _ _ ih => exact ih

/-- A class with a pool of that kind is read back as it was, if all it holds fits. -/
theorem parse_bytes_of_canonical {file : ClassFile} (h : file.pool.Canonical) (fits : file.Fits)
    (constants : ∀ constant ∈ file.pool.constants, constant.Fits) : ClassFile.parse file.bytes = .ok file := by
  obtain ⟨pool, hslots, hparse⟩ := reads_bytes fits constants
  have hpool : pool = file.pool := by
    refine (canonical_of_parse hparse).built.eq_of_constants h.built ?_
    unfold ConstantPool.constants
    rw [hslots]
  subst hpool
  exact hparse

/-- A class that was made and edited is read back as it was, if its lists and attributes fit the fields
that hold their lengths, and so do its texts. The pool that is read finds and appends what the old one
does. -/
theorem parse_bytes_of_reachable {file : ClassFile} (h : file.Reachable) (fits : file.Fits)
    (texts : ∀ text, .utf8 text ∈ file.pool.constants → (ModifiedUtf8.encode text.toList).length ≤ 65535) :
    ∃ reread, ClassFile.parse file.bytes = .ok reread ∧ reread = file ∧
      ∀ request : ConstantRequest, request.run reread.pool = request.run file.pool := by
  have hcanonical := h.canonical
  have hconstants : ∀ constant ∈ file.pool.constants, constant.Fits := by
    intro constant hm
    cases constant with
    | utf8 text => exact Nat.lt_succ_of_le (texts text hm)
    | undecodedUtf8 content => exact hcanonical.undecoded _ hm rfl
    | _ => exact trivial
  exact ⟨file, parse_bytes_of_canonical hcanonical fits hconstants, rfl, fun _ => rfl⟩

/-- A new class with a method that returns at once. -/
def edited (made : ClassFile) : ClassFile :=
  stateAfter (addMethod (.ofBits .ofMethod 9) "run" "()V" (some ⟨0, 0, [0xB1], [], []⟩)) made

theorem parse_bytes_of_edited : ∃ made,
    ClassFile.new "a/B" (some "java/lang/Object") (.ofBits .ofClass 0x21) ⟨52, 0⟩ = .ok made ∧
      made.edited.methods.length = 1 ∧ ∃ reread, ClassFile.parse made.edited.bytes = .ok reread ∧
        reread = made.edited ∧
        ∀ request : ConstantRequest, request.run reread.pool = request.run made.edited.pool := by
  have ready : (match ClassFile.new "a/B" (some "java/lang/Object") (.ofBits .ofClass 0x21) ⟨52, 0⟩ with
    | .ok made => decide (made.edited.methods.length = 1 ∧ made.edited.Fits ∧
        ∀ constant ∈ made.edited.pool.constants, constant.Fits)
    | .error _ => false) = true := by decide +kernel
  split at ready
  · next made hnew =>
    obtain ⟨hcount, hfits, htexts⟩ := of_decide_eq_true ready
    exact ⟨made, hnew, hcount, parse_bytes_of_reachable ((Reachable.new hnew).addMethod _ _ _ _) hfits
      fun text hm => Nat.le_of_lt_succ (htexts _ hm)⟩
  · cases ready

end ClassFile

end ClassWeave
