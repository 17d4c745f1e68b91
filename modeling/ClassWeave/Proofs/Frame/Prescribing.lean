import ClassWeave.Proofs.Code.Advancing
import ClassWeave.Proofs.Code.Refitting

/-!
Stack maps as the class file format reads them. Each frame stands on the locals that the frames before
it list, with the unusable ones at the end of the list, and decoding puts just these frames in place as
long as a chop or an append does not stand on a list that ends in unusable locals.
-/

namespace ClassWeave

namespace StackMapFrame

variable {T : Type} {stands : StoredType → T → Prop} {start before locals stack : List T}
  {frame : StackMapFrame} {frames : List StackMapFrame}

/-- Does the frame say how its locals differ from those before it? -/
def editsLocals : StackMapFrame → Bool
  | .chop _ _ | .append _ _ => true
  | _ => false

/-- The locals that a frame lists after those listed before it, one for each value, and the types on
the stack, top first. -/
inductive Prescribes (stands : StoredType → T → Prop) (before : List T) :
    StackMapFrame → (locals stack : List T) → Prop where
  | same (delta : UInt16) : Prescribes stands before (.same delta) before []
  | sameOne (delta : UInt16) {type : StoredType} {out : T} :
    stands type out → Prescribes stands before (.sameOne delta type) before [out]
  | chop (delta : UInt16) {count : UInt8} {kept gone : List T} : before = kept ++ gone →
    gone.length = count.toNat → Prescribes stands before (.chop delta count) kept []
  | append (delta : UInt16) {added : List StoredType} {out : List T} :
    List.Forall₂ stands added out → Prescribes stands before (.append delta added) (before ++ out) []
  | full (delta : UInt16) {listed types : List StoredType} {locals stack : List T} :
    List.Forall₂ stands listed locals → List.Forall₂ stands types stack →
    Prescribes stands before (.full delta listed types) locals stack.reverse

/-- The locals that are listed when frames have been taken in turn. -/
inductive Lists (stands : StoredType → T → Prop) (start : List T) :
    List StackMapFrame → List T → Prop where
  | start : Lists stands start [] start
  | next {frames : List StackMapFrame} {frame : StackMapFrame} {before locals stack : List T} :
    Lists stands start frames before → Prescribes stands before frame locals stack →
    Lists stands start (frames ++ [frame]) locals

theorem Lists.of_append (h : Lists stands start (frames ++ [frame]) locals) :
    ∃ before stack, Lists stands start frames before ∧ Prescribes stands before frame locals stack := by
  generalize hall : frames ++ [frame] = all at h
  cases h with
  | start => exact absurd hall (by simp)
  | @next front last before locals stack hfront hlast =>
    obtain ⟨rfl, hsame⟩ := List.append_inj' hall rfl
    cases hsame
    exact ⟨before, stack, hfront, hlast⟩

theorem Prescribes.imp {more : StoredType → T → Prop} (h : Prescribes stands before frame locals stack)
    (hmore : ∀ type out, stands type out → more type out) :
    Prescribes more before frame locals stack := by
  cases h with
  | same delta => exact .same delta
  | sameOne delta h => exact .sameOne delta (hmore _ _ h)
  | chop delta hsplit hcount => exact .chop delta hsplit hcount
  | append delta h => exact .append delta (h.imp hmore)
  | full delta hlocals hstack => exact .full delta (hlocals.imp hmore) (hstack.imp hmore)

/-- Every frame up to the given one that edits locals stands on a list that ends in a usable one. -/
def StandsFirm (stands : StoredType → T → Prop) (top : T) (start : List T)
    (frames : List StackMapFrame) (i : Nat) : Prop :=
  ∀ j ≤ i, ∀ frame, frames[j]? = some frame → frame.editsLocals = true →
    ∀ before, Lists stands start (frames.take j) before → before.getLast? ≠ some top

end StackMapFrame

/-- Offsets are sums of deltas, with one more for each frame but the first. -/
theorem getElem?_stackMapOffsets {frames : List StackMapFrame} {frame : StackMapFrame} {i : Nat}
    (h : frames[i]? = some frame) : (stackMapOffsets none frames)[i]? =
      some (((frames.take (i + 1)).map (·.delta.toNat)).sum + i, frame) := by
  have behind : ∀ (frames : List StackMapFrame) (i before : Nat), frames[i]? = some frame →
      (stackMapOffsets (some before) frames)[i]? =
        some (before + ((frames.take (i + 1)).map (·.delta.toNat)).sum + (i + 1), frame) := by
    intro frames
    induction frames with
    | nil => exact nofun
    | cons first rest ih =>
      intro i before h
      rw [List.take_succ_cons, List.map_cons, List.sum_cons]
      cases i with
      | zero =>
        cases h
        rfl
      | succ i =>
        refine (ih i _ h).trans ?_
        rw [Option.some_inj, Prod.mk.injEq]
        dsimp only
        exact ⟨by omega, rfl⟩
  cases frames with
  | nil => cases h
  | cons first rest =>
    rw [List.take_succ_cons, List.map_cons, List.sum_cons]
    cases i with
    | zero =>
      cases h
      rfl
    | succ i => exact behind rest i _ h

theorem lt_of_mem_stackMapOffsets {frames : List StackMapFrame} {before : Nat}
    {entry : Nat × StackMapFrame} (h : entry ∈ stackMapOffsets (some before) frames) :
    before < entry.1 := by
  induction frames generalizing before with
  | nil => cases h
  | cons first rest ih =>
    rcases List.mem_cons.1 h with rfl | h
    · dsimp only
      omega
    · have hlt := ih h
      dsimp only at hlt
      omega

namespace Frame

open StackMapFrame (Prescribes)

variable {C P : Type} [DecidableEq C] [DecidableEq P]

theorem dropTops_eq_self {types : List (VerificationType C P)} (h : types.getLast? ≠ some .top) :
    dropTops types = types := by
  have hkept : types.reverse.dropWhile (· = .top) = types.reverse := by
    rw [List.dropWhile_eq_self_iff]
    intro hpos htop
    refine h ?_
    rw [← List.head?_reverse, List.head?_eq_getElem?, List.getElem?_eq_getElem hpos,
      of_decide_eq_true htop]
  unfold dropTops
  rw [hkept, List.reverse_reverse]

/-- On a frame with the locals that are listed, but for unusable ones at the end, a stack map frame
makes the prescribed frame, provided that it edits no list with such an end. -/
theorem prescribes_of_applyStackMap {previous next : Frame C P} {frame : StackMapFrame}
    {convert : StoredType → Except FrameFault (VerificationType C P)}
    {before : List (VerificationType C P)} (hprevious : previous.compactLocals = dropTops before)
    (firm : frame.editsLocals = true → before.getLast? ≠ some .top)
    (h : previous.applyStackMap frame convert = .ok next) :
    ∃ locals stack, Prescribes (fun type out => convert type = .ok out) before frame locals stack ∧
      next.sameAs (ofCompact locals stack) = true := by
  have sameLocals : ∀ stack, (ofCompact previous.compactLocals stack).sameAs (ofCompact before stack) =
      true := by
    intro stack
    rw [sameAs_iff, compactLocals_ofCompact, compactLocals_ofCompact, hprevious, dropTops_dropTops]
    exact ⟨rfl, rfl⟩
  cases frame with
  | same delta =>
    cases h
    exact ⟨before, [], .same delta, sameLocals []⟩
  | sameOne delta type =>
    obtain ⟨out, hout, h⟩ := except_bind_eq_ok.1 h
    cases h
    exact ⟨before, [out], .sameOne delta hout, sameLocals [out]⟩
  | chop delta count =>
    rw [dropTops_eq_self (firm rfl)] at hprevious
    unfold applyStackMap at h
    dsimp only at h
    split at h
    · cases h
    next hcount =>
    cases h
    rw [hprevious] at hcount ⊢
    refine ⟨_, [], .chop delta (List.take_append_drop _ before).symm ?_, sameAs_refl _⟩
    rw [List.length_drop]
    omega
  | append delta added =>
    obtain ⟨out, hout, h⟩ := except_bind_eq_ok.1 h
    cases h
    rw [hprevious, dropTops_eq_self (firm rfl)]
    exact ⟨_, [], .append delta (mapM_eq_ok.1 hout), sameAs_refl _⟩
  | full delta listed types =>
    obtain ⟨locals, hlocals, h⟩ := except_bind_eq_ok.1 h
    obtain ⟨stack, hstack, h⟩ := except_bind_eq_ok.1 h
    cases h
    exact ⟨locals, stack.reverse, .full delta (mapM_eq_ok.1 hlocals) (mapM_eq_ok.1 hstack), sameAs_refl _⟩

end Frame

namespace OffsetLabels

open StackMapFrame (Prescribes Lists StandsFirm)

variable {known : OffsetLabels} {pool : ConstantPool} {found table : FrameTable} {label : Label}

/-- Labels that no frame is put at keep what was found for them. -/
theorem find?_of_frames {entries : List (Nat × StackMapFrame)} {previous : EditFrame}
    (hother : ∀ entry ∈ entries, known.label entry.1 ≠ .ok label)
    (h : known.frames pool entries previous found = .ok table) :
    table.find? label = found.find? label := by
  induction entries generalizing previous found with
  | nil =>
    cases h
    rfl
  | cons entry rest ih =>
    obtain ⟨hfirst, hrest⟩ := List.forall_mem_cons.1 hother
    unfold frames at h
    split at h
    · cases h
    next next hnext =>
    split at h
    · cases h
    next other hlabel =>
    rw [ih hrest h, FrameTable.find?_set, if_neg]
    rintro rfl
    exact hfirst hlabel

/-- Frames in turn: what is found at the label of each is what the format prescribes there. -/
theorem prescribes_of_frames {stands : StoredType → EditType → Prop} {start before : List EditType}
    {done rest : List StackMapFrame} {previousOffset : Option Nat} {previous : EditFrame} {i : Nat}
    {frame : StackMapFrame} {offset : Nat} (numbered : known.Numbered)
    (hstands : ∀ type out, known.convert pool type = .ok out → stands type out)
    (hbefore : Lists stands start done before) (hprevious : previous.compactLocals = Frame.dropTops before)
    (firm : StandsFirm stands .top start (done ++ rest) (done.length + i))
    (h : known.frames pool (stackMapOffsets previousOffset rest) previous found = .ok table)
    (hi : (stackMapOffsets previousOffset rest)[i]? = some (offset, frame)) :
    ∃ before locals stack label stored, Lists stands start (done ++ rest.take i) before ∧
      Prescribes stands before frame locals stack ∧ known.label offset = .ok label ∧
      table.find? label = some stored ∧ stored.sameAs (.ofCompact locals stack) = true := by
  induction rest generalizing done previousOffset previous found i before with
  | nil => cases hi
  | cons first rest ih =>
    unfold stackMapOffsets at h hi
    extract_lets at h hi
    unfold frames at h
    split at h
    · cases h
    next next hnext =>
    split at h
    · cases h
    next label hlabel =>
    have hedits : first.editsLocals = true → before.getLast? ≠ some .top := fun he =>
      firm done.length (Nat.le_add_right _ _) first (by simp) he before (by simpa using hbefore)
    obtain ⟨locals, stack, hconverted, hsame⟩ := Frame.prescribes_of_applyStackMap hprevious hedits hnext
    have hprescribes := hconverted.imp hstands
    cases i with
    | zero =>
      obtain ⟨hoffset, rfl⟩ := Prod.mk.inj (Option.some.inj hi)
      rw [← hoffset]
      have hfound : table.find? label = some next := by
        rw [find?_of_frames (fun entry hm he => ?_) h, FrameTable.find?_set, if_pos rfl]
        have hsame := numbered.injective _ _ _ (label_eq_ok.1 hlabel) (label_eq_ok.1 he)
        exact absurd hsame (Nat.ne_of_lt (lt_of_mem_stackMapOffsets hm))
      exact ⟨before, locals, stack, label, next, by simpa using hbefore, hprescribes, hlabel, hfound, hsame⟩
    | succ i =>
      have hlocals : next.compactLocals = Frame.dropTops locals := by
        rw [(Frame.sameAs_iff.1 hsame).2, Frame.compactLocals_ofCompact]
      have hfirm : StandsFirm stands .top start ((done ++ [first]) ++ rest) ((done ++ [first]).length + i) := by
        rw [List.append_cons] at firm
        rw [List.length_append, List.length_singleton, Nat.add_right_comm]
        exact firm
      rw [List.take_succ_cons, List.append_cons]
      exact ih (hbefore.next hprescribes) hlocals hfirm h hi

end OffsetLabels

namespace CodeTables

variable {pool : ConstantPool} {tables table : CodeTables} {item : Attribute}

theorem frames_of_add (hname : pool.utf8 item.name ≠ .ok stackMapTable.name)
    (h : add pool tables item = .ok table) : table.frames = tables.frames := by
  cases adds_of_add h with
  | frames hframes => exact absurd hframes hname
  | _ => rfl

/-- The last stack map table counts. -/
theorem parse_of_fold {before after : List Attribute} (hname : pool.utf8 item.name = .ok stackMapTable.name)
    (hlast : ∀ other ∈ after, pool.utf8 other.name ≠ .ok stackMapTable.name)
    (h : (before ++ item :: after).foldlM (add pool) tables = .ok table) :
    item.parse stackMapTable = .ok table.frames := by
  have kept : ∀ (after : List Attribute) (tables : CodeTables),
      (∀ other ∈ after, pool.utf8 other.name ≠ .ok stackMapTable.name) →
      after.foldlM (add pool) tables = .ok table → table.frames = tables.frames := by
    intro after
    induction after with
    | nil =>
      intro tables _ h
      cases h
      rfl
    | cons other rest ih =>
      intro tables hlast h
      obtain ⟨hother, hrest⟩ := List.forall_mem_cons.1 hlast
      obtain ⟨next, hnext, h⟩ := except_bind_eq_ok.1 h
      rw [ih next hrest h, frames_of_add hother hnext]
  rw [List.foldlM_append] at h
  obtain ⟨former, -, h⟩ := except_bind_eq_ok.1 h
  obtain ⟨next, hnext, h⟩ := except_bind_eq_ok.1 h
  rw [kept after next hlast h]
  obtain ⟨name, hn, hnext⟩ := except_bind_eq_ok.1 hnext
  have hsame : name = stackMapTable.name := by
    have hfound := mapError_eq_ok.1 hn
    rw [hname] at hfound
    exact (Except.ok.inj hfound).symm
  rw [if_pos hsame] at hnext
  obtain ⟨frames, hframes, hnext⟩ := except_bind_eq_ok.1 hnext
  cases hnext
  exact mapError_eq_ok.1 hframes

end CodeTables

/-- The types that a method starts with, one for each value: the receiver and the parameters. -/
def MethodShape.entryLocals (shape : MethodShape) : List EditType :=
  let receiver : List EditType :=
    if shape.isConstructor then [.uninitializedThis]
    else if shape.isStatic then [] else [.object shape.thisClass]
  receiver ++ shape.descriptor.parameters.map EditType.ofFieldType

namespace MethodBody

open StackMapFrame (Lists Prescribes StandsFirm)

variable {code : Code} {pool : ConstantPool} {shape : MethodShape} {body : MethodBody}

/-- A stored type and what stands for it in a body: the name of its class, and the label in front of the
instruction of its allocation. -/
def StandsFor (body : MethodBody) (code : Code) (pool : ConstantPool) : StoredType → EditType → Prop :=
  VerificationType.Related (fun index name => pool.className index = .ok name)
    (fun offset label => body.StandsAt code.code label offset.toNat)

/-- The frame that is found at the offset of the i-th frame of a stack map table is the prescribed one,
but for unusable locals at the end. -/
def ShowsFrame (body : MethodBody) (code : Code) (pool : ConstantPool) (frames : List StackMapFrame)
    (i : Nat) (frame : StackMapFrame) : Prop :=
  ∃ before locals stack label stored,
    Lists (body.StandsFor code pool) body.shape.entryLocals (frames.take i) before ∧
    Prescribes (body.StandsFor code pool) before frame locals stack ∧
    body.StandsAt code.code label (((frames.take (i + 1)).map (·.delta.toNat)).sum + i) ∧
    body.frames.find? label = some stored ∧ stored.sameAs (.ofCompact locals stack) = true

/-- The frames of a body that was decoded are those that the stack map table prescribes, each at the
offset that the deltas tell, as long as no frame edits a list that ends in unusable locals. -/
theorem showsFrame_of_decode (h : decode code pool shape = .ok body) {front back : List Attribute}
    {item : Attribute} (hitem : code.attributes = front ++ item :: back)
    (hname : pool.utf8 item.name = .ok stackMapTable.name)
    (hlast : ∀ other ∈ back, pool.utf8 other.name ≠ .ok stackMapTable.name) :
    ∃ frames, item.parse stackMapTable = .ok frames ∧ ∀ i frame, frames[i]? = some frame →
      StandsFirm (body.StandsFor code pool) .top body.shape.entryLocals frames i →
      body.ShowsFrame code pool frames i frame := by
  obtain ⟨entries, tables, known, decoded⟩ := decodedAs_of_decode h
  have hattributes := decoded.attributes
  rw [hitem] at hattributes
  refine ⟨tables.frames, CodeTables.parse_of_fold hname hlast hattributes, fun i frame hi firm => ?_⟩
  have hstands : ∀ type out, known.convert pool type = .ok out → body.StandsFor code pool type out :=
    fun type out hout => (OffsetLabels.convert_eq_ok.1 hout).imp (fun _ _ => id)
      fun _ _ hl => decoded.standsAt hl
  have hentry : shape.entryFrame.compactLocals = Frame.dropTops body.shape.entryLocals := by
    rw [decoded.shape]
    exact Frame.compactLocals_ofCompact _ _
  obtain ⟨before, locals, stack, label, stored, hbefore, hprescribes, hlabel, hfound, hsame⟩ :=
    OffsetLabels.prescribes_of_frames (OffsetLabels.numbered decoded.known) hstands .start
      hentry (by simpa using firm) decoded.frames (getElem?_stackMapOffsets hi)
  exact ⟨before, locals, stack, label, stored, by simpa using hbefore, hprescribes,
    decoded.standsAt hlabel, hfound, hsame⟩

/-- A pool with nothing but the name of stack map tables. -/
def namedPool : ConstantPool :=
  match ConstantPool.internUtf8 stackMapTable.name .empty with
  | .ok _ pool | .error _ pool => pool

/-- Two instructions of a static method without parameters, with a frame for each. -/
def mapped (table : Bytes) : Code := ⟨0, 4, [0x00, 0xB1], [], [⟨⟨1⟩, table⟩]⟩

def plainShape : MethodShape := ⟨"a/B", true, false, ⟨[], none⟩⟩

/-- An unusable local in front of two others, of which a chop takes the last. -/
def chopped : Code := mapped [0, 2, 255, 0, 0, 0, 3, 0, 1, 4, 0, 0, 250, 0, 0]

def choppedFrames : List StackMapFrame := [.full 0 [.top, .integer, .long] [], .chop 0 1]

theorem showsFrame_chopped : ∃ body, decode chopped namedPool plainShape = .ok body ∧
    StandsFirm (body.StandsFor chopped namedPool) .top body.shape.entryLocals choppedFrames 1 ∧
    body.ShowsFrame chopped namedPool choppedFrames 1 (.chop 0 1) := by
  have decoded : (match decode chopped namedPool plainShape with
      | .ok _ => true
      | .error _ => false) = true := by decide +kernel
  have parsed : Attribute.parse stackMapTable ⟨⟨1⟩, [0, 2, 255, 0, 0, 0, 3, 0, 1, 4, 0, 0, 250, 0, 0]⟩ =
      .ok choppedFrames := by decide +kernel
  split at decoded
  · next body hbody =>
    have firm : StandsFirm (body.StandsFor chopped namedPool) .top body.shape.entryLocals choppedFrames 1 := by
      intro j hj frame hframe hedits before hbefore
      obtain rfl | rfl : j = 0 ∨ j = 1 := by omega
      · cases hframe
        cases hedits
      · obtain ⟨_, _, -, hfull⟩ := @Lists.of_append _ _ _ _ _ [] hbefore
        cases hfull with
        | full _ hlocals _ =>
          rcases hlocals with _ | ⟨_, _ | ⟨_, _ | ⟨⟨⟩, ⟨⟩⟩⟩⟩
          simp
    obtain ⟨frames, hframes, shown⟩ := @showsFrame_of_decode _ _ _ _ hbody [] [] _ rfl
      (by decide +kernel) (by simp)
    rw [parsed] at hframes
    cases hframes
    exact ⟨body, hbody, firm, shown 1 _ rfl firm⟩
  · cases decoded

/-- An unusable local at the end of a list, and another one behind it. -/
def topped : Code := mapped [0, 2, 255, 0, 0, 0, 2, 1, 0, 0, 0, 252, 0, 0, 2]

def toppedFrames : List StackMapFrame := [.full 0 [.integer, .top] [], .append 0 [.float]]

/-- The unusable local is lost, so that the one behind it is found in its place. -/
theorem not_showsFrame_topped : ∃ body, decode topped namedPool plainShape = .ok body ∧
    (topped.attributes.map (Attribute.parse stackMapTable)) = [.ok toppedFrames] ∧
    ¬body.ShowsFrame topped namedPool toppedFrames 1 (.append 0 [.float]) := by
  have decoded : (match decode topped namedPool plainShape with
      | .ok body => decide (body.frames =
        [(⟨0⟩, ⟨[.integer, .top], []⟩), (⟨1⟩, ⟨[.integer, .float], []⟩)])
      | .error _ => false) = true := by decide +kernel
  split at decoded
  · next body hbody =>
    refine ⟨body, hbody, by decide +kernel, ?_⟩
    rintro ⟨before, locals, stack, label, stored, hbefore, happend, -, hfound, hsame⟩
    obtain ⟨_, _, -, hfull⟩ := @Lists.of_append _ _ _ _ _ [] hbefore
    cases hfull with
    | full _ hlocals _ =>
    rcases hlocals with _ | ⟨⟨⟩, _ | ⟨⟨⟩, ⟨⟩⟩⟩
    cases happend with
    | append _ hadded =>
    rcases hadded with _ | ⟨⟨⟩, ⟨⟩⟩
    have hmem := FrameTable.mem_of_find? hfound
    rw [of_decide_eq_true decoded] at hmem
    rcases List.mem_cons.1 hmem with he | hmem
    · cases he
      revert hsame
      decide
    · cases List.mem_singleton.1 hmem
      revert hsame
      decide
  · cases decoded

end MethodBody

end ClassWeave
