import ClassWeave.Proofs.Patch.Enveloping
import ClassWeave.Transform

/-!
Transforming leaves a class readable. If what each rule writes fits the fields that hold its lengths, the
image can be read again, and every method whose code could be decoded has code that can be decoded.
-/

namespace ClassWeave

section Lengths

variable {pool : ConstantPool}

theorem HoldsTable.length_le {α : Type} {format : AttributeFormat (List α)} {entries : List α}
    {attributes : List Attribute} (h : HoldsTable pool format entries attributes) :
    attributes.length ≤ 1 := by
  obtain ⟨-, rfl⟩ | ⟨item, rfl, -⟩ := h
  · exact Nat.zero_le _
  · exact Nat.le_refl _

theorem Bytes.length_le_list {α : Type} {bytes : α → Bytes} {values : List α} {value : α}
    (hm : value ∈ values) : (bytes value).length ≤ (Bytes.list bytes values).length := by
  obtain ⟨front, back, rfl⟩ := List.append_of_mem hm
  unfold Bytes.list
  rw [List.flatMap_append, List.flatMap_cons]
  simp only [List.length_append]
  omega

theorem Attribute.length_content_le (item : Attribute) : item.content.length ≤ item.bytes.length := by
  unfold Attribute.bytes Bytes.sized
  rw [List.length_append, List.length_append]
  omega

theorem Code.length_attributes_le (code : Code) :
    (Bytes.list Attribute.bytes code.attributes).length ≤ code.bytes.length := by
  unfold Code.bytes
  simp only [List.length_append]
  omega

end Lengths

namespace MethodBody

variable {body : MethodBody} {version : Version} {pool : ConstantPool} {code : Code} {layout : Layout}
  {tables : CodeTables}

/-- Code that was written can be read if the handlers can be counted, and the bytes of each attribute. -/
theorem WrittenAs.fits_of_contents (h : body.WrittenAs version pool code layout tables)
    (hexceptions : code.exceptions.length < 65536) (hcontents : ∀ item ∈ code.attributes, item.Fits) :
    code.Fits := by
  obtain ⟨hof, hnodup⟩ := Layout.isOf_of_compute h.placed
  have bounded : ∀ offset, layout.labels.Marks offset → offset ≤ 65535 := fun offset hm =>
    Nat.le_trans (Layout.mem_boundaries_of_marks hof hnodup hm).2 h.short
  have hlength : code.code.length ≤ 65535 := by
    obtain ⟨chunks, hchunks, hcode⟩ := except_bind_eq_ok.1 h.bytes
    obtain ⟨flagged, -, rfl⟩ := hof
    have hreach := Decoded.length_spread hchunks
    have hshort : Layout.reach 0 flagged ≤ 65535 := h.short
    rw [← Except.ok.inj hcode]
    omega
  obtain ⟨stackMaps, debug, he, hstackMaps, hdebug⟩ := h.attributes
  obtain ⟨lines, locals, localTypes, rfl, hlines, hlocals, hlocalTypes⟩ := hdebug.attributes
  refine ⟨by omega, hexceptions, fun entry hm => ?_, ?_, hcontents⟩
  · obtain ⟨handler, -, hencode⟩ := exists_left_of_mem h.exceptions hm
    exact (Handler.written_of_encode bounded hencode).fits
  · have h₁ := (holdsTable_of_store hstackMaps).length_le
    have h₂ := (holdsTable_of_store hlines).length_le
    have h₃ := (holdsTable_of_store hlocals).length_le
    have h₄ := (holdsTable_of_store hlocalTypes).length_le
    rw [he]
    simp only [List.length_append]
    omega

/-- Code that was written can be read as a whole. -/
theorem WrittenAs.fits (h : body.WrittenAs version pool code layout tables)
    (hhandlers : body.handlers.length < 65536) (hlength : code.bytes.length < 4294967296) :
    code.Fits := by
  refine h.fits_of_contents (h.exceptions.length_eq ▸ hhandlers) fun item hm => ?_
  have h₁ := item.length_content_le
  have h₂ := @Bytes.length_le_list _ Attribute.bytes _ _ hm
  have h₃ := code.length_attributes_le
  unfold Attribute.Fits
  omega

end MethodBody

instance (body : MethodBody) : Decidable body.Fits :=
  decidable_of_iff (body.handlers.length < 65536 ∧ body.lines.length < 65536 ∧
    body.locals.length < 65536 ∧ body.localTypes.length < 65536 ∧
    ∀ entry ∈ body.frames, entry.2.compactLocals.length < 65536 ∧ entry.2.stack.length < 65536)
    ⟨fun ⟨h₁, h₂, h₃, h₄, h₅⟩ => ⟨h₁, h₂, h₃, h₄, h₅⟩, fun h => ⟨h.1, h.2, h.3, h.4, h.5⟩⟩

namespace ClassFile

variable {file file' : ClassFile} {target : MethodSignature} {strategy : PatchStrategy} {limit : Nat}

/-- What a patch writes fits the fields that hold its lengths, and in a version without stack maps no
guards are put in front of a body without instructions, since they would jump behind the code. -/
structure WritesFit (version : Version) (strategy : PatchStrategy) (old : Option MethodBody)
    (body : MethodBody) (code : Code) (pool : ConstantPool) : Prop where
  tables : body.Fits
  texts : ∀ constant ∈ pool.constants, constant.Fits
  length : code.bytes.length < 4294967296
  behind : version.hasStackMaps = false → strategy.isPrologue = true →
    ∀ before, old = some before → before.instructionCount ≠ 0

instance (version : Version) (strategy : PatchStrategy) (old : Option MethodBody) (body : MethodBody)
    (code : Code) (pool : ConstantPool) : Decidable (WritesFit version strategy old body code pool) :=
  decidable_of_iff (body.Fits ∧ (∀ constant ∈ pool.constants, constant.Fits) ∧
    code.bytes.length < 4294967296 ∧ (version.hasStackMaps = false → strategy.isPrologue = true →
      (old.all fun before => before.instructionCount != 0) = true))
    ⟨fun ⟨tables, texts, length, behind⟩ => ⟨tables, texts, length, fun hv hp before hold => by
        simpa [hold] using behind hv hp⟩,
      fun h => ⟨h.tables, h.texts, h.length, fun hv hp => by
        simpa [Option.all_eq_true] using h.behind hv hp⟩⟩

/-- All that a class holds fits the fields for it. -/
def Storable (file : ClassFile) : Prop :=
  file.Fits ∧ ∀ constant ∈ file.pool.constants, constant.Fits

instance (file : ClassFile) : Decidable file.Storable :=
  inferInstanceAs (Decidable (file.Fits ∧ ∀ constant ∈ file.pool.constants, constant.Fits))

/-- Whether what a patch writes fits, found by writing it. -/
def checksFit (file : ClassFile) (target : MethodSignature) (strategy : PatchStrategy) (limit : Nat) :
    Bool :=
  match file.locate target with
  | .ok (some located) =>
    match strategy.apply located.body file.pool with
    | .ok (.patched body) middle =>
      match body.encodeWithLimit file.version limit middle with
      | .ok code pool => decide (WritesFit file.version strategy located.body body code pool)
      | .error _ _ => true
    | _ => true
  | _ => true

theorem writesFit_of_checksFit (h : file.checksFit target strategy limit = true)
    {located : LocatedMethod} {body : MethodBody} {code : Code} {pool : ConstantPool}
    (rewrites : file.Rewrites target strategy limit located body code pool) :
    WritesFit file.version strategy located.body body code pool := by
  obtain ⟨middle, happly, -, hencode⟩ := rewrites.patched
  unfold checksFit at h
  rw [rewrites.found] at h
  dsimp only at h
  rw [happly] at h
  dsimp only at h
  rw [hencode] at h
  exact of_decide_eq_true h

/-- An attribute that holds code is read as that code. -/
theorem parse_of_content {item : Attribute} {code : Code} (h : item.content = code.bytes) (fits : code.Fits) :
    item.parse Code.format = .ok code := by
  obtain ⟨index, content⟩ := item
  dsimp only at h
  subst h
  exact @Attribute.parse_of_reads _ Code.format _ _ (Code.reads_bytes fits) index

/-- What is needed of the body that a patch writes for reading it again. -/
theorem Rewrites.writtenAs {located : LocatedMethod} {body : MethodBody} {code : Code} {pool : ConstantPool}
    (h : file.Rewrites target strategy limit located body code pool)
    (behind : file.version.hasStackMaps = false → strategy.isPrologue = true →
      ∀ before, located.body = some before → before.instructionCount ≠ 0) :
    (∃ layout tables, body.WrittenAs file.version pool code layout tables) ∧ body.shape = located.shape ∧
      body.TablesSized ∧ (file.version.hasStackMaps = false → body.JumpsInside) := by
  obtain ⟨middle, happly, -, hencode⟩ := h.patched
  obtain ⟨before, hbefore, -, follows, inside⟩ := PatchStrategy.follows_of_apply happly
  obtain ⟨_, _, -, -, hdecode⟩ := locate_eq_some h.found hbefore
  obtain ⟨hshape, hsized, hjumps⟩ := MethodBody.keeps_of_decode hdecode
  exact ⟨MethodBody.writtenAs_of_encode hencode, follows.shape.trans hshape, follows.sized hsized, fun hv =>
    inside (MethodBody.nodup_of_encode hencode) hjumps fun hprologue => behind hv hprologue before hbefore⟩

/-- The code that a patch writes can be decoded. -/
theorem Rewrites.decode_ok {located : LocatedMethod} {body : MethodBody} {code : Code} {pool : ConstantPool}
    (h : file.Rewrites target strategy limit located body code pool) (fits : body.Fits)
    (behind : file.version.hasStackMaps = false → strategy.isPrologue = true →
      ∀ before, located.body = some before → before.instructionCount ≠ 0) :
    ∃ out, MethodBody.decode code pool located.shape = .ok out := by
  obtain ⟨⟨layout, tables, written⟩, hshape, sized, inside⟩ := h.writtenAs behind
  rw [← hshape]
  exact written.decode_ok fits sized inside

/-- A patch keeps a class storable, and the methods that can be decoded stay so. -/
theorem storable_of_patch {position : Nat} {envelope : Envelope}
    (h : ClassFile.patch target strategy limit file = .ok (.applied position envelope) file')
    (storable : file.Storable)
    (fits : ∀ located body code pool, file.Rewrites target strategy limit located body code pool →
      WritesFit file.version strategy located.body body code pool) :
    file'.Storable ∧ ∀ other, file.Decodes other → file'.Decodes other := by
  obtain ⟨located, body, code, pool, rewrites, rfl, rfl, method, i, old, item, hm, hfound, hname, hcontent,
    rfl⟩ := patch_eq_applied h
  obtain ⟨middle, happly, -, hencode⟩ := rewrites.patched
  obtain ⟨before, hbefore, -⟩ := PatchStrategy.follows_of_apply happly
  obtain ⟨_, _, declared, -⟩ := locate_eq_some rewrites.found hbefore
  have fit := fits located body code pool rewrites
  obtain ⟨layout, tables, written⟩ := MethodBody.writtenAs_of_encode hencode
  have hparse := parse_of_content hcontent (written.fits fit.tables.handlers fit.length)
  have hitem : item.Fits := by
    unfold Attribute.Fits
    rw [hcontent]
    exact fit.length
  obtain rfl := Option.some.inj (hm.symm.trans declared.found)
  obtain ⟨hlt, hget⟩ := List.getElem?_eq_some_iff.1 hm
  have hmethod := storable.1.methodsFit method (hget ▸ List.getElem_mem hlt)
  refine ⟨⟨⟨storable.1.superClass, storable.1.interfaces, storable.1.fields, storable.1.fieldsFit, ?_,
    fun other ho => ?_, storable.1.attributes, storable.1.contents⟩, fit.texts⟩, fun other hdecodes => ?_⟩
  · change (file.methods.set _ _).length < 65536
    rw [List.length_set]
    exact storable.1.methods
  · rcases List.mem_or_eq_of_mem_set ho with ho | rfl
    · exact storable.1.methodsFit other ho
    · refine ⟨?_, fun other ho => ?_⟩
      · change (method.attributes.set _ _).length < 65536
        rw [List.length_set]
        exact hmethod.attributes
      · rcases List.mem_or_eq_of_mem_set ho with ho | rfl
        · exact hmethod.contents other ho
        · exact hitem
  · by_cases hsame : located.position = other
    · subst hsame
      have hset : (({ file with pool } : ClassFile).setAttributes located.position method
          (method.attributes.set i item)).methods[located.position]? =
            some { method with attributes := method.attributes.set i item } :=
        List.getElem?_set_self hlt
      obtain ⟨out, hout⟩ := rewrites.decode_ok fit.tables fit.behind
      exact decodes_iff.2 ⟨_, located.shape, code, out, ⟨hset, (declared.of_le rewrites.le).parsed⟩,
        methodCode_eq_some.2 ⟨_, i, item, hset, ConstantPool.findAttribute_set hfound hname, hparse⟩, hout⟩
    · exact (hdecodes.of_le rewrites.le).setAttributes_ne hsame

end ClassFile

/-- The image is that of the class, which can be stored. -/
structure Progress.Loads (progress : Progress) : Prop where
  storable : progress.file.Storable
  parsed : ∃ pool : ConstantPool, pool.slots = progress.file.pool.slots ∧
    ClassFile.parse progress.image = .ok { progress.file with pool }

theorem Progress.loads_of_parse {image : Bytes} {file : ClassFile} (h : ClassFile.parse image = .ok file) :
    Progress.Loads ⟨file, image⟩ :=
  ⟨ClassFile.fits_of_parse h, file.pool, rfl, h⟩

namespace PatchRule

variable {limit : Nat}

/-- What each of the rules writes fits, on the class as the rules before it leave it. -/
def WriteFitting (limit : Nat) : List PatchRule → Progress → Prop
  | [], _ => True
  | rule :: rest, progress =>
    (∀ located body code pool,
      progress.file.Rewrites rule.target rule.strategy limit located body code pool →
        ClassFile.WritesFit progress.file.version rule.strategy located.body body code pool) ∧
      WriteFitting limit rest (rule.step limit progress).2

/-- A rule leaves the class readable. -/
theorem loads_step {rule : PatchRule} {progress : Progress} (loads : progress.Loads)
    (fits : ∀ located body code pool,
      progress.file.Rewrites rule.target rule.strategy limit located body code pool →
        ClassFile.WritesFit progress.file.version rule.strategy located.body body code pool) :
    (rule.step limit progress).2.Loads ∧
      ∀ position, progress.file.Decodes position → (rule.step limit progress).2.file.Decodes position := by
  unfold step
  split
  · exact ⟨loads, fun _ => id⟩
  · exact ⟨loads, fun _ => id⟩
  · next position envelope file hpatch =>
    obtain ⟨storable, decodes⟩ := ClassFile.storable_of_patch hpatch loads.storable fits
    exact ⟨⟨storable, ClassFile.reads_bytes storable.1 storable.2⟩, decodes⟩
  · exact ⟨loads, fun _ => id⟩

theorem loads_run {rules : List PatchRule} {progress : Progress} (loads : progress.Loads)
    (fits : WriteFitting limit rules progress) :
    (run limit rules progress).2.Loads ∧
      ∀ position, progress.file.Decodes position →
        (run limit rules progress).2.file.Decodes position := by
  induction rules generalizing progress with
  | nil => exact ⟨loads, fun _ => id⟩
  | cons rule rest ih =>
    obtain ⟨first, others⟩ := fits
    obtain ⟨loaded, decodes⟩ := loads_step loads first
    obtain ⟨finished, still⟩ := ih loaded others
    exact ⟨finished, fun position h => still position (decodes position h)⟩

end PatchRule

namespace Transformer

/-- The rules that a transformer has for a class of the given name. -/
def rulesFor (transformer : Transformer) (name : String) : List PatchRule :=
  transformer.table.forClass (ClassName.exchange '.' '/' name)

/-- A class that can be read is transformed to one that can be read, with code that can be decoded where
there was such code, if what the rules write fits. -/
theorem loads_of_transform {transformer : Transformer} {name : String} {image : Bytes} {file : ClassFile}
    (h : ClassFile.parse image = .ok file)
    (fits : PatchRule.WriteFitting transformer.settings.maxCodeLength (transformer.rulesFor name)
      ⟨file, image⟩) :
    ∃ out, ClassFile.parse (transformer.transform name image).image = .ok out ∧
      ∀ position, file.Decodes position → out.Decodes position := by
  have same : ∃ out, ClassFile.parse image = .ok out ∧
      ∀ position, file.Decodes position → out.Decodes position := ⟨file, h, fun _ => id⟩
  unfold transform
  dsimp only
  split
  · exact same
  · rw [h]
    split
    · exact same
    · next parsed actual hparsed =>
      obtain ⟨_, hsame, hname⟩ := except_bind_eq_ok.1 hparsed
      cases hsame
      obtain ⟨found, -, hname⟩ := except_bind_eq_ok.1 hname
      cases hname
      split
      · exact same
      · obtain ⟨⟨-, pool, hslots, hout⟩, decodes⟩ :=
          PatchRule.loads_run (Progress.loads_of_parse h) fits
        exact ⟨_, hout, fun position hd =>
          (decodes position hd).of_le (ConstantPool.le_of_slots hslots.symm)⟩

/-- A rule for the method that returns at once. -/
def raisingRule : PatchRule := ⟨"raise the argument", ClassFile.singleTarget, ClassFile.raising, 0⟩

def raisingOnly : Transformer := ⟨.ofList [raisingRule], .default⟩

theorem loads_brief_of_transform : ∃ file out,
    ClassFile.parse ClassFile.brief.bytes = .ok file ∧
      PatchRule.WriteFitting raisingOnly.settings.maxCodeLength (raisingOnly.rulesFor "a.B")
        ⟨file, ClassFile.brief.bytes⟩ ∧
      ClassFile.parse (raisingOnly.transform "a.B" ClassFile.brief.bytes).image = .ok out ∧
      ∀ position, file.Decodes position → out.Decodes position := by
  have fitting : (match ClassFile.parse ClassFile.brief.bytes with
    | .ok file => file.checksFit ClassFile.singleTarget ClassFile.raising 65535
    | .error _ => false) = true := by decide +kernel
  split at fitting
  · next file h =>
    have hrules : raisingOnly.rulesFor "a.B" = [raisingRule] := by rfl
    have fits : PatchRule.WriteFitting raisingOnly.settings.maxCodeLength (raisingOnly.rulesFor "a.B")
        ⟨file, ClassFile.brief.bytes⟩ := by
      rw [hrules]
      exact ⟨fun _ _ _ _ => ClassFile.writesFit_of_checksFit fitting, trivial⟩
    obtain ⟨out, hout, decodes⟩ := loads_of_transform h fits
    exact ⟨file, out, h, fits, hout, decodes⟩
  · cases fitting

/-- A method that has no instructions, in a version without stack maps. -/
def hollow : ClassFile := .single ⟨49, 0⟩ []

/-- Guards in front of a method without instructions jump behind the code, which cannot be decoded then. -/
theorem not_loads_hollow_of_transform : ¬ ∀ (transformer : Transformer) (name : String) (image : Bytes)
    (file : ClassFile), ClassFile.parse image = .ok file →
      ∃ out, ClassFile.parse (transformer.transform name image).image = .ok out ∧
        ∀ position, file.Decodes position → out.Decodes position := by
  intro loads
  have start : ((ClassFile.parse hollow.bytes).toOption.bind fun file =>
      (file.decodeMethod 0).toOption.join).isSome = true := by decide +kernel
  have finish : (match ClassFile.parse (raisingOnly.transform "a.B" hollow.bytes).image with
    | .ok out => match out.decodeMethod 0 with
      | .error _ => true
      | .ok _ => false
    | .error _ => true) = true := by decide +kernel
  obtain ⟨body, hbody⟩ := Option.isSome_iff_exists.1 start
  obtain ⟨file, hfile, hdecode⟩ := Option.bind_eq_some_iff.1 hbody
  rw [Option.join_eq_some_iff, toOption_eq_some] at hdecode
  obtain ⟨out, hout, decodes⟩ := loads raisingOnly "a.B" hollow.bytes file (toOption_eq_some.1 hfile)
  obtain ⟨body, h⟩ := decodes 0 ⟨body, hdecode⟩
  rw [hout] at finish
  dsimp only at finish
  rw [h] at finish
  cases finish

end Transformer

end ClassWeave
