import ClassWeave.Proofs.Rule.Scheduling
import ClassWeave.Proofs.Steps
import ClassWeave.Transform

/-!
Rules that do not apply leave no trace. A table without them does to a class what the whole table does, and
the image that is kept between two rules is that of the class as it then is.
-/

namespace ClassWeave

namespace RuleReport

def applied (report : RuleReport) : Bool := report.outcome = .applied

end RuleReport

/-- Places of the rules that were applied. -/
def RuleTable.appliedPlaces (entries : List (PatchRule × Nat)) (reports : List RuleReport) : List Nat :=
  ((entries.zip reports).filter fun pair => pair.2.applied).map fun pair => pair.1.2

/-- With places that differ, the rules at the places of those that were applied are these rules. -/
theorem RuleTable.filter_appliedPlaces {entries : List (PatchRule × Nat)} {reports : List RuleReport}
    (hlength : reports.length = entries.length) (distinct : entries.Pairwise fun a b => a.2 ≠ b.2) :
    (entries.filter fun entry => entry.2 ∈ appliedPlaces entries reports) =
      ((entries.zip reports).filter fun pair => pair.2.applied).map Prod.fst := by
  induction entries generalizing reports with
  | nil => rfl
  | cons entry rest ih =>
    cases reports with
    | nil => simp at hlength
    | cons report others =>
      obtain ⟨hentry, hrest⟩ := List.pairwise_cons.1 distinct
      have hplaces : ∀ place ∈ appliedPlaces rest others, place ≠ entry.2 := by
        intro place hm
        obtain ⟨pair, hpair, rfl⟩ := List.mem_map.1 hm
        have hmem : pair.1 ∈ rest := (List.of_mem_zip (List.mem_filter.1 hpair).1).1
        exact (hentry _ hmem).symm
      have hothers : ∀ other ∈ rest, other.2 ≠ entry.2 := fun other hm => (hentry other hm).symm
      have hih := ih (Nat.succ.inj hlength) hrest
      by_cases happlied : report.applied = true
      · have hcons : appliedPlaces (entry :: rest) (report :: others) =
            entry.2 :: appliedPlaces rest others := by simp [appliedPlaces, happlied]
        have hsame : (rest.filter fun other => other.2 ∈ entry.2 :: appliedPlaces rest others) =
            rest.filter fun other => other.2 ∈ appliedPlaces rest others :=
          List.filter_congr fun other hm => by simp [hothers other hm]
        rw [hcons, List.filter_cons_of_pos (by simp), hsame, hih]
        simp [happlied]
      · have hcons : appliedPlaces (entry :: rest) (report :: others) = appliedPlaces rest others := by
          simp [appliedPlaces, happlied]
        have habsent : entry.2 ∉ appliedPlaces rest others := fun hm => hplaces _ hm rfl
        rw [hcons, List.filter_cons_of_neg (by simp [habsent]), hih]
        simp [happlied]

namespace PatchRule

variable {limit : Nat} {progress : Progress}

/-- A rule that is not applied leaves everything as it was. -/
theorem step_of_ne_applied {rule : PatchRule} (h : (rule.step limit progress).1 ≠ .applied) :
    (rule.step limit progress).2 = progress := by
  unfold step at h ⊢
  split
  · rfl
  · rfl
  · next hpatch =>
    rw [hpatch] at h
    exact absurd rfl h
  · rfl

/-- A rule that is applied leaves the image of the class. -/
theorem step_of_applied {rule : PatchRule} (h : (rule.step limit progress).1 = .applied) :
    (rule.step limit progress).2.image = (rule.step limit progress).2.file.bytes := by
  unfold step at h ⊢
  split
  · next hpatch => simp [hpatch] at h
  · next hpatch => simp [hpatch] at h
  · rfl
  · next hpatch => simp [hpatch] at h

theorem length_run (rules : List PatchRule) : (run limit rules progress).1.length = rules.length := by
  induction rules generalizing progress with
  | nil => rfl
  | cons rule rest ih => simp [run, ih]

/-- Each rule in its turn is reported. -/
theorem reports_run (rules : List PatchRule) :
    (run limit rules progress).1.map (fun report => (report.description, report.target)) =
      rules.map fun rule => (rule.description, rule.target.text) := by
  induction rules generalizing progress with
  | nil => rfl
  | cons rule rest ih => simp [run, ih]

theorem reports_run_take (rules : List PatchRule) (count : Nat) :
    (run limit (rules.take count) progress).1 = (run limit rules progress).1.take count := by
  induction rules generalizing progress count with
  | nil => simp [run]
  | cons rule rest ih =>
    cases count with
    | zero => rfl
    | succ count => simp [run, ih]

/-- Without the rules that are not applied the others are applied as before. -/
theorem run_filter_applied (entries : List (PatchRule × Nat)) :
    let result := run limit (entries.map Prod.fst) progress
    run limit ((((entries.zip result.1).filter fun pair => pair.2.applied).map Prod.fst).map Prod.fst) progress =
      (result.1.filter RuleReport.applied, result.2) := by
  induction entries generalizing progress with
  | nil => rfl
  | cons entry rest ih =>
    dsimp only
    rw [List.map_cons, run]
    dsimp only
    have hih := @ih (entry.1.step limit progress).2
    dsimp only at hih
    by_cases happlied : (entry.1.step limit progress).1 = .applied
    · simp [RuleReport.applied, happlied, run] at hih ⊢
      rw [hih]
      exact ⟨rfl, rfl⟩
    · rw [step_of_ne_applied happlied] at hih ⊢
      simp [RuleReport.applied, happlied] at hih ⊢
      exact hih

/-- As long as no rule has been applied, everything is as it was; from then on the image is that of the class. -/
theorem progress_run (rules : List PatchRule) :
    let result := run limit rules progress
    if result.1.any RuleReport.applied then result.2.image = result.2.file.bytes else result.2 = progress := by
  induction rules generalizing progress with
  | nil => simp [run]
  | cons rule rest ih =>
    dsimp only
    rw [run]
    dsimp only
    have hih := @ih (rule.step limit progress).2
    dsimp only at hih
    rw [List.any_cons]
    by_cases hrest : ((run limit rest (rule.step limit progress).2).1.any RuleReport.applied) = true
    · rw [if_pos hrest] at hih
      simp [hrest, hih]
    · rw [if_neg hrest] at hih
      by_cases happlied : (rule.step limit progress).1 = .applied
      · simp [RuleReport.applied, happlied, hih, step_of_applied happlied]
      · have hstep := step_of_ne_applied happlied
        have hnot : RuleReport.applied ⟨rule.description, rule.target.text,
            (rule.step limit progress).1⟩ = false := decide_eq_false happlied
        rw [hnot, Bool.false_or, if_neg hrest, hih, hstep]

end PatchRule

namespace Transformer

/-- The class that the rules get to see, unless it cannot be read or has another name. -/
def vetted (settings : Settings) (name : String) (image : Bytes) : Except (Option TransformError) ClassFile :=
  match (do let file ← ClassFile.parse image; return (file, ← file.name) : Except ClassError _) with
  | .error problem => .error (some (.malformedInput problem))
  | .ok (file, actual) =>
    if actual ≠ ClassName.exchange '.' '/' name ∧ settings.strictClassName then .error none else .ok file

theorem transform_eq (table : RuleTable) (settings : Settings) (name : String) (image : Bytes) :
    (⟨table, settings⟩ : Transformer).transform name image =
      if (table.forClass (ClassName.exchange '.' '/' name)).isEmpty then ⟨image, [], none⟩
      else match vetted settings name image with
        | .error rejected => ⟨image, [], rejected⟩
        | .ok file =>
          let result := PatchRule.run settings.maxCodeLength
            (table.forClass (ClassName.exchange '.' '/' name)) ⟨file, image⟩
          ⟨result.2.image, result.1, none⟩ := by
  unfold transform vetted
  dsimp only
  split
  · rfl
  · generalize (do let file ← ClassFile.parse image; return (file, ← file.name) :
      Except ClassError (ClassFile × String)) = found
    cases found with
    | error problem => rfl
    | ok pair =>
      dsimp only
      by_cases hname : pair.2 ≠ ClassName.exchange '.' '/' name ∧ settings.strictClassName = true
      · rw [if_pos hname, if_pos hname]
      · rw [if_neg hname, if_neg hname]

/-- Those of the rules that were applied to a class, in the order of their registration. -/
def appliedRules (rules : List PatchRule) (settings : Settings) (name : String) (image : Bytes) :
    List PatchRule :=
  let result := (⟨.ofList rules, settings⟩ : Transformer).transform name image
  RuleTable.keep rules
    (RuleTable.appliedPlaces (RuleTable.schedule rules (ClassName.exchange '.' '/' name)) result.reports)

/-- The rules for a class are applied in order, and those that do not apply do nothing. -/
structure Isolates (rules : List PatchRule) (settings : Settings) (name : String) (image : Bytes)
    (result reduced : Transformed) : Prop where
  /-- Without the rules that were not applied the outcome is the same. -/
  image_eq : reduced.image = result.image
  reports_eq : reduced.reports = result.reports.filter RuleReport.applied
  all_applied : ∀ report ∈ reduced.reports, report.outcome = .applied
  untouched : result.changed = false → result.image = image
  /-- Unless the class is passed through, all rules for it are reported, in the order of their priority and,
  for one priority, of their registration. -/
  evaluated : result.reports = [] ∧ result.image = image ∨
    result.reports.map (fun report => (report.description, report.target)) =
      (RuleTable.schedule rules (ClassName.exchange '.' '/' name)).map fun entry =>
        (entry.1.description, entry.1.target.text)
  ordered : (RuleTable.schedule rules (ClassName.exchange '.' '/' name)).Pairwise PatchRule.Before
  complete : (RuleTable.schedule rules (ClassName.exchange '.' '/' name)).Perm
    (rules.zipIdx.filter fun entry => entry.1.target.owner.text = ClassName.exchange '.' '/' name)
  /-- After some of the rules the image is that of the class, or what it was if none of them was applied. -/
  kept : ∀ file, ClassFile.parse image = .ok file → ∀ count,
    let before := PatchRule.run settings.maxCodeLength
      (((RuleTable.schedule rules (ClassName.exchange '.' '/' name)).take count).map Prod.fst) ⟨file, image⟩
    (result.reports = [] ∨ before.1 = result.reports.take count) ∧
      before.2.image = if before.1.any RuleReport.applied then before.2.file.bytes else image

/-- What comes of a class whose rules are all those at some places. -/
theorem transform_keep (rules : List PatchRule) (settings : Settings) (name : String) (image : Bytes)
    (places : List Nat) :
    (⟨.ofList (RuleTable.keep rules places), settings⟩ : Transformer).transform name image =
      let entries := (RuleTable.schedule rules (ClassName.exchange '.' '/' name)).filter fun entry =>
        entry.2 ∈ places
      if entries.isEmpty then ⟨image, [], none⟩
      else match vetted settings name image with
        | .error rejected => ⟨image, [], rejected⟩
        | .ok file =>
          let result := PatchRule.run settings.maxCodeLength (entries.map Prod.fst) ⟨file, image⟩
          ⟨result.2.image, result.1, none⟩ := by
  rw [transform_eq, RuleTable.forClass_keep]
  simp only [List.isEmpty_map]

theorem transform_ofList (rules : List PatchRule) (settings : Settings) (name : String) (image : Bytes) :
    (⟨.ofList rules, settings⟩ : Transformer).transform name image =
      let entries := RuleTable.schedule rules (ClassName.exchange '.' '/' name)
      if entries.isEmpty then ⟨image, [], none⟩
      else match vetted settings name image with
        | .error rejected => ⟨image, [], rejected⟩
        | .ok file =>
          let result := PatchRule.run settings.maxCodeLength (entries.map Prod.fst) ⟨file, image⟩
          ⟨result.2.image, result.1, none⟩ := by
  rw [transform_eq, ← RuleTable.map_fst_schedule]
  simp only [List.isEmpty_map]

theorem parse_of_vetted {settings : Settings} {name : String} {image : Bytes} {file : ClassFile}
    (h : vetted settings name image = .ok file) : ClassFile.parse image = .ok file := by
  unfold vetted at h
  split at h
  · cases h
  · next parsed actual hparsed =>
    obtain ⟨found, hfound, hname⟩ := except_bind_eq_ok.1 hparsed
    obtain ⟨_, -, hname⟩ := except_bind_eq_ok.1 hname
    cases hname
    split at h
    · cases h
    · cases h
      exact hfound

/-- What comes of a class of which only the rules that were applied are left. -/
theorem transform_keep_applied {rules : List PatchRule} {settings : Settings} {name : String} {image : Bytes}
    {file : ClassFile} {result : List RuleReport × Progress} (h : vetted settings name image = .ok file)
    (hresult : PatchRule.run settings.maxCodeLength
      ((RuleTable.schedule rules (ClassName.exchange '.' '/' name)).map Prod.fst) ⟨file, image⟩ = result) :
    (⟨.ofList (RuleTable.keep rules (RuleTable.appliedPlaces
      (RuleTable.schedule rules (ClassName.exchange '.' '/' name)) result.1)), settings⟩ : Transformer).transform
        name image = ⟨result.2.image, result.1.filter RuleReport.applied, none⟩ := by
  have hlength : result.1.length = (RuleTable.schedule rules (ClassName.exchange '.' '/' name)).length := by
    rw [← hresult, PatchRule.length_run, List.length_map]
  have hrun := @PatchRule.run_filter_applied settings.maxCodeLength ⟨file, image⟩
    (RuleTable.schedule rules (ClassName.exchange '.' '/' name))
  dsimp only at hrun
  rw [hresult, ← RuleTable.filter_appliedPlaces hlength (RuleTable.distinct_schedule _ _)] at hrun
  rw [transform_keep, h]
  dsimp only
  split
  · next hnone =>
    rw [List.isEmpty_iff.1 hnone, List.map_nil, PatchRule.run, Prod.mk.injEq] at hrun
    rw [← hrun.1, ← hrun.2]
  · rw [hrun]

theorem isolates_of_transform (rules : List PatchRule) (settings : Settings) (name : String) (image : Bytes) :
    Isolates rules settings name image ((⟨.ofList rules, settings⟩ : Transformer).transform name image)
      ((⟨.ofList (appliedRules rules settings name image), settings⟩ : Transformer).transform name image) := by
  let entries := RuleTable.schedule rules (ClassName.exchange '.' '/' name)
  have kept : ∀ (file : ClassFile) (some : List PatchRule),
      let before := PatchRule.run settings.maxCodeLength some ⟨file, image⟩
      before.2.image = if before.1.any RuleReport.applied then before.2.file.bytes else image := by
    intro file some
    have hrun := @PatchRule.progress_run settings.maxCodeLength ⟨file, image⟩ some
    dsimp only at hrun ⊢
    split at hrun
    · next hany => rw [if_pos hany, hrun]
    · next hany => rw [if_neg hany, hrun]
  have passed : ∀ rejected, (⟨.ofList rules, settings⟩ : Transformer).transform name image =
      ⟨image, [], rejected⟩ → Isolates rules settings name image ⟨image, [], rejected⟩
        ((⟨.ofList (appliedRules rules settings name image), settings⟩ : Transformer).transform name image) := by
    intro rejected h
    have hnone : RuleTable.appliedPlaces entries [] = [] := by simp [RuleTable.appliedPlaces]
    have hreduced : (⟨.ofList (appliedRules rules settings name image), settings⟩ : Transformer).transform
        name image = ⟨image, [], none⟩ := by
      rw [appliedRules, h, transform_keep, hnone]
      simp
    rw [hreduced]
    exact
      { image_eq := rfl
        reports_eq := rfl
        all_applied := by simp
        untouched := fun _ => rfl
        evaluated := .inl ⟨rfl, rfl⟩
        ordered := RuleTable.pairwise_schedule _ _
        complete := RuleTable.perm_schedule _ _
        kept := fun file _ count => ⟨.inl rfl, kept file _⟩ }
  have hresult := transform_ofList rules settings name image
  dsimp only at hresult
  split at hresult
  · exact hresult ▸ passed none hresult
  split at hresult
  · exact hresult ▸ passed _ hresult
  next file hvetted =>
  -- the class is read, and each of the rules for it has its turn
  have hreduced := @transform_keep_applied rules _ _ _ _ _ hvetted rfl
  rw [appliedRules, hresult]
  dsimp only
  rw [hreduced]
  exact
    { image_eq := rfl
      reports_eq := rfl
      all_applied := fun report hm => of_decide_eq_true (List.mem_filter.1 hm).2
      untouched := fun hnone => by rw [kept file, if_neg (by rw [Bool.not_eq_true]; exact hnone)]
      evaluated := .inr (by rw [PatchRule.reports_run, List.map_map]; rfl)
      ordered := RuleTable.pairwise_schedule _ _
      complete := RuleTable.perm_schedule _ _
      kept := fun other hother count => by
        cases (parse_of_vetted hvetted).symm.trans hother
        refine ⟨.inr ?_, kept file _⟩
        rw [List.map_take, PatchRule.reports_run_take] }

end Transformer

end ClassWeave
