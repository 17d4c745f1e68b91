import ClassWeave.Rule.SharedInstance

/-!
Transforming class images by a table of rules. A rule that fails leaves the class as the rules
before it left it, and a class that cannot be read is passed through.
-/

namespace ClassWeave

structure Settings where
  maxCodeLength : Nat
  logSizes : Bool
  /-- Leave a class alone that has another name than the one it was supplied with? -/
  strictClassName : Bool
  deriving DecidableEq, Repr

namespace Settings

def default : Settings := ⟨MethodBody.maxCodeLength, false, true⟩

/-- The settings as listings show them. -/
def text (settings : Settings) : String :=
  "Settings \x7b max_code_length: " ++ toString settings.maxCodeLength ++ ", log_sizes: "
    ++ toString settings.logSizes ++ ", strict_class_name: " ++ toString settings.strictClassName
    ++ " \x7d"

end Settings

/-- A class between two rules, with the bytes it had after the last rule that changed it. -/
structure Progress where
  file : ClassFile
  image : Bytes

namespace PatchRule

/-- Only a rule that changes the class leaves a trace in it. -/
def step (rule : PatchRule) (maxCodeLength : Nat) (progress : Progress) : RuleOutcome × Progress :=
  match ClassFile.patch rule.target rule.strategy maxCodeLength progress.file with
  | .ok .notFound _ => (.noMatch, progress)
  | .ok .unchanged _ => (.unchanged, progress)
  | .ok (.applied ..) file => (.applied, ⟨file, file.bytes⟩)
  | .error problem _ => (.failed (.patch problem), progress)

/-- Applies rules in order. -/
def run (maxCodeLength : Nat) : List PatchRule → Progress → List RuleReport × Progress
  | [], progress => ([], progress)
  | rule :: rest, progress =>
    let (outcome, progress) := rule.step maxCodeLength progress
    let (reports, progress) := run maxCodeLength rest progress
    (⟨rule.description, rule.target.text, outcome⟩ :: reports, progress)

end PatchRule

/-- A class image after its rules, with a report for each of them. A class that was passed through
because it cannot be read has a reason. -/
structure Transformed where
  image : Bytes
  reports : List RuleReport
  rejected : Option TransformError
  deriving DecidableEq

namespace Transformed

def changed (result : Transformed) : Bool :=
  result.reports.any fun report => report.outcome = .applied

end Transformed

structure Transformer where
  table : RuleTable
  settings : Settings

namespace Transformer

/-- Transforms a class, given its name with dots or slashes. -/
def transform (transformer : Transformer) (name : String) (image : Bytes) : Transformed :=
  let name := ClassName.exchange '.' '/' name
  let rules := transformer.table.forClass name
  if rules.isEmpty then ⟨image, [], none⟩
  else
    match (do let file ← ClassFile.parse image; return (file, ← file.name)) with
    | .error problem => ⟨image, [], some (.malformedInput problem)⟩
    | .ok (file, actual) =>
      if actual ≠ name ∧ transformer.settings.strictClassName then ⟨image, [], none⟩
      else
        let limit := transformer.settings.maxCodeLength
        let (reports, progress) := PatchRule.run limit rules ⟨file, image⟩
        ⟨progress.image, reports, none⟩

end Transformer

end ClassWeave
