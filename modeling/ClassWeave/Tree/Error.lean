import ClassWeave.Rule.Basic
import ClassWeave.Tree.Value

/-!
Problems as trees, and what may hold them: whole classes, and outcomes of rules. Each problem goes
by a name, and its details are told in full.
-/

namespace ClassWeave

open ClassWeave.Tree (problem problemWith)

instance : ToTree FormatError where
  toTree fault :=
    let kind := match fault with
      | .unexpectedEnd => "UnexpectedEof"
      | .chopCount _ | .appendCount _ => "InvalidInput"
      | .noMethod _ => "NotFound"
      | _ => "InvalidData"
    problem "IoError" [("kind", kind), ("message", fault.message)]

instance : ToTree PoolError where
  toTree
    | .overflow constant offset =>
      problem "ConstantPoolOverflow" [("constant", constant), ("offset", offset)]
    | .missing index => problem "MissingConstant" [("index", index)]
    | .unexpected index expected =>
      problem "UnexpectedConstant" [("index", index), ("expected", expected.text)]

instance : ToTree VerifyError where
  toTree
    | .emptyStack => problem "EmptyStack" []
    | .badWidth found => problem "InvalidWidth" [("width", found)]
    | .notArray => problem "NotArrayType" []
    | .badIndex => problem "InvalidIndex" []
    | .badType => problem "InvalidType" []
    | .incompatible found expected =>
      problem "IncompatibleTypes" [("found", found), ("expected", expected)]
    | .badDescriptor text => problemWith "BadDescriptor" text
    | .notLoadable index => problem "NotLoadableConstant" [("index", index)]

instance : ToTree ClassError where
  toTree
    | .format fault => fault
    | .badMagic found => problem "BadMagic" [("magic", found)]
    | .trailingBytes count => problem "TrailingBytes" [("count", count)]
    | .pool fault => fault
    | .badDescriptor text => problemWith "BadDescriptor" text
    | .badClassName text => problemWith "BadName" text
    | .malformedCode offset fault =>
      problem "MalformedCode" [("offset", offset), ("message", fault.message)]
    | .unsupportedOpcode opcode offset =>
      problem "UnsupportedInstruction" [("opcode", opcode), ("offset", offset)]
    | .codeOverflow length => problem "MethodCodeOverflow" [("length", length)]
    | .branchOutOfRange label distance =>
      problem "BranchOutOfRange" [("label", label), ("distance", distance)]
    | .unboundLabel label => problem "UnboundLabel" [("label", label)]
    | .duplicateLabel label => problem "DuplicateLabel" [("label", label)]
    | .missingFrame label => problem "MissingFrame" [("label", label)]
    | .conflictingFrames offset => problem "ConflictingFrames" [("offset", offset)]
    | .unreachableLabel label => problem "PlacingUnreachableLabel" [("label", label)]
    | .unreachableCode => problem "UnreachableCode" []
    | .refused instruction cause =>
      problem "VerifierError" [("instruction", instruction), ("kind", cause)]
    | .incompatibleFrames label found expected =>
      problem "IncompatibleFrames" [("label", label), ("from", found), ("to", expected)]
    | .emptyRange start stop =>
      problem "InvalidExceptionRange" [("start", start), ("end", stop)]

instance : ToTree EnvelopeViolation where
  toTree
    | .stackExceeded instruction height maxStack =>
      problem "StackExceeded"
        [("instruction", instruction), ("height", height), ("max_stack", maxStack)]
    | .localOutOfRange instruction slot maxLocals =>
      problem "LocalOutOfRange"
        [("instruction", instruction), ("slot", slot), ("max_locals", maxLocals)]
    | .localsOverflow instruction slot =>
      problem "LocalsOverflow" [("instruction", instruction), ("slot", slot)]
    | .stackUnderflow instruction height =>
      problem "StackUnderflow" [("instruction", instruction), ("height", height)]
    | .inconsistentHeight instruction first second =>
      problem "InconsistentHeight"
        [("instruction", instruction), ("first", first), ("second", second)]
    | .parametersExceedLocals parameters maxLocals =>
      problem "ParametersExceedLocals" [("parameters", parameters), ("max_locals", maxLocals)]

instance : ToTree PatchError where
  toTree
    | .descriptorMismatch expected found =>
      problem "DescriptorMismatch" [("expected", expected), ("found", found)]
    | .missingBody => problem "MissingBody" []
    | .argumentOutOfRange index => problem "ArgumentOutOfRange" [("index", index)]
    | .arityMismatch method expected found =>
      problem "ArityMismatch" [("method", method), ("expected", expected), ("found", found)]
    | .returnTypeMismatch expected found =>
      problem "ReturnTypeMismatch" [("expected", expected), ("found", found)]
    | .unsupported reason => problemWith "Unsupported" reason.message
    | .tooLarge length => problem "TooLarge" [("length", length)]
    | .envelope violation => problem "EnvelopeUnderflow" [("violation", violation)]
    | .fallsOffEnd => problem "FallsOffEnd" []
    | .unknownVariable name => problemWith "UnknownVariable" name
    | .badClass cause => problem "Class" [("cause", cause)]

instance : ToTree TransformError where
  toTree
    | .malformedInput cause => problem "MalformedInput" [("cause", cause)]
    | .patch cause => problem "Patch" [("cause", cause)]

instance : ToTree DescriptorError where
  toTree fault :=
    problem "DescriptorError" [("position", fault.position), ("expected", fault.expected.text)]

instance : ToTree NameError := ⟨fun fault => problemWith "BadName" fault.message⟩

instance : ToTree SignatureError where
  toTree
    | .badName message => problemWith "BadName" message
    | .badDescriptor text => problemWith "BadDescriptor" text

namespace Tree

/-- The code of a method, or why it cannot be read. -/
def ofMethodCode (file : ClassFile) (position : Nat) : Tree := ofExcept (file.methodCode position)

def ofMember {kind : FlagKind} (file : ClassFile) (declared : Member kind) : List Tree :=
  [declared.flags, ofExcept (file.pool.utf8 declared.name),
    ofExcept (file.pool.utf8 declared.descriptor), each declared.attributes]

end Tree

instance : ToTree ClassFile where
  toTree file := .record
    [("version", file.version), ("flags", file.flags), ("name", Tree.ofExcept file.name),
      ("super", Tree.ofExcept file.superName), ("interfaces", Tree.each file.interfaces),
      ("fields", .list (file.fields.map fun field => .list (Tree.ofMember file field))),
      ("methods", .list (file.methods.zipIdx.map fun (method, i) =>
        .list (Tree.ofMember file method ++ [Tree.ofMethodCode file i]))),
      ("attributes", Tree.each file.attributes), ("pool", file.pool)]

instance : ToTree PatchRule where
  toTree rule :=
    .list [rule.priority, rule.strategy.kind, rule.target.text, rule.description]

instance : ToTree RuleOutcome where
  toTree
    | .noMatch => "NoMatch"
    | .unchanged => "Unchanged"
    | .applied => "Applied"
    | .failed cause => cause

end ClassWeave
