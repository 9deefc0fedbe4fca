import Fettle.Report.Basic
import Fettle.Report.Json

/-!
# Reports as JSON

`toJson` writes violations, diagnostics and reports as records, and `ofJson?` reads them.
What is not there, an absent path or an empty list of diagnostics, is not written.  Fields
that are not known are passed over in reading.
-/

namespace Fettle

open Json in
/-- The mark of a violation that fixing did not settle. -/
def readNote? : Json → Option Unit
  | string s => if s = "unstable" then some () else none
  | object [(name, null)] => if name = "unstable" then some () else none
  | _ => none

namespace Violation

/-- The fields of a violation. -/
def fields : List String :=
  ["line", "column", "ruleId", "message", "canBeAutoCorrected", "note"]

/-- A violation as a record. -/
def toJson (v : Violation) : Json :=
  .object ([
    ("line", .ofNat v.line),
    ("column", .ofNat v.column),
    ("ruleId", .string v.ruleId),
    ("message", .string v.message),
    ("canBeAutoCorrected", .boolean v.correctable)]
    ++ if v.unstable then [("note", .string "unstable")] else [])

/-- The violation that a record stands for. -/
def ofJson? (j : Json) : Option Violation := do
  let ms ← j.members? fields
  return {
    line := ← Json.required Json.nat? ms "line"
    column := ← Json.required Json.nat? ms "column"
    ruleId := ← Json.required Json.text? ms "ruleId"
    message := ← Json.required Json.text? ms "message"
    correctable := ← Json.required Json.flag? ms "canBeAutoCorrected"
    unstable := (← Json.optional readNote? ms "note").isSome }

end Violation

namespace Diagnostic

/-- The name of a diagnostic's kind. -/
def kindName : Diagnostic → String
  | property _ _ => "property"
  | ruleState _ _ => "ruleState"
  | missingRequiredRule _ _ => "missingRequiredRule"
  | unstable _ _ => "unstable"
  | autocorrectAborted _ _ => "autocorrectAborted"
  | timedOut _ => "timedOut"
  | ruleFailed _ _ => "ruleFailed"
  | invalidOffset _ _ => "invalidOffset"

/-- The members of a diagnostic other than its kind. -/
def toMembers : Diagnostic → List (String × Json)
  | property id message | ruleState id message | ruleFailed id message
  | invalidOffset id message => [("ruleId", .string id), ("message", .string message)]
  | missingRequiredRule id required =>
    [("ruleId", .string id), ("required", .string required)]
  | unstable id passes => [("ruleId", .string id), ("passes", .ofNat passes)]
  | autocorrectAborted id message =>
    Json.memberOf "ruleId" .string id ++ [("message", .string message)]
  | timedOut passes => [("passes", .ofNat passes)]

/-- A diagnostic as a record that begins with its kind. -/
def toJson (d : Diagnostic) : Json :=
  .object (("kind", .string d.kindName) :: d.toMembers)

/-- A diagnostic made of a rule and a message. -/
def ofMessage? (make : String → String → Diagnostic) (body : Json) : Option Diagnostic := do
  let ms ← body.members? ["ruleId", "message"]
  return make (← Json.required Json.text? ms "ruleId") (← Json.required Json.text? ms "message")

/-- The diagnostic of a kind whose other fields are given. -/
def ofBody? (kind : String) (body : Json) : Option Diagnostic :=
  match kind with
  | "property" => ofMessage? property body
  | "ruleState" => ofMessage? ruleState body
  | "ruleFailed" => ofMessage? ruleFailed body
  | "invalidOffset" => ofMessage? invalidOffset body
  | "missingRequiredRule" => do
    let ms ← body.members? ["ruleId", "required"]
    return missingRequiredRule (← Json.required Json.text? ms "ruleId")
      (← Json.required Json.text? ms "required")
  | "unstable" => do
    let ms ← body.members? ["ruleId", "passes"]
    return unstable (← Json.required Json.text? ms "ruleId")
      (← Json.required Json.nat? ms "passes")
  | "autocorrectAborted" => do
    let ms ← body.members? ["ruleId", "message"]
    return autocorrectAborted (← Json.optional Json.text? ms "ruleId")
      (← Json.required Json.text? ms "message")
  | "timedOut" => do
    let ms ← body.members? ["passes"]
    return timedOut (← Json.required Json.nat? ms "passes")
  | _ => none

/-- The diagnostic that a record stands for.  In an array the kind comes first. -/
def ofJson? : Json → Option Diagnostic
  | .object members => do
    let kind ← Json.required Json.text? members "kind"
    ofBody? kind (.object members)
  | .array (.string kind :: body) => ofBody? kind (.array body)
  | _ => none

end Diagnostic

namespace FileReport

/-- The fields of a file report. -/
def fields : List String :=
  ["path", "violations", "diagnostics", "formatted", "passes"]

/-- A file report as a record. -/
def toJson (r : FileReport) : Json :=
  .object (Json.memberOf "path" .string r.path
    ++ [("violations", .array (r.violations.map Violation.toJson))]
    ++ (if r.diagnostics.isEmpty then []
        else [("diagnostics", .array (r.diagnostics.map Diagnostic.toJson))])
    ++ Json.memberOf "formatted" .string r.formatted
    ++ [("passes", .ofNat r.passes)])

/-- The file report that a record stands for. -/
def ofJson? (j : Json) : Option FileReport := do
  let ms ← j.members? fields
  return {
    path := ← Json.optional Json.text? ms "path"
    violations := ← Json.required (Json.list? Violation.ofJson?) ms "violations"
    diagnostics := ← Json.defaulted (Json.list? Diagnostic.ofJson?) [] ms "diagnostics"
    formatted := ← Json.optional Json.text? ms "formatted"
    passes := ← Json.required Json.nat? ms "passes" }

end FileReport

namespace Report

/-- A report as a record. -/
def toJson (r : Report) : Json :=
  .object [("files", .array (r.files.map FileReport.toJson))]

/-- The report that a record stands for. -/
def ofJson? (j : Json) : Option Report := do
  let ms ← j.members? ["files"]
  return ⟨← Json.required (Json.list? FileReport.ofJson?) ms "files"⟩

end Report

end Fettle
