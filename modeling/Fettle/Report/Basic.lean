import Fettle.Position
import Fettle.RuleId

/-!
# Reports

A `FileReport` tells what rules have found in one file: `Violation`s, which are about the
document, and `Diagnostic`s, which are about the run itself.  A `Report` is a list of these.
`render` writes each of them as text, a report with one line for each violation and
diagnostic and a last line with the totals.
-/

namespace Fettle

/-- Something that a rule has found, at a line and column. -/
structure Violation where
  line : Nat
  column : Nat
  ruleId : String
  message : String
  correctable : Bool
  unstable : Bool
  deriving DecidableEq, Repr

/-- A violation as text. -/
def Violation.render (v : Violation) : String :=
  toString v.line ++ ":" ++ toString v.column ++ ": " ++ v.message ++ " (" ++ v.ruleId ++ ")"
    ++ (if v.unstable then " [fix did not stabilize]" else "")

/-- Something about a run that is not about the document. -/
inductive Diagnostic where
  | property (ruleId message : String)
  | ruleState (ruleId message : String)
  | missingRequiredRule (ruleId required : String)
  | unstable (ruleId : String) (passes : Nat)
  | autocorrectAborted (ruleId : Option String) (message : String)
  | timedOut (passes : Nat)
  | ruleFailed (ruleId message : String)
  | invalidOffset (ruleId message : String)
  deriving DecidableEq, Repr

namespace Diagnostic

/-- Whether a diagnostic says that fixing did not come to an end. -/
def isUnstable : Diagnostic → Bool
  | unstable _ _ => true
  | _ => false

/-- A rule in a diagnostic. -/
def ruleName (id : String) : String :=
  "rule '" ++ id ++ "'"

/-- A diagnostic as text. -/
def render : Diagnostic → String
  | property id message | ruleState id message => ruleName id ++ " skipped: " ++ message
  | missingRequiredRule id required =>
    ruleName id ++ " skipped: it requires " ++ ruleName required ++ " which is not enabled"
  | unstable id passes =>
    ruleName id ++ " produced a violation that could not be stabilized after "
      ++ toString passes ++ " passes"
  | autocorrectAborted (some id) message =>
    "autocorrect aborted after a failed fix by '" ++ id ++ "': " ++ message
  | autocorrectAborted none message => "autocorrect aborted: " ++ message
  | timedOut passes => "autocorrect timed out after " ++ toString passes ++ " passes"
  | ruleFailed id message => ruleName id ++ " failed: " ++ message
  | invalidOffset id message => ruleName id ++ " reported an invalid offset: " ++ message

end Diagnostic

/-- What a run has found in one file, the text after fixing, and how often the file was
looked through. -/
structure FileReport where
  path : Option String
  violations : List Violation
  diagnostics : List Diagnostic
  formatted : Option String
  passes : Nat
  deriving DecidableEq, Repr

namespace FileReport

/-- Whether any violation is left. -/
def hasViolations (r : FileReport) : Bool :=
  !r.violations.isEmpty

/-- Whether fixing did not come to an end. -/
def isUnstable (r : FileReport) : Bool :=
  r.diagnostics.any Diagnostic.isUnstable

/-- The violations and diagnostics as text. -/
def entries (r : FileReport) : List String :=
  r.violations.map Violation.render ++ r.diagnostics.map Diagnostic.render

/-- The path as text. -/
def pathText (r : FileReport) : String :=
  r.path.getD "<input>"

/-- The violations and diagnostics as lines that begin with the path. -/
def lines (r : FileReport) : List String :=
  r.violations.map (fun v => r.pathText ++ ":" ++ v.render)
    ++ r.diagnostics.map (fun d => r.pathText ++ ": " ++ d.render)

end FileReport

/-- The reports of several files. -/
structure Report where
  files : List FileReport
  deriving DecidableEq, Repr

namespace Report

/-- The number of files. -/
def filesChecked (r : Report) : Nat :=
  r.files.length

/-- The number of violations in all files. -/
def violationCount (r : Report) : Nat :=
  (r.files.flatMap fun f => f.violations).length

/-- Whether any file has violations. -/
def hasViolations (r : Report) : Bool :=
  r.files.any FileReport.hasViolations

/-- The last line of a report. -/
def summary (r : Report) : String :=
  "Found " ++ toString r.violationCount ++ " violation(s) in " ++ toString r.filesChecked
    ++ " file(s)"

/-- A report as text. -/
def render (r : Report) : String :=
  String.join ((r.files.flatMap FileReport.lines).map (· ++ "\n")) ++ r.summary

end Report

end Fettle
