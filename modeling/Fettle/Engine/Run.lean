import Fettle.Engine.Correction

/-!
# Runs

`Engine.lint` reports what the active rules find in a tree.  `Engine.format` fixes what can be
fixed: fix passes and detections take turns until nothing correctable is pending, the limit on
fix passes or on time is reached, or a pass fails, in which case the tree is again the one
before the first pass.  The report is that of the last detection, which is always one of the
tree that is returned.
-/

namespace Fettle

/-- Whether rules only look at a file or also fix it. -/
inductive Mode where
  | lint
  | format
  deriving DecidableEq, Repr

/-- The milliseconds that have gone by when a number of fix passes are done. -/
abbrev Clock := Nat → Nat

/-- The clock on which no time goes by. -/
def Clock.stopped : Clock := fun _ => 0

/-- How fixing ended: the last detection, which holds the tree, the diagnostics up to there,
the number of detections, and whether the limit on fix passes was reached. -/
structure Outcome where
  detection : Detection
  diagnostics : List Diagnostic
  passes : Nat
  unstable : Bool

/-- The diagnostics of the rules whose findings fixing did not settle. -/
def unstableDiagnostics (d : Detection) (passes : Nat) : List Diagnostic :=
  (sortedIds (d.correctable.map Pending.ruleId)).map fun id => .unstable id.text passes

namespace Engine

/-- Whether the time for fixing is up. -/
def isTimeUp (e : Engine) (elapsed : Nat) : Bool :=
  e.timeout.any fun limit => limit ≤ elapsed

/-- The outcome of fixing after `done` fix passes, with at most `left` more. -/
def settle (e : Engine) (clock : Clock) (active : List Active) (start : Tree)
    (left done : Nat) (d : Detection) (diagnostics : List Diagnostic) : Outcome :=
  if d.correctable.isEmpty then ⟨d, diagnostics, done + 1, false⟩
  else match left with
    | 0 => ⟨d, diagnostics ++ unstableDiagnostics d done, done + 1, true⟩
    | left + 1 =>
      if e.isTimeUp (clock done) then
        ⟨d, diagnostics ++ [.timedOut done], done + 1, false⟩
      else match correct active d with
        | .ok t =>
          let next := detect active t
          e.settle clock active start left (done + 1) next (addNew diagnostics next.failures)
        | .error failure =>
          let last := detect active start
          let aborted := Diagnostic.autocorrectAborted (failure.ruleId.map RuleId.text)
            failure.fault.message
          ⟨last, addNew (diagnostics ++ [aborted]) last.failures, done + 2, false⟩

/-- The report on a tree. -/
def lint (e : Engine) (t : Tree) (scope : Scope) : FileReport :=
  let (active, faults) := e.activate scope
  let d := detect active t
  { path := none
    violations := d.violations false
    diagnostics := addNew faults d.failures ++ d.misplaced
    formatted := none
    passes := 1 }

/-- The tree after fixing, and the report on it. -/
def formatTimed (e : Engine) (clock : Clock) (t : Tree) (scope : Scope) :
    FileReport × Tree :=
  let (active, faults) := e.activate scope
  let first := detect active t
  let last := e.settle clock active t e.maxPasses 0 first (addNew faults first.failures)
  ({ path := none
     violations := last.detection.violations last.unstable
     diagnostics := last.diagnostics ++ last.detection.misplaced
     formatted := some last.detection.tree.text
     passes := last.passes },
    last.detection.tree)

/-- The tree after fixing, and the report on it, when fixing takes no time. -/
def format (e : Engine) (t : Tree) (scope : Scope) : FileReport × Tree :=
  e.formatTimed .stopped t scope

/-- The report on a tree and the tree after the run. -/
def run (e : Engine) (mode : Mode) (t : Tree) (scope : Scope) : FileReport × Tree :=
  match mode with
  | .lint => (e.lint t scope, t)
  | .format => e.format t scope

end Engine

/-- A file to run rules over. -/
structure FileInput where
  path : Option String
  tree : Tree
  scope : Scope

/-- The reports on several files, in the order given. -/
def Engine.runFiles (e : Engine) (mode : Mode) (files : List FileInput) : Report :=
  ⟨files.map fun f => { (e.run mode f.tree f.scope).1 with path := f.path }⟩

end Fettle
