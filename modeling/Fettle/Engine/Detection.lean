import Fettle.Engine.Activation
import Fettle.Suppression

/-!
# Detection

A detection looks at every node of a tree in pre-order, with every active rule in order.  A
rule that fails at a node is not asked again.  What is suppressed by directives in the tree is
dropped; what remains is `pending`.

`Detection.violations` sorts what is pending by offset and rule and gives it lines and
columns.
-/

namespace Fettle

/-- A finding, the rule that made it, and the node at which it was made. -/
structure Pending where
  node : NodeId
  ruleId : RuleId
  finding : Finding
  deriving DecidableEq, Repr

namespace Pending

/-- Where the finding is. -/
def offset (p : Pending) : Nat :=
  p.finding.offset

/-- Whether the rule can correct the finding. -/
def correctable (p : Pending) : Bool :=
  p.finding.correctable

/-- Whether a finding comes before another by offset, or by rule at the same offset, or
is equal to it in both. -/
def atOrBefore (p q : Pending) : Bool :=
  p.offset < q.offset || (p.offset == q.offset && decide (p.ruleId ≤ q.ruleId))

end Pending

/-- The nodes and rules to be visited, in order. -/
def visits (t : Tree) (active : List Active) : List (NodeId × Active) :=
  t.preOrder.flatMap fun n => active.map (n, ·)

/-- The findings of a list of visits and the failures that occur, where some rules have
failed before. -/
def sweep (t : Tree) (failed : List RuleId) :
    List (NodeId × Active) → List Pending × List (RuleId × Fault)
  | [] => ([], [])
  | (n, a) :: vs =>
    if failed.contains a.id then sweep t failed vs
    else
      let seen := a.inspect t n
      let found := seen.findings.map (⟨n, a.id, ·⟩)
      match seen.failure with
      | none =>
        let (pending, failures) := sweep t failed vs
        (found ++ pending, failures)
      | some fault =>
        let (pending, failures) := sweep t (a.id :: failed) vs
        (found ++ pending, (a.id, fault) :: failures)

/-- What is pending in a tree, and the rules that failed, in the order of their ids. -/
structure Detection where
  tree : Tree
  pending : List Pending
  failures : List Diagnostic

/-- The diagnostics of failed rules, in the order of their ids. -/
def failureDiagnostics (failures : List (RuleId × Fault)) : List Diagnostic :=
  (failures.mergeSort fun a b => a.1 ≤ b.1).map fun f => .ruleFailed f.1.text f.2.message

/-- Looking through a tree with active rules. -/
def detect (active : List Active) (t : Tree) : Detection :=
  let (found, failures) := sweep t [] (visits t active)
  let spans := Suppression.spans t
  ⟨t, found.filter fun p => !Suppression.isSuppressed spans p.offset p.ruleId,
    failureDiagnostics failures⟩

/-- A list of diagnostics with those of another added that are not in it. -/
def addNew (diagnostics : List Diagnostic) : List Diagnostic → List Diagnostic
  | [] => diagnostics
  | d :: ds => addNew (if diagnostics.contains d then diagnostics else diagnostics ++ [d]) ds

namespace Detection

/-- What can be corrected of what is pending. -/
def correctable (d : Detection) : List Pending :=
  d.pending.filter Pending.correctable

/-- What is pending in the order in which it is reported. -/
def sorted (d : Detection) : List Pending :=
  d.pending.mergeSort Pending.atOrBefore

/-- The report of one pending finding: a violation, or a diagnostic if there is no position
at its offset.  With `unstable` a correctable finding counts as one that fixing did not
settle. -/
def place (text : String) (unstable : Bool) (p : Pending) : Except Diagnostic Violation :=
  match Position.ofOffset text p.offset with
  | .ok pos =>
    .ok {
      line := pos.line
      column := pos.column
      ruleId := p.ruleId.text
      message := p.finding.message
      correctable := p.correctable && !unstable
      unstable := p.correctable && unstable }
  | .error fault => .error (.invalidOffset p.ruleId.text fault.message)

/-- The violations of a list of pending findings. -/
def violationsOf (text : String) (unstable : Bool) (ps : List Pending) : List Violation :=
  ps.filterMap fun p => (place text unstable p).toOption

/-- The diagnostics of those pending findings that are nowhere in the document. -/
def misplacedOf (text : String) (ps : List Pending) : List Diagnostic :=
  ps.filterMap fun p =>
    match place text false p with
    | .ok _ => none
    | .error d => some d

/-- The violations to report. -/
def violations (d : Detection) (unstable : Bool) : List Violation :=
  violationsOf d.tree.text unstable d.sorted

/-- The diagnostics of findings that are nowhere in the document. -/
def misplaced (d : Detection) : List Diagnostic :=
  misplacedOf d.tree.text d.sorted

end Detection

end Fettle
