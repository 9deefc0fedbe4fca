import Fettle.Engine.Detection

/-!
# Correction

A fix pass goes through the correctable findings of a detection in order and has each rule
fix each node once.  A node that an earlier fix of the pass has taken out of the tree is
passed over.  The pass fails if a fix fails, or if the tree is not in order at its end.
-/

namespace Fettle

/-- Why a fix pass failed, and the rule whose fix failed. -/
structure FixFailure where
  ruleId : Option RuleId
  fault : Fault
  deriving DecidableEq, Repr

/-- The entries of a list that are not in `seen` and have not occurred before. -/
def firstOccurrences {α : Type} [DecidableEq α] (seen : List α) : List α → List α
  | [] => []
  | a :: as =>
    if seen.contains a then firstOccurrences seen as
    else a :: firstOccurrences (a :: seen) as

/-- The nodes to be fixed and the rules to fix them, each pair once. -/
def Detection.fixes (d : Detection) : List (NodeId × RuleId) :=
  firstOccurrences [] (d.correctable.map fun p => (p.node, p.ruleId))

/-- The tree after one fix, if its node is still there. -/
def fixOne (active : List Active) (t : Tree) (fix : NodeId × RuleId) :
    Except FixFailure Tree :=
  if t.isAttached fix.1 then
    match active.find? fun a => a.id = fix.2 with
    | none => .ok t
    | some a => (a.fix t fix.1).mapError (⟨some fix.2, ·⟩)
  else .ok t

/-- The tree after a list of fixes. -/
def fixAll (active : List Active) (t : Tree) :
    List (NodeId × RuleId) → Except FixFailure Tree
  | [] => .ok t
  | fix :: fixes =>
    match fixOne active t fix with
    | .ok t' => fixAll active t' fixes
    | .error failure => .error failure

/-- The tree after a fix pass. -/
def correct (active : List Active) (d : Detection) : Except FixFailure Tree :=
  match fixAll active d.tree d.fixes with
  | .error failure => .error failure
  | .ok t =>
    match t.fault? with
    | some fault => .error ⟨none, fault⟩
    | none => .ok t

end Fettle
