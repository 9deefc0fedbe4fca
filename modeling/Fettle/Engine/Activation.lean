import Fettle.Engine.Basic
import Fettle.Report.Basic

/-!
# Activation

The rules that are *active* for a file are those that its scope does not switch off, whose
properties have usable values in the scope, and all of whose required rules are active too.
`configure` finds the rules with the first two properties.  `prune` takes out the rules that
require a rule that is not there, one after the other, since each that goes may have been
required itself.  Every rule that is not active and not simply switched off is named in one
diagnostic.
-/

namespace Fettle

/-- A rule that runs for a file, with its settings. -/
structure Active where
  rule : Registered
  settings : Settings

namespace Active

/-- The id of an active rule. -/
def id (a : Active) : RuleId :=
  a.rule.id

/-- The site of an active rule at a node. -/
def site (a : Active) (t : Tree) (n : NodeId) : Site :=
  ⟨t, n, a.id, a.settings⟩

/-- What an active rule finds at a node. -/
def inspect (a : Active) (t : Tree) (n : NodeId) : Inspection :=
  a.rule.rule.inspect (a.site t n)

/-- The tree in which an active rule has corrected what it can at a node. -/
def fix (a : Active) (t : Tree) (n : NodeId) : Except Fault Tree :=
  a.rule.rule.fix (a.site t n)

end Active

/-- The diagnostic of a rule that the configuration keeps from running. -/
def Diagnostic.ofProperty (id : RuleId) (fault : PropertyFault) : Diagnostic :=
  match fault with
  | .invalid _ _ _ => .property id.text fault.message
  | .invalidRuleState _ _ => .ruleState id.text fault.message

namespace Activation

/-- The rules that a scope switches on and has settings for, and the diagnostics of those
that it has none for.  One resolver serves all rules. -/
def configure (scope : Scope) (resolver : Resolver) :
    List Registered → List Active × List Diagnostic
  | [] => ([], [])
  | r :: rs =>
    match scope.isEnabled r.id with
    | .ok false => configure scope resolver rs
    | .error fault =>
      let (active, diagnostics) := configure scope resolver rs
      (active, .ofProperty r.id fault :: diagnostics)
    | .ok true =>
      match resolver.resolve r.rule.properties with
      | (.ok settings, resolver) =>
        let (active, diagnostics) := configure scope resolver rs
        (⟨r, settings⟩ :: active, diagnostics)
      | (.error fault, resolver) =>
        let (active, diagnostics) := configure scope resolver rs
        (active, .ofProperty r.id fault :: diagnostics)

/-- The first rule that requires a rule that is not active, and the first rule that it
misses. -/
def orphan? (active : List Active) : Option (RuleId × RuleId) :=
  active.findSome? fun a =>
    (a.rule.requires.find? fun id => !(active.map Active.id).contains id).map (a.id, ·)

/-- The rules that are left when those that miss a required rule are taken out, at most a
number of them. -/
def prune : Nat → List Active → List Active × List Diagnostic
  | 0, active => (active, [])
  | n + 1, active =>
    match orphan? active with
    | none => (active, [])
    | some (id, required) =>
      let (left, diagnostics) := prune n (active.filter fun a => a.id ≠ id)
      (left, .missingRequiredRule id.text required.text :: diagnostics)

end Activation

/-- The active rules of an engine for a scope, and why others are not active. -/
def Engine.activate (e : Engine) (scope : Scope) : List Active × List Diagnostic :=
  let (configured, faults) := Activation.configure scope (.ofScope scope) e.rules
  let (active, orphans) := Activation.prune configured.length configured
  (active, faults ++ orphans)

end Fettle
