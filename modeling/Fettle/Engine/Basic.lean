import Fettle.Config.Basic
import Fettle.Order

/-!
# Engines

An `Engine` holds rules in execution order and the limits on fixing: how many fix passes a
file gets, and how much time.  `Engine.Setup` is what an engine is made from, and
`Setup.build` makes it; the order of rules does not depend on the order in which they were
added.
-/

namespace Fettle

/-- Rules in execution order, and the limits on fixing one file.  The time is counted in
milliseconds. -/
structure Engine where
  rules : List Registered
  maxPasses : Nat
  timeout : Option Nat

namespace Engine

/-- What an engine is made from. -/
structure Setup where
  rules : List Rule := []
  ruleSets : List RuleSet := []
  maxPasses : Nat := Config.defaultMaxPasses
  timeout : Option Nat := none

namespace Setup

/-- A setup with one more rule. -/
def withRule (s : Setup) (r : Rule) : Setup :=
  { s with rules := s.rules ++ [r] }

/-- A setup with one more rule set. -/
def withRuleSet (s : Setup) (r : RuleSet) : Setup :=
  { s with ruleSets := s.ruleSets ++ [r] }

/-- A setup with another limit on fix passes, which is at least one. -/
def withMaxPasses (s : Setup) (n : Nat) : Setup :=
  { s with maxPasses := max n 1 }

/-- A setup with a limit on the time for fixing. -/
def withTimeout (s : Setup) (milliseconds : Nat) : Setup :=
  { s with timeout := some milliseconds }

/-- A setup with the limits of a configuration. -/
def withConfig (s : Setup) (c : Config) : Setup :=
  match c.timeout with
  | none => s.withMaxPasses c.maxPasses
  | some milliseconds => (s.withMaxPasses c.maxPasses).withTimeout milliseconds

/-- The engine of a setup. -/
def build (s : Setup) : Except RegistrationFault Engine := do
  let registered ← registration s.rules s.ruleSets
  let order ← executionOrder registered
  return ⟨order, s.maxPasses, s.timeout⟩

end Setup

/-- The ids of the rules in execution order. -/
def ruleIds (e : Engine) : List RuleId :=
  e.rules.map Registered.id

end Engine

end Fettle
