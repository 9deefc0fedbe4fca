import Fettle.Rules.CommentWrapping
import Fettle.Rules.NoConsecutiveBlankLines
import Fettle.Rules.NoMultiSpaces
import Fettle.Rules.NoTrailingSpaces

/-!
# The standard rules

`Preset.rules` lists the rules of each preset: all standard rules, or only those that move
nothing from one line to another.  `standardRuleSet` is the rule set `standard`.
-/

namespace Fettle

/-- A choice of rules. -/
inductive Preset where
  | standard
  | minimal
  deriving DecidableEq, Repr

/-- The rules of a preset. -/
def Preset.rules : Preset → List Rule
  | standard =>
    [CommentWrapping.rule, NoTrailingSpaces.rule, NoMultiSpaces.rule,
      NoConsecutiveBlankLines.rule]
  | minimal => [NoTrailingSpaces.rule, NoConsecutiveBlankLines.rule]

/-- The rule set of all standard rules. -/
def standardRuleSet : RuleSet where
  id := RuleId.defaultSet
  rules := Preset.standard.rules

end Fettle
