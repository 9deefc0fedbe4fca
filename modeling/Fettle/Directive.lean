import Fettle.RuleId
import Fettle.Text.Blank
import Fettle.Text.Ends

/-!
# Directives

A comment can switch rules off or on.  Its body, which is the comment without its marks and
without blanks at its ends, is then the keyword `ktlint-disable` or `ktlint-enable`, alone or
followed by blanks and words.  The words are the ids of the rules meant; without words all
rules are meant.  `Directive.parse?` reads a comment; words that are no rule ids are passed
over, and a comment all of whose words are such is no directive.
-/

namespace Fettle

/-- Whether rules are switched off or on. -/
inductive Switch where
  | disable
  | enable
  deriving DecidableEq, Repr

/-- The rules that are switched: all, or the listed ones, in ascending order. -/
inductive Named where
  | all
  | listed (ids : List RuleId)
  deriving DecidableEq, Repr

/-- Whether a rule is among those named. -/
def Named.covers : Named → RuleId → Bool
  | all, _ => true
  | listed ids, r => ids.contains r

/-- What a comment switches. -/
structure Directive where
  switch : Switch
  rules : Named
  deriving DecidableEq, Repr

namespace Switch

/-- The word that stands for a switch in a comment. -/
def keyword : Switch → String
  | disable => "ktlint-disable"
  | enable => "ktlint-enable"

/-- The switch at the front of a comment's body, and what follows it. -/
def lead? (body : List Char) : Option (Switch × List Char) :=
  ((Text.dropLead? disable.keyword.toList body).map (disable, ·)).or
    ((Text.dropLead? enable.keyword.toList body).map (enable, ·))

end Switch

/-- A text without a given text at its front, if it is there. -/
def withoutLead (lead s : List Char) : List Char :=
  (Text.dropLead? lead s).getD s

/-- A text without a given text at its end, if it is there. -/
def withoutTail (tail s : List Char) : List Char :=
  (Text.dropTail? tail s).getD s

/-- A comment without the marks at its ends. -/
def commentBody (comment : List Char) : List Char :=
  match Text.dropLead? ['/', '/'] comment with
  | some body => body
  | none =>
    match Text.dropLead? ['/', '*'] comment with
    | some body => withoutTail ['*', '/'] (withoutLead ['*'] body)
    | none => comment

namespace Directive

/-- The id that a word stands for. -/
def wordId? (w : List Char) : Option RuleId :=
  match RuleId.parse (String.ofList w) with
  | .ok id => some id
  | .error _ => none

/-- The rules that words name; words of which none is an id name nothing. -/
def named? (ws : List (List Char)) : Option Named :=
  if ws = [] then some .all
  else
    match sortedIds (ws.filterMap wordId?) with
    | [] => none
    | ids => some (.listed ids)

/-- The directive that a comment is. -/
def parse? (comment : String) : Option Directive :=
  match Switch.lead? (Text.trim (commentBody comment.toList)) with
  | none => none
  | some (switch, rest) =>
    if rest.head?.all Text.isBlank then (named? (Text.words rest)).map (⟨switch, ·⟩)
    else none

/-- Whether a comment is a directive. -/
def isDirective (comment : String) : Bool :=
  (parse? comment).isSome

example : parse? "// ktlint-disable" = some ⟨.disable, .all⟩ := by decide +kernel

example : parse? "/* ktlint-enable no-tabs x:y Bad */"
    = some ⟨.enable, .listed [⟨"standard:no-tabs"⟩, ⟨"x:y"⟩]⟩ := by decide +kernel

example : parse? "// ktlint-disabled" = none := by decide +kernel

end Directive

end Fettle
