import Fettle.Config.Settings
import Fettle.Tree.Edit

/-!
# Rules

A `Rule` looks at one node at a time.  At a `Site`, which is a node of a tree with the
settings that the rule has declared, `inspect` tells what it finds there and `fix` gives the
tree in which what it can correct there is corrected.  Looking at a node never changes the
tree.  `Modifier`s say where in the order of rules a rule stands and which rules it needs.
-/

namespace Fettle

/-- What a rule is given to look at. -/
structure Site where
  tree : Tree
  node : NodeId
  ruleId : RuleId
  settings : Settings

/-- The kind of the node. -/
def Site.kind (s : Site) : Kind :=
  s.tree.kind s.node

/-- The text of the node if it is a leaf, and no text otherwise. -/
def Site.text (s : Site) : List Char :=
  ((s.tree.leafText? s.node).getD "").toList

/-- Something that a rule finds at an offset of the document. -/
structure Finding where
  offset : Nat
  message : String
  correctable : Bool
  deriving DecidableEq, Repr

/-- A finding a number of bytes after the start of a node. -/
def Site.finding (s : Site) (n : NodeId) (delta : Nat) (message : String)
    (correctable : Bool) : Finding :=
  ⟨s.tree.startOffset n + delta, message, correctable⟩

/-- What a rule finds at one node, and why it gave up, if it did. -/
structure Inspection where
  findings : List Finding
  failure : Option Fault
  deriving DecidableEq, Repr

/-- An inspection that has found nothing. -/
def Inspection.clean : Inspection := ⟨[], none⟩

/-- An inspection that came to its end. -/
def Inspection.found (findings : List Finding) : Inspection := ⟨findings, none⟩

/-- What a rule asks of the rules around it: to come after another rule, to come after all
rules that do not ask the same, or that another rule is registered and active. -/
inductive Modifier where
  | runAfter (rule : String)
  | late
  | requires (rule : String)
  deriving DecidableEq, Repr

/-- A rule. -/
structure Rule where
  id : String
  description : String
  properties : List Property
  modifiers : List Modifier
  inspect : Site → Inspection
  fix : Site → Except Fault Tree

/-- Rules that are registered together, under the name that their ids begin with. -/
structure RuleSet where
  id : String
  rules : List Rule

end Fettle
