import Fettle.Rules.CommentWrapping

/-!
# No multiple spaces

Elements on one line are separated by a single space.  White space with a line feed, and white
space at the start or the end of the document, is left alone.
-/

namespace Fettle.NoMultiSpaces

/-- Whether a site is white space between elements of one line that is longer than one
byte. -/
def isLong (s : Site) : Bool :=
  s.kind == .whitespace && !s.text.contains '\n' && 2 ≤ s.tree.textLengthOf s.node
    && (s.tree.prevLeaf? s.node).isSome && (s.tree.nextLeaf? s.node).isSome

/-- What is reported at a site. -/
def inspect (s : Site) : Inspection :=
  if isLong s then .found [s.finding s.node 1 "Unnecessary long whitespace" true] else .clean

/-- The tree in which a site is corrected. -/
def fix (s : Site) : Except Fault Tree :=
  if isLong s then (s.tree.replace s.node (.whitespace " ")).map (·.2) else .ok s.tree

/-- The rule that elements on a line are separated by a single space. -/
def rule : Rule where
  id := "no-multi-spaces"
  description := "Elements on a line are separated by a single space"
  properties := []
  modifiers := [.runAfter CommentWrapping.rule.id]
  inspect := inspect
  fix := fix

end Fettle.NoMultiSpaces
