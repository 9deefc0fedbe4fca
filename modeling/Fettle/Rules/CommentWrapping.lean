import Fettle.Directive
import Fettle.Rule
import Fettle.Tree.Navigation

/-!
# Comment wrapping

A block comment shares no line with code.  `Layout.of` tells how a comment stands to what is
around it; white space on the same line counts as part of the comment.  A comment on one line
with nothing after it can be made an end-of-line comment, and an element after a comment that
begins its line can be moved to a line of its own.  The other layouts are only reported.
-/

namespace Fettle.CommentWrapping

/-- The words at the front of comments that switch rules. -/
def isSwitch (comment : List Char) : Bool :=
  let body := Text.trim (withoutTail ['*', '/'] (withoutLead ['/', '*'] comment))
  (Switch.lead? body).isSome

/-- A comment between marks of a block comment as an end-of-line comment. -/
def asEolComment (comment : List Char) : String :=
  let content := ((Text.dropLead? ['/', '*'] comment).bind (Text.dropTail? ['*', '/'])).getD
    comment
  String.ofList ('/' :: '/' :: ' ' :: Text.trim content)

/-- The first of some leaves that is not white space on the same line, where at most one leaf
is passed over. -/
def neighbour? : List (Leaf NodeId) → Option (Leaf NodeId)
  | [] => none
  | l :: ls => if l.isInlineSpace then ls.head? else some l

/-- How a block comment stands to what is around it. -/
inductive Layout where
  /-- Nothing is wrong. -/
  | fine
  /-- One line with nothing before or after. -/
  | alone
  /-- Several lines with something before and after. -/
  | spanning
  /-- One line with something before and after. -/
  | between
  /-- Several lines with something before. -/
  | longAfter
  /-- One line with something before. -/
  | shortAfter
  /-- Something after, at a given leaf. -/
  | followed (next : NodeId)
  deriving DecidableEq, Repr

namespace Layout

/-- The layout of a comment between the nearest leaves before and after it. -/
def of (comment : List Char) (prev next : Option (Leaf NodeId)) : Layout :=
  let long := comment.contains '\n'
  match prev.filter (!·.breaksLine), next.filter (!·.breaksLine) with
  | none, none => if long || isSwitch comment then fine else alone
  | some p, some n =>
    if long then spanning
    else if p.kind == .leftBrace && n.kind == .rightBrace then fine
    else between
  | some _, none => if long then longAfter else shortAfter
  | none, some n => followed n.id

end Layout

/-- The layout of the block comment at a site. -/
def layout (s : Site) : Layout :=
  .of s.text (neighbour? (s.tree.leavesBefore s.node).reverse)
    (neighbour? (s.tree.leavesAfter s.node))

/-- What is reported of a layout. -/
def findings (s : Site) : Layout → List Finding
  | .fine => []
  | .alone =>
    [s.finding s.node 0 "A single line block comment must be replaced with an EOL comment" true]
  | .spanning =>
    [s.finding s.node 0 ("A block comment starting on same line as another element and ending "
      ++ "on another line before another element is disallowed") false]
  | .between =>
    [s.finding s.node 0
      "A block comment in between other elements on the same line is disallowed" false]
  | .longAfter =>
    [s.finding s.node 0 ("A block comment after any other element on the same line must be "
      ++ "separated by a new line") false]
  | .shortAfter =>
    [s.finding s.node 0 ("A single line block comment after a code element on the same line "
      ++ "must be replaced with an EOL comment") true]
  | .followed next =>
    [s.finding next 0
      "A block comment may not be followed by any other element on that same line" true]

/-- The tree in which a layout is corrected. -/
def corrected (s : Site) : Layout → Except Fault Tree
  | .alone =>
    (s.tree.replace s.node (.ofLeaf .eolComment (asEolComment s.text))).map (·.2)
  | .shortAfter =>
    match s.tree.setSpaceBefore s.node " " with
    | .error fault => .error fault
    | .ok (_, t) => (t.replace s.node (.ofLeaf .eolComment (asEolComment s.text))).map (·.2)
  | .followed next => (s.tree.setSpaceBefore next (s.tree.indent s.node)).map (·.2)
  | .fine | .spanning | .between | .longAfter => .ok s.tree

/-- What is reported at a site. -/
def inspect (s : Site) : Inspection :=
  if s.kind = .blockComment then .found (findings s (layout s)) else .clean

/-- The tree in which a site is corrected. -/
def fix (s : Site) : Except Fault Tree :=
  if s.kind = .blockComment then corrected s (layout s) else .ok s.tree

/-- The rule that block comments share no line with code. -/
def rule : Rule where
  id := "comment-wrapping"
  description := "Block comments must not share a line with code"
  properties := [.indentSize, .indentStyle]
  modifiers := []
  inspect := inspect
  fix := fix

end Fettle.CommentWrapping
