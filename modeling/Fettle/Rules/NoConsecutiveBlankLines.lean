import Fettle.Rule
import Fettle.Text.Bytes
import Fettle.Tree.Navigation

/-!
# No consecutive blank lines

There is at most one blank line in a row, and none at the end of the document.  White space
that has more line feeds than that keeps its first and its last line, with the line breaks
that are allowed between them; they are made like the first one, with a carriage return if
that has one.
-/

namespace Fettle.NoConsecutiveBlankLines

/-- The line feeds that white space may have. -/
def allowed (atEnd : Bool) : Nat :=
  if atEnd then 1 else 2

/-- Whether no leaf follows a site. -/
def isLast (s : Site) : Bool :=
  (s.tree.nextLeaf? s.node).isNone

/-- Whether a site is white space after an element with too many line feeds. -/
def isExcessive (s : Site) : Bool :=
  s.kind == .whitespace && (s.tree.prevLeaf? s.node).isSome
    && allowed (isLast s) < s.text.count '\n'

/-- The bytes of the first two lines of a text and their line feeds. -/
def firstTwoLines (text : List Char) : Nat :=
  ((Text.lines text).take 2).foldr (fun l n => Text.byteLength l + 1 + n) 0

/-- White space with only as many line breaks as are allowed. -/
def collapsed (atEnd : Bool) (text : List Char) : List Char :=
  let first := (Text.lines text).head?.getD []
  let last := (Text.lines text).getLast?.getD []
  let (body, mark) := Text.splitReturn first true
  body ++ (List.replicate (allowed atEnd) (mark ++ ['\n'])).flatten ++ last

/-- What is reported at a site. -/
def inspect (s : Site) : Inspection :=
  if isExcessive s then
    .found [s.finding s.node (firstTwoLines s.text) "Needless blank line(s)" true]
  else .clean

/-- The tree in which a site is corrected. -/
def fix (s : Site) : Except Fault Tree :=
  if isExcessive s then
    (s.tree.replace s.node (.whitespace (String.ofList (collapsed (isLast s) s.text)))).map (·.2)
  else .ok s.tree

/-- The rule that there is at most one blank line in a row. -/
def rule : Rule where
  id := "no-consecutive-blank-lines"
  description := "At most one consecutive blank line"
  properties := []
  modifiers := [.late]
  inspect := inspect
  fix := fix

end Fettle.NoConsecutiveBlankLines
