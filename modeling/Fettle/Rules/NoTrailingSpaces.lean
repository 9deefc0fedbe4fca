import Fettle.Rule
import Fettle.Text.Bytes
import Fettle.Tree.Navigation

/-!
# No trailing spaces

No line ends in white space, neither in the white space between elements nor in a comment, and
there is none at the end of the document other than line breaks.  A carriage return before a
line feed belongs to the line break and stays.

White space and comments are looked at line by line: `spaceMarks` and `commentMarks` are the
offsets, in bytes from the start of the leaf, of what is reported, and `spaceKept` and
`commentKept` the lines that are left.
-/

namespace Fettle.NoTrailingSpaces

/-- Where white space lines are reported: every line that a line feed ends and that holds more
than a carriage return, and the last line if the document ends there. -/
def spaceMarks (atEnd : Bool) (delta : Nat) : List (List Char) → List Nat
  | [] => []
  | [last] => if atEnd && !last.isEmpty then [delta] else []
  | line :: rest =>
    let marks := spaceMarks atEnd (delta + Text.byteLength line + 1) rest
    if (Text.splitReturn line true).1.isEmpty then marks else delta :: marks

/-- What is left of white space lines: the line breaks, and the last line unless the document
ends there. -/
def spaceKept (atEnd : Bool) : List (List Char) → List (List Char)
  | [] => []
  | [last] => [if atEnd then [] else last]
  | line :: rest => (Text.splitReturn line true).2 :: spaceKept atEnd rest

/-- Where lines of a comment are reported: after the last character of a line that is not
blank, if blanks follow it.  The last line is before a line feed if one follows the
comment. -/
def commentMarks (feedFollows : Bool) (delta : Nat) : List (List Char) → List Nat
  | [] => []
  | line :: rest =>
    let body := (Text.splitReturn line (feedFollows || !rest.isEmpty)).1
    let kept := Text.trimEnd body
    let marks := commentMarks feedFollows (delta + Text.byteLength line + 1) rest
    if kept.length < body.length then (delta + Text.byteLength kept) :: marks else marks

/-- What is left of the lines of a comment. -/
def commentKept (feedFollows : Bool) : List (List Char) → List (List Char)
  | [] => []
  | line :: rest =>
    let split := Text.splitReturn line (feedFollows || !rest.isEmpty)
    (Text.trimEnd split.1 ++ split.2) :: commentKept feedFollows rest

/-- Whether no leaf follows a site. -/
def atEnd (s : Site) : Bool :=
  (s.tree.nextLeaf? s.node).isNone

/-- Whether the leaf after a site begins with a line feed. -/
def feedFollows (s : Site) : Bool :=
  (s.tree.nextLeaf? s.node).any fun l => l.text.toList.head? == some '\n'

/-- The places to report at a site. -/
def marks (s : Site) : List Nat :=
  if s.kind = .whitespace then spaceMarks (atEnd s) 0 (Text.lines s.text)
  else if s.kind.isComment then commentMarks (feedFollows s) 0 (Text.lines s.text)
  else []

/-- The text that is left at a site. -/
def kept (s : Site) : List Char :=
  if s.kind = .whitespace then Text.unlines (spaceKept (atEnd s) (Text.lines s.text))
  else Text.unlines (commentKept (feedFollows s) (Text.lines s.text))

/-- What is reported at a site. -/
def inspect (s : Site) : Inspection :=
  .found ((marks s).map fun delta => s.finding s.node delta "Trailing space(s)" true)

/-- The tree in which a site is corrected. -/
def fix (s : Site) : Except Fault Tree :=
  if (marks s).isEmpty then .ok s.tree
  else if s.kind = .whitespace ∧ kept s = [] then s.tree.remove s.node
  else (s.tree.replace s.node (.ofLeaf s.kind (String.ofList (kept s)))).map (·.2)

/-- The rule that no line ends in white space. -/
def rule : Rule where
  id := "no-trailing-spaces"
  description := "Lines must not end with whitespace"
  properties := []
  modifiers := []
  inspect := inspect
  fix := fix

end Fettle.NoTrailingSpaces
