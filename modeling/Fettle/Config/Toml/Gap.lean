/-!
# White space and comments of TOML

Between the parts of a line stand spaces and tabs.  A line ends with a line feed, which may
follow a carriage return, or with the document, and a comment may stand before its end.
Inside arrays line ends and comments may stand wherever white space may.

A `Reader` takes what it reads off the front of a text.
-/

namespace Fettle.Toml

/-- A reader of values at the front of a text; it gives the value and what follows it. -/
abbrev Reader (α : Type) := List Char → Option (α × List Char)

/-- Spaces and tabs. -/
def isSpace (c : Char) : Bool :=
  c == ' ' || c == '\t'

/-- A text without the spaces and tabs at its front. -/
def dropSpaces (s : List Char) : List Char :=
  s.dropWhile isSpace

/-- The characters of comments: all but control characters, of which the tab and the delete
character are allowed. -/
def isCommentChar (c : Char) : Bool :=
  c == '\t' || 0x20 ≤ c.toNat

/-- A text without the comment at its front, if there is one. -/
def dropComment : List Char → List Char
  | '#' :: s => s.dropWhile isCommentChar
  | s => s

/-- What follows the end of a line, which may also be the end of the text. -/
def lineEnd? : List Char → Option (List Char)
  | [] => some []
  | '\n' :: s => some s
  | '\r' :: '\n' :: s => some s
  | _ => none

/-- What follows the end of a line that may have spaces and a comment before its end. -/
def lineTail? (s : List Char) : Option (List Char) :=
  lineEnd? (dropComment (dropSpaces s))

/-- A text without the spaces, line ends and comments at its front.  The flag tells whether
the text begins inside a comment. -/
def dropGap (comment : Bool) : List Char → List Char
  | [] => []
  | '\r' :: '\n' :: s => dropGap false s
  | c :: s =>
    if c = '\n' then dropGap false s
    else if comment then if isCommentChar c then dropGap true s else c :: s
    else if isSpace c then dropGap false s
    else if c = '#' then dropGap true s
    else c :: s

/-- What follows a given character. -/
def after? (c : Char) : List Char → Option (List Char)
  | [] => none
  | d :: s => if c = d then some s else none

end Fettle.Toml
