import Fettle.Text.Bytes
import Fettle.Text.Lines

/-!
# Positions

A `Position` is a line and a column, both counted from one.  `Position.ofOffset` finds the
position of a byte offset in a text: lines are ended by line feeds, and columns count
characters, not bytes.  An offset inside a character has no position, nor has one past the
end; the end itself has one.

`lineStart` and `lineEnd` are the offsets at which the line of an offset begins and ends.
-/

namespace Fettle

/-- A place in a text, as a line and a column from one. -/
structure Position where
  line : Nat
  column : Nat
  deriving DecidableEq, Repr

/-- Why an offset has no position. -/
inductive PositionFault where
  | outOfBounds (offset length : Nat)
  | notBoundary (offset : Nat)
  deriving DecidableEq, Repr

/-- The wording of a position fault. -/
def PositionFault.message : PositionFault → String
  | outOfBounds offset length =>
    "offset " ++ toString offset ++ " is outside of the document (length "
      ++ toString length ++ ")"
  | notBoundary offset =>
    "offset " ++ toString offset ++ " is not on a character boundary"

namespace Position

/-- The place after a character. -/
def next (p : Position) (c : Char) : Position :=
  if c = '\n' then ⟨p.line + 1, 1⟩ else ⟨p.line, p.column + 1⟩

/-- The place a number of bytes into a text that starts at a given place. -/
def advance (p : Position) : List Char → Nat → Option Position
  | _, 0 => some p
  | [], _ + 1 => none
  | c :: s, n + 1 =>
    if c.utf8Size ≤ n + 1 then (p.next c).advance s (n + 1 - c.utf8Size) else none

/-- The position of a byte offset. -/
def ofOffset (text : String) (offset : Nat) : Except PositionFault Position :=
  if text.utf8ByteSize < offset then .error (.outOfBounds offset text.utf8ByteSize)
  else match (⟨1, 1⟩ : Position).advance text.toList offset with
    | some p => .ok p
    | none => .error (.notBoundary offset)

example : ofOffset "ab\nc" 4 = .ok ⟨2, 2⟩ := by rfl

example : ofOffset "é" 1 = .error (.notBoundary 1) := by rfl

end Position

/-- The number of lines of a text. -/
def lineCount (text : String) : Nat :=
  (Text.lines text.toList).length

/-- The last line start at or before an offset, where `start` is one and the text begins at
`pos`. -/
def lineStartFrom (offset start pos : Nat) : List Char → Nat
  | [] => start
  | c :: s =>
    lineStartFrom offset (if c = '\n' ∧ pos + 1 ≤ offset then pos + 1 else start)
      (pos + c.utf8Size) s

/-- The offset at which the line of an offset begins. -/
def lineStart (text : String) (offset : Nat) : Nat :=
  lineStartFrom offset 0 0 text.toList

/-- The first line end at or after an offset, where the text begins at `pos`. -/
def lineEndFrom (offset pos : Nat) : List Char → Nat
  | [] => pos
  | c :: s =>
    if c = '\n' ∧ offset ≤ pos then pos else lineEndFrom offset (pos + c.utf8Size) s

/-- The offset at which the line of an offset ends, its line feed excluded. -/
def lineEnd (text : String) (offset : Nat) : Nat :=
  lineEndFrom offset 0 text.toList

end Fettle
