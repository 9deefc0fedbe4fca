import Fettle.Arena.View
import Fettle.Position
import Fettle.Text.Slice

/-!
# Indexed positions

A `PositionIndex` is a snapshot of a document for finding many positions.  It keeps the text and
the offsets at which the lines start, which are gathered part by part; the line of an offset is
found among them by halving.
-/

namespace Fettle

/-- The text of a document and the offsets at which its lines start. -/
structure PositionIndex where
  text : String
  lineStarts : Array Nat
  deriving DecidableEq, Repr

namespace PositionIndex

/-- The offsets just after the line feeds of a text that begins at `base`. -/
def feedEnds (base : Nat) : List Char → List Nat
  | [] => []
  | c :: s =>
    if c = '\n' then (base + 1) :: feedEnds (base + c.utf8Size) s
    else feedEnds (base + c.utf8Size) s

/-- The index of the document without text. -/
def empty : PositionIndex := ⟨"", #[0]⟩

/-- The index after one more part of the document. -/
def add (index : PositionIndex) (part : String) : PositionIndex :=
  ⟨index.text ++ part, index.lineStarts ++ feedEnds index.text.utf8ByteSize part.toList⟩

/-- The index of a document that is cut into parts. -/
def ofParts (parts : List String) : PositionIndex :=
  parts.foldl add empty

/-- The index of the document of an arena, made from its leaves. -/
def ofArena (a : Arena) : PositionIndex :=
  ofParts (a.leaves.map fun id => (a.leafText? id).getD "")

/-- The first index from `lo` to `hi` at which a number is more than a bound, where no number is
followed by a lesser one. -/
def firstAbove (xs : Array Nat) (bound lo hi : Nat) : Nat :=
  if lo < hi then
    let mid := lo + (hi - lo) / 2
    if xs.getD mid 0 ≤ bound then firstAbove xs bound (mid + 1) hi
    else firstAbove xs bound lo mid
  else lo
termination_by hi - lo

variable (index : PositionIndex)

/-- The number of lines. -/
def lineCount : Nat :=
  index.lineStarts.size

/-- The number of lines that start at or before an offset. -/
def linesUpTo (offset : Nat) : Nat :=
  firstAbove index.lineStarts offset 0 index.lineStarts.size

/-- The position of an offset; the end of the document has one. -/
def resolve (offset : Nat) : Except PositionFault Position :=
  if index.text.utf8ByteSize < offset then
    .error (.outOfBounds offset index.text.utf8ByteSize)
  else if (Text.cut? index.text.toList offset).isNone then .error (.notBoundary offset)
  else
    let line := index.linesUpTo offset
    let start := index.lineStarts.getD (line - 1) 0
    .ok ⟨line, (Text.slice start offset index.text.toList).length + 1⟩

/-- The offset at which the line of an offset begins. -/
def lineStart (offset : Nat) : Nat :=
  index.lineStarts.getD (max (index.linesUpTo offset) 1 - 1) 0

/-- The offset at which the line of an offset ends, its line feed excluded. -/
def lineEnd (offset : Nat) : Nat :=
  match index.lineStarts[index.linesUpTo offset]? with
  | some next => next - 1
  | none => index.text.utf8ByteSize

end PositionIndex

end Fettle
