import Fettle.Decimal.Integer
import Fettle.Decimal.Shortest

/-!
# Floats in decimal

`readFloat?` reads a float: an optional sign, and `inf`, `nan` or digits with an optional
fraction and an optional exponent.  The result is the float nearest to the number written;
one that is too large for a float reads as infinity.
-/

namespace Fettle.Decimal

/-- The parts of a decimal number: the digits before and after the point, and the
exponent. -/
structure Numeral where
  whole : List Char
  fraction : List Char
  exponent : Int
  deriving DecidableEq, Repr

/-- The number that is written by a sign and the parts of a decimal number. -/
def Numeral.toFloat (n : Numeral) (negative : Bool) : Float :=
  let mantissa := Nat.ofDigitChars 10 (n.whole ++ n.fraction) 0
  let size := nearestFloat mantissa (n.exponent - n.fraction.length)
  if negative then -size else size

/-- A sign at the front of a text, and what follows it. -/
def takeSign : List Char → Bool × List Char
  | '-' :: s => (true, s)
  | '+' :: s => (false, s)
  | s => (false, s)

/-- The exponent written at the front of a text, if there is one. -/
def readExponent? : List Char → Option Int
  | [] => some 0
  | c :: s => if c = 'e' ∨ c = 'E' then readInt? s else none

/-- The parts of a decimal number without a sign. -/
def readNumeral? (s : List Char) : Option Numeral :=
  let whole := s.takeWhile Char.isDigit
  let rest := s.dropWhile Char.isDigit
  let (fraction, tail) :=
    match rest with
    | '.' :: t => (t.takeWhile Char.isDigit, t.dropWhile Char.isDigit)
    | t => ([], t)
  if whole.isEmpty && fraction.isEmpty then none
  else (readExponent? tail).map (⟨whole, fraction, ·⟩)

/-- The float that a text stands for. -/
def readFloat? (s : List Char) : Option Float :=
  let (negative, size) := takeSign s
  if size = ['i', 'n', 'f'] then some (if negative then -(1 / 0) else 1 / 0)
  else if size = ['n', 'a', 'n'] then some (0 / 0)
  else (readNumeral? size).map fun n => n.toFloat negative

end Fettle.Decimal
