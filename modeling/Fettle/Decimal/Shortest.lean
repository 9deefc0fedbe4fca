/-!
# The shortest decimal of a binary fraction

A finite float stands for `m * 2 ^ q` with `m` its significand; the reals that round to it
form an interval, whose ends belong to it exactly if `m` is even.  `shortest m q` is the
decimal `d * 10 ^ k` with the fewest digits in that interval, and of those the nearest to
the float: grids of decimals are tried from the coarsest on, and on each grid only the two
neighbours of the float.

Numbers are compared exactly, as fractions with a common denominator.
-/

namespace Fettle.Decimal

/-- The significand and the binary exponent of a positive finite float, given by its bits
without the sign. -/
def significand (bits : Nat) : Nat × Int :=
  let e : Nat := bits / Nat.pow 2 52
  let m : Nat := bits % Nat.pow 2 52
  if e = 0 then (m, -1074) else (m + Nat.pow 2 52, (e : Int) - 1075)

/-- The quarter units of `m * 2 ^ q` at which the interval around it begins.  Below a power
of two the floats are twice as dense. -/
def lowerQuarters (m : Nat) (q : Int) : Nat :=
  if m = Nat.pow 2 52 ∧ q ≠ -1074 then 4 * m - 1 else 4 * m - 2

/-- Whether `d * 10 ^ k` is in the interval of `m * 2 ^ q`. -/
def inInterval (m : Nat) (q : Int) (d : Nat) (k : Int) : Bool :=
  let lhs := d * Nat.pow 10 k.toNat * Nat.pow 2 (2 - q).toNat
  let scale := Nat.pow 10 (-k).toNat * Nat.pow 2 (q - 2).toNat
  let low := lowerQuarters m q * scale
  let high := (4 * m + 2) * scale
  if m % 2 = 0 then low ≤ lhs && lhs ≤ high else low < lhs && lhs < high

/-- The multiple of `10 ^ k` at or below `m * 2 ^ q`, as the number of times, and whether the
next multiple is nearer. -/
def gridBelow (m : Nat) (q : Int) (k : Int) : Nat × Bool :=
  let num := m * Nat.pow 2 q.toNat * Nat.pow 10 (-k).toNat
  let den := Nat.pow 2 (-q).toNat * Nat.pow 10 k.toNat
  (num / den, decide (den < 2 * (num % den)))

/-- The neighbour of `m * 2 ^ q` on the grid of multiples of `10 ^ k` that rounds to it. -/
def onGrid? (m : Nat) (q : Int) (k : Int) : Option Nat :=
  let (d, up) := gridBelow m q k
  let first := if up then d + 1 else d
  let second := if up then d else d + 1
  if inInterval m q first k then some first
  else if inInterval m q second k then some second
  else none

/-- The decimal of the coarsest grid, from `10 ^ (n - 344)` down, that has one. -/
def coarsest (m : Nat) (q : Int) : Nat → Nat × Int
  | 0 => (m, 0)
  | n + 1 =>
    match onGrid? m q ((n : Int) - 343) with
    | some d => (d, (n : Int) - 343)
    | none => coarsest m q n

/-- The digits and the decimal exponent of the shortest decimal that rounds to
`m * 2 ^ q`. -/
def shortest (m : Nat) (q : Int) : Nat × Int :=
  coarsest m q 654

/-- A decimal written out without an exponent, with a digit on both sides of the point. -/
def positional (d : Nat) (k : Int) : String :=
  if 0 ≤ k then toString (d * Nat.pow 10 k.toNat) ++ ".0"
  else
    let places := (-k).toNat
    let fraction := (toString (d % Nat.pow 10 places)).toList
    let zeros := List.replicate (places - fraction.length) '0'
    toString (d / Nat.pow 10 places) ++ "." ++ String.ofList (zeros ++ fraction)

/-- A float in decimal: the shortest text without an exponent that reads back. -/
def showFloat (f : Float) : String :=
  if f.isNaN then "nan"
  else
    let bits := f.toBits.toNat
    let sign := if bits / Nat.pow 2 63 = 1 then "-" else ""
    let size := bits % Nat.pow 2 63
    if size = 0 then sign ++ "0.0"
    else if size = 0x7FF0000000000000 then sign ++ "inf"
    else
      let (m, q) := significand size
      let (d, k) := shortest m q
      sign ++ positional d k

/-- The float nearest to `m * 10 ^ e`. -/
def nearestFloat (m : Nat) (e : Int) : Float :=
  let width : Int := (toString m).length
  if m = 0 then 0
  else if 400 < e + width then 1 / 0
  else if e + width < -400 then 0
  else if 0 ≤ e then Float.ofScientific (m * Nat.pow 10 e.toNat) false 0
  else Float.ofScientific m true (-e).toNat

end Fettle.Decimal
