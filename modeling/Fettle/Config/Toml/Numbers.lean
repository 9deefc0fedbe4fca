import Fettle.Config.Toml.Gap
import Fettle.Config.Value
import Fettle.Decimal.Float

/-!
# Numbers of TOML

An integer is written in decimal, with an optional sign and without zeros in front, or with
`0x`, `0o` or `0b` in front in another base; it has to fit into 64 bits.  A float has a
fraction, an exponent or both, or is `inf` or `nan`.  Single underscores may stand between
digits.  A float too large to be finite is refused, unless it is negative.
-/

namespace Fettle.Toml

/-- The digits at the front of a text, without the underscores between them. -/
def digitRun (isDigit : Char → Bool) : List Char → List Char × List Char
  | [] => ([], [])
  | '_' :: d :: s =>
    if isDigit d then
      let (ds, rest) := digitRun isDigit s
      (d :: ds, rest)
    else ([], '_' :: d :: s)
  | d :: s =>
    if isDigit d then
      let (ds, rest) := digitRun isDigit s
      (d :: ds, rest)
    else ([], d :: s)

/-- One or more digits. -/
def digits (isDigit : Char → Bool) : Reader (List Char)
  | [] => none
  | d :: s => if isDigit d then some (digitRun isDigit (d :: s)) else none

/-- The digits before the point: a zero alone, or digits that begin with another one. -/
def wholeDigits : Reader (List Char)
  | '0' :: s => some (['0'], s)
  | s => digits Char.isDigit s

/-- The digits of base eight. -/
def isOctalDigit (c : Char) : Bool :=
  '0' ≤ c && c ≤ '7'

/-- The digits of base two. -/
def isBinaryDigit (c : Char) : Bool :=
  c == '0' || c == '1'

/-- The digits of base sixteen. -/
def isHexDigit (c : Char) : Bool :=
  c.isDigit || ('a' ≤ c && c ≤ 'f') || ('A' ≤ c && c ≤ 'F')

/-- The value of a digit of any base up to sixteen. -/
def digitValue (c : Char) : Nat :=
  if c.isDigit then c.toNat - '0'.toNat else c.toLower.toNat - 'a'.toNat + 10

/-- An integer in a given base. -/
def integerIn (base : Nat) (isDigit : Char → Bool) : Reader Value := fun s => do
  let (ds, rest) ← digits isDigit s
  let i ← Decimal.toInt64? (ds.foldl (fun n d => base * n + digitValue d) 0 : Nat)
  return (.integer i, rest)

/-- The fraction at the front of a text, if there is one. -/
def fraction? : List Char → Option (Option (List Char) × List Char)
  | '.' :: s => (digits Char.isDigit s).map fun r => (some r.1, r.2)
  | s => some (none, s)

/-- The exponent at the front of a text, if there is one. -/
def exponent? : List Char → Option (Option Int × List Char)
  | [] => some (none, [])
  | c :: s =>
    if c = 'e' ∨ c = 'E' then
      let (negative, size) := Decimal.takeSign s
      (digits Char.isDigit size).map fun r =>
        let n : Int := Nat.ofDigitChars 10 r.1 0
        (some (if negative then -n else n), r.2)
    else some (none, c :: s)

/-- A float, unless it is too large. -/
def finite? (f : Float) : Option Value :=
  if f.toBits == (1 / 0 : Float).toBits then none else some (.float f)

/-- A number in decimal without its sign. -/
def decimal (negative : Bool) : Reader Value := fun s => do
  let (whole, rest) ← wholeDigits s
  let (fraction, rest) ← fraction? rest
  let (exponent, rest) ← exponent? rest
  if fraction.isNone && exponent.isNone then
    let n : Int := Nat.ofDigitChars 10 whole 0
    let i ← Decimal.toInt64? (if negative then -n else n)
    return (.integer i, rest)
  else
    let numeral : Decimal.Numeral := ⟨whole, fraction.getD [], exponent.getD 0⟩
    let v ← finite? (numeral.toFloat negative)
    return (v, rest)

/-- An infinite float or one that is not a number, without its sign. -/
def special (negative : Bool) : Reader Value
  | 'i' :: 'n' :: 'f' :: s => some (.float (if negative then -(1 / 0) else 1 / 0), s)
  | 'n' :: 'a' :: 'n' :: s => some (.float (0 / 0), s)
  | _ => none

/-- A number. -/
def number : Reader Value
  | '0' :: 'x' :: s => integerIn 16 isHexDigit s
  | '0' :: 'o' :: s => integerIn 8 isOctalDigit s
  | '0' :: 'b' :: s => integerIn 2 isBinaryDigit s
  | s =>
    let (negative, size) := Decimal.takeSign s
    (special negative size).or (decimal negative size)

end Fettle.Toml
