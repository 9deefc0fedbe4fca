/-!
# Integers in decimal

`readNat?` reads a run of decimal digits and `readInt64?` a signed number of 64 bits: an
optional sign and digits, nothing else, whose value is in range.
-/

namespace Fettle.Decimal

/-- The number written by a non-empty run of decimal digits. -/
def readNat? (s : List Char) : Option Nat :=
  if s ≠ [] ∧ s.all Char.isDigit then some (Nat.ofDigitChars 10 s 0) else none

/-- The number written by an optional sign and decimal digits. -/
def readInt? : List Char → Option Int
  | '-' :: s => (readNat? s).map fun n => -(n : Int)
  | '+' :: s => (readNat? s).map fun n => (n : Int)
  | s => (readNat? s).map fun n => (n : Int)

/-- An integer as a number of 64 bits, if it is one. -/
def toInt64? (i : Int) : Option Int64 :=
  if Int64.minValue.toInt ≤ i ∧ i ≤ Int64.maxValue.toInt then some (Int64.ofInt i) else none

/-- The signed 64-bit number written by an optional sign and decimal digits. -/
def readInt64? (s : List Char) : Option Int64 :=
  (readInt? s).bind toInt64?

/-- A signed 64-bit number in decimal. -/
def showInt64 (i : Int64) : String :=
  toString i.toInt

theorem readNat?_toString (n : Nat) :
  readNat? (toString n).toList = some n
  := by
  rw [readNat?, Nat.toString_eq_ofList_toDigits, String.toList_ofList]
  rw [if_pos]
  · rw [Nat.ofDigitChars_ten_toDigits]
  · constructor
    · exact Nat.toDigits_ne_nil
    · rw [List.all_eq_true]
      intro c hc
      exact Nat.isDigit_of_mem_toDigits (by omega) (by omega) hc

example : readInt64? "-9223372036854775808".toList = some Int64.minValue := by decide

example : readInt64? "9223372036854775808".toList = none := by decide

end Fettle.Decimal
