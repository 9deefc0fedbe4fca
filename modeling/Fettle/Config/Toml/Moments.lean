import Fettle.Config.Toml.Gap
import Fettle.Config.Value

/-!
# Dates and times of TOML

A date is written as year, month and day, a time as hour, minute and second with an optional
fraction, of which nine digits count.  A date and a time are joined by a `T` or a space, and
may have an offset from universal time after them.  Dates that the calendar does not have are
refused.
-/

namespace Fettle.Toml

/-- A given number of decimal digits. -/
def fixedDigits (count : Nat) : Reader Nat := fun s =>
  let ds := s.take count
  if ds.length = count ∧ ds.all Char.isDigit then
    some (Nat.ofDigitChars 10 ds 0, s.drop count)
  else none

/-- Two digits whose value is in a range. -/
def twoDigits (low high : Nat) : Reader Nat := fun s => do
  let (n, rest) ← fixedDigits 2 s
  if low ≤ n ∧ n ≤ high then some (n, rest) else none

/-- The number of days in a month. -/
def daysIn (year month : Nat) : Nat :=
  if month = 2 then
    if year % 4 = 0 ∧ (year % 100 ≠ 0 ∨ year % 400 = 0) then 29 else 28
  else if month = 4 ∨ month = 6 ∨ month = 9 ∨ month = 11 then 30
  else 31

/-- A date. -/
def date : Reader Date := fun s => do
  let (year, s) ← fixedDigits 4 s
  let s ← after? '-' s
  let (month, s) ← twoDigits 1 12 s
  let s ← after? '-' s
  let (day, s) ← twoDigits 1 (daysIn year month) s
  return (⟨year, month, day⟩, s)

/-- The nanoseconds written by the digits after a point. -/
def nanoseconds (ds : List Char) : Nat :=
  let kept := ds.take 9
  Nat.ofDigitChars 10 kept 0 * Nat.pow 10 (9 - kept.length)

/-- The fraction of a second at the front of a text, which may be missing. -/
def secondFraction (s : List Char) : Nat × List Char :=
  match s with
  | '.' :: t =>
    match t.takeWhile Char.isDigit with
    | [] => (0, s)
    | ds => (nanoseconds ds, t.dropWhile Char.isDigit)
  | _ => (0, s)

/-- A time. -/
def time : Reader Time := fun s => do
  let (hour, s) ← twoDigits 0 23 s
  let s ← after? ':' s
  let (minute, s) ← twoDigits 0 59 s
  let s ← after? ':' s
  let (second, s) ← twoDigits 0 60 s
  let (nanosecond, s) := secondFraction s
  return (⟨hour, minute, second, nanosecond⟩, s)

/-- An offset of hours and minutes. -/
def clockOffset (negative : Bool) : Reader TimeOffset := fun s => do
  let (hour, s) ← twoDigits 0 23 s
  let s ← after? ':' s
  let (minute, s) ← twoDigits 0 59 s
  let ahead : Int := hour * 60 + minute
  return (.minutes (if negative then -ahead else ahead), s)

/-- An offset from universal time. -/
def timeOffset : Reader TimeOffset
  | [] => none
  | c :: s =>
    if c = 'Z' ∨ c = 'z' then some (.utc, s)
    else if c = '+' then clockOffset false s
    else if c = '-' then clockOffset true s
    else none

/-- The time after a date, with its offset. -/
def timeOfDate : Reader (Time × Option TimeOffset)
  | [] => none
  | c :: s =>
    if c = 'T' ∨ c = 't' ∨ c = ' ' then
      (time s).map fun (t, rest) =>
        match timeOffset rest with
        | some (offset, rest) => ((t, some offset), rest)
        | none => ((t, none), rest)
    else none

/-- A date, a time, or both. -/
def datetime : Reader Datetime := fun s =>
  match date s with
  | some (d, rest) =>
    match timeOfDate rest with
    | some ((t, offset), rest) => some (⟨some d, some t, offset⟩, rest)
    | none => some (⟨some d, none, none⟩, rest)
  | none => (time s).map fun (t, rest) => (⟨none, some t, none⟩, rest)

end Fettle.Toml
