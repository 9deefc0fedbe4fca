import Fettle.Decimal.Integer
import Fettle.Decimal.Shortest

/-!
# Configuration values

A `Value` is what a key of a TOML document holds.  `Value.render` writes a value on one
line: integers in decimal, floats as the shortest decimal, strings between quotes, arrays
between brackets and tables between braces.  `Value.plain` shows a string as it is and any
other value as `render` does.

A string is written between double quotes if nothing in it has to be escaped, else between
single quotes or between triple quotes if that avoids escapes, else with escapes.
-/

namespace Fettle

/-- A day of the calendar. -/
structure Date where
  year : Nat
  month : Nat
  day : Nat
  deriving DecidableEq, Repr

/-- A time of day. -/
structure Time where
  hour : Nat
  minute : Nat
  second : Nat
  nanosecond : Nat
  deriving DecidableEq, Repr

/-- How far a time is ahead of universal time. -/
inductive TimeOffset where
  | utc
  | minutes (ahead : Int)
  deriving DecidableEq, Repr

/-- A date, a time of day, or both; both may have an offset. -/
structure Datetime where
  date : Option Date
  time : Option Time
  offset : Option TimeOffset
  deriving DecidableEq, Repr

/-- A value of a TOML document. -/
inductive Value where
  | string (s : String)
  | integer (i : Int64)
  | float (f : Float)
  | boolean (b : Bool)
  | datetime (d : Datetime)
  | array (items : List Value)
  | table (entries : List (String × Value))
  deriving Inhabited

/-- The entries of a table. -/
abbrev Table := List (String × Value)

/-- A table with one more entry, which takes the place of an entry of the same key; the keys
stay in ascending order. -/
def Table.insert (key : String) (value : Value) : Table → Table
  | [] => [(key, value)]
  | (k, v) :: rest =>
    if key < k then (key, value) :: (k, v) :: rest
    else if key = k then (key, value) :: rest
    else (k, v) :: Table.insert key value rest

/-- The table of a list of entries, in ascending order of keys; of two entries with the same
key the later one counts. -/
def Table.ofList (entries : List (String × Value)) : Table :=
  entries.foldl (fun t e => Table.insert e.1 e.2 t) []

/-- The value of a key. -/
def Table.get? (t : Table) (key : String) : Option Value :=
  List.lookup key t

/-! ### Dates and times -/

/-- A number in decimal with at least `width` digits. -/
def padded (width n : Nat) : String :=
  let digits := (toString n).toList
  String.ofList (List.replicate (width - digits.length) '0' ++ digits)

/-- A date, as year, month and day. -/
def Date.render (d : Date) : String :=
  padded 4 d.year ++ "-" ++ padded 2 d.month ++ "-" ++ padded 2 d.day

/-- The part of a second after the point, without zeros at the end. -/
def renderFraction (nanosecond : Nat) : String :=
  if nanosecond = 0 then ""
  else "." ++ String.ofList
    (((padded 9 nanosecond).toList.reverse.dropWhile (· = '0')).reverse)

/-- A time, as hour, minute, second and fraction. -/
def Time.render (t : Time) : String :=
  padded 2 t.hour ++ ":" ++ padded 2 t.minute ++ ":" ++ padded 2 t.second
    ++ renderFraction t.nanosecond

/-- An offset, as `Z` or as hours and minutes with a sign. -/
def TimeOffset.render : TimeOffset → String
  | utc => "Z"
  | minutes ahead =>
    (if ahead < 0 then "-" else "+") ++ padded 2 (ahead.natAbs / 60) ++ ":"
      ++ padded 2 (ahead.natAbs % 60)

/-- A date and a time with a `T` between them, and the offset. -/
def Datetime.render (d : Datetime) : String :=
  (d.date.map Date.render).getD ""
    ++ (if d.date.isSome && d.time.isSome then "T" else "")
    ++ (d.time.map Time.render).getD ""
    ++ (d.offset.map TimeOffset.render).getD ""

/-! ### Strings -/

/-- Characters that are only written with an escape. -/
def needsEscape (c : Char) : Bool :=
  (c.toNat ≤ 0x1F && c ≠ '\t' && c ≠ '\n') || c.toNat == 0x7F

/-- The length of the longest run of a character. -/
def longestRun (c : Char) (s : List Char) : Nat :=
  (s.foldl (fun r d => if d = c then (r.1 + 1, max r.2 (r.1 + 1)) else (0, r.2)) (0, 0)).2

/-- The escape of a character inside double quotes; `multiline` tells whether line feeds
stand for themselves. -/
def escapeBasic (multiline : Bool) (c : Char) : List Char :=
  if c = '\u0008' then ['\\', 'b']
  else if c = '\t' then ['\\', 't']
  else if c = '\n' then if multiline then ['\n'] else ['\\', 'n']
  else if c = '\u000C' then ['\\', 'f']
  else if c = '\r' then ['\\', 'r']
  else if c = '\\' then ['\\', '\\']
  else if needsEscape c then
    ['\\', 'u'] ++ List.replicate (4 - (Nat.toDigits 16 c.toNat).length) '0'
      ++ (Nat.toDigits 16 c.toNat).map Char.toUpper
  else [c]

/-- The content of a string between double quotes.  Up to `allowed` double quotes in a row
stand for themselves, of which `run` came just before. -/
def basicContent (multiline : Bool) (allowed run : Nat) : List Char → List Char
  | [] => []
  | c :: s =>
    if c = '"' then
      if run < allowed then c :: basicContent multiline allowed (run + 1) s
      else '\\' :: '"' :: basicContent multiline allowed 0 s
    else escapeBasic multiline c ++ basicContent multiline allowed 0 s

/-- A string between double quotes. -/
def renderBasic (s : List Char) : String :=
  String.ofList ('"' :: basicContent false 0 0 s ++ ['"'])

/-- A string between triple double quotes, on lines of its own if it has line feeds. -/
def renderLongBasic (s : List Char) : String :=
  "\"\"\"" ++ (if s.contains '\n' then "\n" else "")
    ++ String.ofList (basicContent true 2 0 s) ++ "\"\"\""

/-- A string between single quotes. -/
def renderLiteral (s : List Char) : String :=
  "'" ++ String.ofList s ++ "'"

/-- A string between triple single quotes, on lines of its own if it has line feeds. -/
def renderLongLiteral (s : List Char) : String :=
  "'''" ++ (if s.contains '\n' then "\n" else "") ++ String.ofList s ++ "'''"

/-- A string in the first form that avoids escapes, or with escapes. -/
def renderString (s : String) : String :=
  let cs := s.toList
  let special := cs.any needsEscape
  let escape := cs.contains '\\'
  let feed := cs.contains '\n'
  if !special && !escape && longestRun '"' cs = 0 && !feed then renderBasic cs
  else if !special && longestRun '\'' cs = 0 && !feed then renderLiteral cs
  else if !special && !escape && longestRun '"' cs ≤ 2 then renderLongBasic cs
  else if !special && longestRun '\'' cs ≤ 2 then renderLongLiteral cs
  else if feed then renderLongBasic cs
  else renderBasic cs

/-- The characters of keys that need no quotes. -/
def isBareKeyChar (c : Char) : Bool :=
  c.isAlphanum || c == '-' || c == '_'

/-- A key, without quotes if it needs none. -/
def renderKey (s : String) : String :=
  let cs := s.toList
  let special := cs.any fun c => needsEscape c || c == '\n'
  if !cs.isEmpty && cs.all isBareKeyChar then s
  else if !special && !cs.contains '\\' && !cs.contains '"' then renderBasic cs
  else if !special && !cs.contains '\'' then renderLiteral cs
  else renderBasic cs

/-! ### Values -/

namespace Value

mutual

/-- A value on one line. -/
def render : Value → String
  | string s => renderString s
  | integer i => Decimal.showInt64 i
  | float f => Decimal.showFloat f
  | boolean b => if b then "true" else "false"
  | datetime d => d.render
  | array items => "[" ++ String.intercalate ", " (renderItems items) ++ "]"
  | table [] => "\x7b\x7d"
  | table (e :: es) => "\x7b " ++ String.intercalate ", " (renderEntries (e :: es)) ++ " \x7d"

/-- The items of an array, each on one line. -/
def renderItems : List Value → List String
  | [] => []
  | v :: vs => v.render :: renderItems vs

/-- The entries of a table, each on one line. -/
def renderEntries : List (String × Value) → List String
  | [] => []
  | (k, v) :: es => (renderKey k ++ " = " ++ v.render) :: renderEntries es

end

/-- A string as it is, and any other value as it is written. -/
def plain : Value → String
  | string s => s
  | v => v.render

end Value

end Fettle
