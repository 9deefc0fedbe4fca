import Fettle.Config.Toml.Gap

/-!
# Strings of TOML

A string stands between double quotes, where a backslash begins an escape, or between single
quotes, where nothing is special.  With triple quotes it may run over several lines; a line
end just after the opening quotes is left out, every line end counts as a line feed, and one
or two quotes may stand anywhere, also just before the closing ones.  Between triple double
quotes a backslash at the end of a line leaves out the white space up to the next other
character.
-/

namespace Fettle.Toml

/-- Characters that stand for themselves in strings: the tab and all characters that are not
control characters. -/
def isStringChar (c : Char) : Bool :=
  c == '\t' || (0x20 ≤ c.toNat && c.toNat != 0x7F)

/-- How far an escape has been read: there is none, the backslash, or a number of hexadecimal
digits is still to come and those before it have a value. -/
inductive Escape where
  | none
  | opened
  | hex (left code : Nat)
  deriving DecidableEq, Repr

/-- The escapes of one character. -/
def shortEscape? : Char → Option Char
  | 'b' => some '\u0008'
  | 't' => some '\t'
  | 'n' => some '\n'
  | 'f' => some '\u000C'
  | 'r' => some '\r'
  | '"' => some '"'
  | '\\' => some '\\'
  | _ => none

/-- The value of a hexadecimal digit. -/
def hexDigit? (c : Char) : Option Nat :=
  if c.isDigit then some (c.toNat - '0'.toNat)
  else if 'a' ≤ c ∧ c ≤ 'f' then some (c.toNat - 'a'.toNat + 10)
  else if 'A' ≤ c ∧ c ≤ 'F' then some (c.toNat - 'A'.toNat + 10)
  else none

/-- The character of a code point. -/
def charOf? (code : Nat) : Option Char :=
  if h : code.isValidChar then some (Char.ofNatAux code h) else none

/-- The state after one more character of an escape, or the character that it stands for. -/
def Escape.step : Escape → Char → Option (Char ⊕ Escape)
  | none, _ => Option.none
  | opened, c =>
    if c = 'u' then some (.inr (hex 4 0))
    else if c = 'U' then some (.inr (hex 8 0))
    else (shortEscape? c).map .inl
  | hex left code, c => do
    let d ← hexDigit? c
    if left ≤ 1 then (charOf? (16 * code + d)).map .inl
    else some (.inr (hex (left - 1) (16 * code + d)))

/-- A string read on with one more character in front. -/
def push (c : Char) (r : Option (List Char × List Char)) : Option (List Char × List Char) :=
  r.map fun r => (c :: r.1, r.2)

/-- The rest of a string between double quotes. -/
def basicRest (e : Escape) : Reader (List Char)
  | [] => none
  | c :: s =>
    if e = .none then
      if c = '"' then some ([], s)
      else if c = '\\' then basicRest .opened s
      else if isStringChar c then push c (basicRest .none s)
      else none
    else
      match e.step c with
      | none => none
      | some (.inl d) => push d (basicRest .none s)
      | some (.inr e) => basicRest e s

/-- The rest of a string between single quotes. -/
def literalRest : Reader (List Char)
  | [] => none
  | c :: s =>
    if c = '\'' then some ([], s)
    else if isStringChar c then push c (literalRest s)
    else none

/-- What a run of quotes at the front of a text does to a long string: three close it, and
up to two before them belong to it. -/
def closing? (quote : Char) (s : List Char) : Option (List Char × List Char) :=
  let run := (s.takeWhile (· = quote)).length
  if run < 3 then none
  else
    let inner := min (run - 3) 2
    some (List.replicate inner quote, s.drop (inner + 3))

/-- Where the reading of a long string stands: in text, in white space that is left out, behind
a backslash with spaces after it, or in an escape. -/
inductive Place where
  | text
  | skipping
  | folding
  | escape (e : Escape)
  deriving DecidableEq, Repr

/-- The rest of a string between triple double quotes. -/
def longBasicRest (p : Place) : Reader (List Char)
  | [] => none
  | '\r' :: '\n' :: s =>
    match p with
    | .text => push '\n' (longBasicRest .text s)
    | .skipping | .folding | .escape .opened => longBasicRest .skipping s
    | .escape _ => none
  | c :: s =>
    match p with
    | .folding =>
      if c = '\n' then longBasicRest .skipping s
      else if isSpace c then longBasicRest .folding s
      else none
    | .escape e =>
      if e = .opened ∧ c = '\n' then longBasicRest .skipping s
      else if e = .opened ∧ isSpace c then longBasicRest .folding s
      else
        match e.step c with
        | none => none
        | some (.inl d) => push d (longBasicRest .text s)
        | some (.inr e) => longBasicRest (.escape e) s
    | p =>
      if p = .skipping ∧ (isSpace c ∨ c = '\n') then longBasicRest .skipping s
      else if c = '"' then
        match closing? '"' (c :: s) with
        | some r => some r
        | none => push c (longBasicRest .text s)
      else if c = '\\' then longBasicRest (.escape .opened) s
      else if isStringChar c ∨ c = '\n' then push c (longBasicRest .text s)
      else none

/-- The rest of a string between triple single quotes. -/
def longLiteralRest : Reader (List Char)
  | [] => none
  | '\r' :: '\n' :: s => push '\n' (longLiteralRest s)
  | c :: s =>
    if c = '\'' then
      match closing? '\'' (c :: s) with
      | some r => some r
      | none => push c (longLiteralRest s)
    else if isStringChar c ∨ c = '\n' then push c (longLiteralRest s)
    else none

/-- A text without the line end at its front, if there is one. -/
def dropLineEnd : List Char → List Char
  | '\n' :: s => s
  | '\r' :: '\n' :: s => s
  | s => s

/-- A string on one line. -/
def shortString : Reader String
  | '"' :: s => (basicRest .none s).map fun r => (String.ofList r.1, r.2)
  | '\'' :: s => (literalRest s).map fun r => (String.ofList r.1, r.2)
  | _ => none

/-- A string. -/
def string : Reader String
  | '"' :: '"' :: '"' :: s =>
    (longBasicRest .text (dropLineEnd s)).map fun r => (String.ofList r.1, r.2)
  | '\'' :: '\'' :: '\'' :: s =>
    (longLiteralRest (dropLineEnd s)).map fun r => (String.ofList r.1, r.2)
  | s => shortString s

end Fettle.Toml
