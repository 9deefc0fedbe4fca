import Fettle.Config.Toml.Item
import Fettle.Config.Toml.Moments
import Fettle.Config.Toml.Numbers
import Fettle.Config.Toml.Strings

/-!
# TOML documents

`Toml.parse?` reads a document: lines that are empty, set a key to a value, or are the header
of a table or of one more table of an array.  Arrays may run over several lines and may end
with a comma, tables between braces may not.  Dotted keys and values are nested at most
`nestingLimit` deep.
-/

namespace Fettle.Toml

/-- The number of levels at which arrays, tables between braces and dotted keys are
refused. -/
def nestingLimit : Nat := 80

/-- The characters of keys without quotes. -/
def isBareChar (c : Char) : Bool :=
  c.isAlphanum || c == '-' || c == '_'

/-- One part of a key, with or without quotes. -/
def simpleKey : Reader String
  | [] => none
  | c :: s =>
    if c = '"' ∨ c = '\'' then shortString (c :: s)
    else if isBareChar c then
      some (String.ofList (c :: s.takeWhile isBareChar), s.dropWhile isBareChar)
    else none

/-- A key of at most a number of parts with dots between them; spaces may stand around each
part. -/
def keyParts : Nat → Reader (List String)
  | 0, _ => none
  | n + 1, s => do
    let (part, rest) ← simpleKey (dropSpaces s)
    match dropSpaces rest with
    | '.' :: rest =>
      let (parts, rest) ← keyParts n rest
      return (part :: parts, rest)
    | rest => return ([part], rest)

/-- A key: the path to its last part, and the last part. -/
def key : Reader (List String × String) := fun s => do
  let (parts, rest) ← keyParts (nestingLimit - 1) s
  let last ← parts.getLast?
  return ((parts.dropLast, last), rest)

mutual

/-- A value inside `depth` others.  The first number bounds the steps of reading. -/
def value : Nat → Nat → Reader Value
  | 0, _, _ => none
  | _, _, [] => none
  | n + 1, depth, c :: s =>
    if c = '"' ∨ c = '\'' then (string (c :: s)).map fun r => (.string r.1, r.2)
    else if c = '[' then
      if depth + 1 < nestingLimit then
        (arrayItems n (depth + 1) (dropGap false s)).map fun r => (.array r.1, r.2)
      else none
    else if c = '{' then
      if depth + 1 < nestingLimit then
        match dropSpaces s with
        | '}' :: rest => some (.table [], rest)
        | _ =>
          (inlinePairs n (depth + 1) [] s).map fun r =>
            (.table (Table.ofList (entryValues r.1)), r.2)
      else none
    else
      match c :: s with
      | 't' :: 'r' :: 'u' :: 'e' :: rest => some (.boolean true, rest)
      | 'f' :: 'a' :: 'l' :: 's' :: 'e' :: rest => some (.boolean false, rest)
      | s =>
        match datetime s with
        | some (d, rest) => some (.datetime d, rest)
        | none => number s

/-- The items of an array up to its closing bracket, before which a comma may stand. -/
def arrayItems : Nat → Nat → Reader (List Value)
  | 0, _, _ => none
  | _, _, [] => none
  | n + 1, depth, c :: s =>
    if c = ']' then some ([], s)
    else do
      let (v, rest) ← value n depth (c :: s)
      match dropGap false rest with
      | ',' :: rest =>
        let (vs, rest) ← arrayItems n depth (dropGap false rest)
        return (v :: vs, rest)
      | ']' :: rest => return ([v], rest)
      | _ => none

/-- The entries of a table between braces, up to its closing brace, with those before
them. -/
def inlinePairs : Nat → Nat → Entries → Reader Entries
  | 0, _, _, _ => none
  | n + 1, depth, es, s => do
    let ((path, last), rest) ← key s
    let rest ← after? '=' rest
    let (v, rest) ← value n depth (dropSpaces rest)
    let es ← setDotted path last v es
    match dropSpaces rest with
    | ',' :: rest => inlinePairs n depth es rest
    | '}' :: rest => return (es, rest)
    | _ => none

end

/-- The entries of a document that has been read so far, and the header it is under. -/
structure Progress where
  entries : Entries
  header : List String

/-- The progress after a header between single brackets. -/
def tableLine (p : Progress) : Reader Progress := fun s => do
  let ((path, last), rest) ← key s
  let rest ← after? ']' rest
  let rest ← lineTail? rest
  let es ← openTable path last p.entries
  return (⟨es, path ++ [last]⟩, rest)

/-- The progress after a header between double brackets. -/
def arrayTableLine (p : Progress) : Reader Progress := fun s => do
  let ((path, last), rest) ← key s
  let rest ← after? ']' rest
  let rest ← after? ']' rest
  let rest ← lineTail? rest
  let es ← openArrayTable path last p.entries
  return (⟨es, path ++ [last]⟩, rest)

/-- The progress after a line that sets a key. -/
def pairLine (p : Progress) : Reader Progress := fun s => do
  let ((path, last), rest) ← key s
  let rest ← after? '=' rest
  let (v, rest) ← value (2 * s.length + 2) 0 (dropSpaces rest)
  let rest ← lineTail? rest
  let es ← setUnder p.header path last v p.entries
  return (⟨es, p.header⟩, rest)

/-- The progress after one line that is not empty. -/
def line (p : Progress) : Reader Progress
  | [] => none
  | '#' :: s => (lineEnd? (dropComment ('#' :: s))).map fun rest => (p, rest)
  | '\n' :: s => some (p, s)
  | '\r' :: '\n' :: s => some (p, s)
  | '[' :: '[' :: s => arrayTableLine p s
  | '[' :: s => tableLine p s
  | s => pairLine p s

/-- The entries of a document, of which at most a number of lines is read. -/
def documentLines : Nat → Progress → List Char → Option Entries
  | n, p, s =>
    match dropSpaces s with
    | [] => some p.entries
    | c :: rest =>
      match n with
      | 0 => none
      | n + 1 =>
        match line p (c :: rest) with
        | none => none
        | some (p, rest) => documentLines n p rest

/-- The table that a document stands for. -/
def parse? (text : String) : Option Table :=
  let s := match text.toList with
    | '\uFEFF' :: s => s
    | s => s
  (documentLines (s.length + 1) ⟨[], []⟩ s).map fun es => Table.ofList (entryValues es)

end Fettle.Toml
