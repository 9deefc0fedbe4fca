import Fettle.Config.Value

/-!
# Tables of a TOML document

A table of a document is filled by headers and by dotted keys.  `Origin` records what made a
table, since that decides what may be added to it: a table is defined by at most one header,
dotted keys only add to tables that dotted keys made, and headers do not define those.
`atPath` changes the table at a path and makes the tables on the way there.
-/

namespace Fettle.Toml

/-- What made a table: its own header or the header of an array, a header of a table inside
it, or a dotted key. -/
inductive Origin where
  | header
  | implied
  | dotted
  deriving DecidableEq, Repr

/-- What a key of a table holds: a value, a table, or an array of tables, of which the latest
comes first. -/
inductive Item where
  | value (v : Value)
  | table (origin : Origin) (entries : List (String × Item))
  | tables (latestFirst : List (List (String × Item)))
  deriving Inhabited

/-- The entries of a table of a document. -/
abbrev Entries := List (String × Item)

/-- Entries with another item for a key; a new key comes last. -/
def Entries.set (key : String) (item : Item) : Entries → Entries
  | [] => [(key, item)]
  | (k, i) :: es => if k = key then (key, item) :: es else (k, i) :: Entries.set key item es

/-- The entries of a table with the table at a path changed by `f`, which is given the origin
and the entries of that table.  Tables that are missing on the path are made with the origin
`made`. -/
def atPath (made : Origin) (f : Origin → Entries → Option Entries) :
    List String → Origin → Entries → Option Entries
  | [], origin, es => f origin es
  | k :: path, _, es =>
    match es.lookup k with
    | none => (atPath made f path made []).map fun sub => es.set k (.table made sub)
    | some (.value _) => none
    | some (.table origin sub) =>
      if made = .dotted ∧ origin = .header then none
      else (atPath made f path origin sub).map fun sub => es.set k (.table origin sub)
    | some (.tables []) => none
    | some (.tables (latest :: earlier)) =>
      (atPath made f path .header latest).map fun sub =>
        es.set k (.tables (sub :: earlier))

/-- The entries of a table with a dotted key, given as the path to its last part, set to a
value. -/
def setDotted (path : List String) (key : String) (v : Value) (es : Entries) :
    Option Entries :=
  atPath .dotted
    (fun origin es =>
      if path ≠ [] ∧ origin ≠ .dotted then none
      else
        match es.lookup key with
        | none => some (es.set key (.value v))
        | some _ => none)
    path .header es

/-- The entries of a document with a value set in the table of a header. -/
def setUnder (header path : List String) (key : String) (v : Value) (es : Entries) :
    Option Entries :=
  atPath .implied (fun _ es => setDotted path key v es) header .header es

/-- The entries of a document with the table of a header, given as the path to its last
part. -/
def openTable (path : List String) (key : String) (es : Entries) : Option Entries :=
  atPath .implied
    (fun _ es =>
      match es.lookup key with
      | none => some (es.set key (.table .header []))
      | some (.table .implied sub) => some (es.set key (.table .header sub))
      | some _ => none)
    path .header es

/-- The entries of a document with one more table in the array of a header. -/
def openArrayTable (path : List String) (key : String) (es : Entries) : Option Entries :=
  atPath .implied
    (fun _ es =>
      match es.lookup key with
      | none => some (es.set key (.tables [[]]))
      | some (.tables earlier) => some (es.set key (.tables ([] :: earlier)))
      | some _ => none)
    path .header es

mutual

/-- An item as a value. -/
def Item.toValue : Item → Value
  | .value v => v
  | .table _ es => .table (Table.ofList (entryValues es))
  | .tables ts => .array (tableValues ts).reverse

/-- Entries as keys and values. -/
def entryValues : List (String × Item) → List (String × Value)
  | [] => []
  | (k, i) :: es => (k, i.toValue) :: entryValues es

/-- Tables as values. -/
def tableValues : List (List (String × Item)) → List Value
  | [] => []
  | es :: ts => .table (Table.ofList (entryValues es)) :: tableValues ts

end

end Fettle.Toml
