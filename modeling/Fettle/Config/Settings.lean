import Fettle.Config.Property

/-!
# Settings

The `Settings` of a rule are the values of the properties it declares, by name; their
`Fingerprint` tells whether two files look the same to the rule.  A `Resolver` finds them in a
scope; it reads each name once and remembers the outcome, so a name has one value in a file, that
of the first property asked for under it.
-/

namespace Fettle

/-- What identifies the values that a rule has read: files with equal fingerprints look the same to
the rule. -/
structure Fingerprint where
  values : List (String × PropertyValue)
  deriving DecidableEq, Repr

/-- The values of declared properties, in ascending order of names, each name once. -/
structure Settings where
  values : List (String × PropertyValue)
  deriving DecidableEq, Repr

namespace Settings

/-- A list of values in ascending order of names with one more in its place; it takes the
place of a value of the same name. -/
def insertValue (s : String × PropertyValue) :
    List (String × PropertyValue) → List (String × PropertyValue)
  | [] => [s]
  | t :: rest =>
    if s.1 < t.1 then s :: t :: rest
    else if s.1 = t.1 then s :: rest
    else t :: insertValue s rest

/-- The settings with the given values; of two with the same name the earlier one counts. -/
def ofList (values : List (String × PropertyValue)) : Settings :=
  ⟨values.foldr insertValue []⟩

/-- The value of a property; its default if it is not among the settings. -/
def get (s : Settings) (p : Property) : PropertyValue :=
  (s.values.lookup p.name).getD p.default

/-- The value of an integer property. -/
def int (s : Settings) (p : Property) : Int64 :=
  match s.get p with
  | .int i => i
  | _ => 0

/-- The value of a truth-valued property. -/
def bool (s : Settings) (p : Property) : Bool :=
  s.get p == .bool true

/-- The value of a property that is one of a list of names. -/
def enum (s : Settings) (p : Property) : String :=
  match s.get p with
  | .enum m => m
  | _ => ""

/-- The number of spaces in one level of indentation; a negative size counts as four. -/
def indentWidth (s : Settings) : Nat :=
  let size := (s.int .indentSize).toInt
  if size < 0 then 4 else size.toNat

/-- One level of indentation. -/
def indentUnit (s : Settings) : String :=
  if s.enum .indentStyle = "tab" then "\t"
  else String.ofList (List.replicate s.indentWidth ' ')

/-- The fingerprint of the values. -/
def fingerprint (s : Settings) : Fingerprint :=
  ⟨s.values⟩

end Settings

/-- A scope and what has been read in it. -/
structure Resolver where
  scope : Scope
  known : List (String × Except PropertyFault PropertyValue)

namespace Resolver

/-- A resolver that has read nothing. -/
def ofScope (s : Scope) : Resolver := ⟨s, []⟩

/-- The value of one property. -/
def value (r : Resolver) (p : Property) : Except PropertyFault PropertyValue × Resolver :=
  match r.known.lookup p.name with
  | some v => (v, r)
  | none =>
    let v := p.resolve r.scope
    (v, { r with known := (p.name, v) :: r.known })

/-- The values of properties in the order given, up to the first that cannot be used. -/
def values (r : Resolver) :
    List Property → Except PropertyFault (List (String × PropertyValue)) × Resolver
  | [] => (.ok [], r)
  | p :: ps =>
    match r.value p with
    | (.error fault, r) => (.error fault, r)
    | (.ok v, r) =>
      match r.values ps with
      | (.error fault, r) => (.error fault, r)
      | (.ok vs, r) => (.ok ((p.name, v) :: vs), r)

/-- The settings of declared properties. -/
def resolve (r : Resolver) (ps : List Property) :
    Except PropertyFault Settings × Resolver :=
  let (vs, r) := r.values ps
  (vs.map Settings.ofList, r)

end Resolver

end Fettle
