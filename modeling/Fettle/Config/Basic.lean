import Fettle.Config.Glob
import Fettle.Config.Scope
import Fettle.Config.Toml.Document

/-!
# Configurations

A `Config` is what a configuration file says: limits on fixing, properties of all files, and
properties of the files that certain patterns describe.  `Config.parse` reads it from TOML;
what is not known in it is passed over.  `Config.scopeFor` is the scope of a file, in which
later properties come before earlier ones.

A record of the configuration may be written as an array of its fields, and a date stands for
a table with the one key `datetimeKey`.
-/

namespace Fettle

/-- Properties of the files whose paths are described by one of some patterns. -/
structure Override where
  files : List String
  properties : Table

/-- What a configuration file says. -/
structure Config where
  maxPasses : Nat
  timeout : Option Nat
  properties : Table
  overrides : List Override

/-- Why a text is no configuration. -/
inductive ConfigFault where
  | malformed
  | pattern (text : String) (fault : PatternFault)
  deriving DecidableEq, Repr

/-- The wording of a configuration fault. -/
def ConfigFault.message : ConfigFault → String
  | malformed => "Failed to parse config"
  | pattern text fault => "Invalid glob pattern '" ++ text ++ "': " ++ fault.message

namespace Override

/-- Whether properties are for the file of a path, for a relation between patterns and the paths
that they cover. -/
def appliesBy (covers : String → String → Bool) (o : Override) (path : String) : Bool :=
  o.files.any fun pattern => covers pattern path

/-- Whether properties are for the file of a path. -/
def appliesTo (o : Override) (path : String) : Bool :=
  o.appliesBy globCovers path

end Override

namespace Config

/-! ### Reading -/

/-- The key under which a date is kept where a table is asked for. -/
def datetimeKey : String := "$__toml_private_datetime"

/-- The entries of a table, or those of a date as a table. -/
def entries? : Value → Option Table
  | .table es => some es
  | .datetime d => some [(datetimeKey, .string d.render)]
  | _ => none

/-- The members of a record with the given fields. -/
def members? (fields : List String) : Value → Option Table
  | .array items => some (fields.zip items)
  | v => entries? v

/-- The count that a value is. -/
def count? : Value → Option Nat
  | .integer i => if 0 ≤ i then some i.toNatClampNeg else none
  | _ => none

/-- The text that a value is. -/
def text? : Value → Option String
  | .string s => some s
  | _ => none

/-- The items of an array, each read. -/
def list? {α : Type} (read : Value → Option α) : Value → Option (List α)
  | .array items => items.mapM read
  | _ => none

/-- The value of a field, or a default if the field is missing. -/
def field? {α : Type} (read : Value → Option α) (default : α) (members : Table)
    (name : String) : Option α :=
  match members.get? name with
  | none => some default
  | some v => read v

/-- The limits on fixing that a value gives. -/
def limits? (defaultPasses : Nat) (v : Value) : Option (Nat × Option Nat) := do
  let ms ← members? ["max_passes", "timeout_ms"] v
  return (← field? count? defaultPasses ms "max_passes",
    ← field? (fun v => (count? v).map some) none ms "timeout_ms")

/-- The properties for some files that a value gives. -/
def override? (v : Value) : Option Override := do
  let ms ← members? ["files", "properties"] v
  return ⟨← field? (list? text?) [] ms "files", ← field? entries? [] ms "properties"⟩

/-- The configuration that a table gives, with a default for the limit on fix passes. -/
def ofTable? (defaultPasses : Nat) (t : Table) : Option Config := do
  let (maxPasses, timeout) ← field? (limits? defaultPasses) (defaultPasses, none) t "engine"
  return {
    maxPasses := maxPasses
    timeout := timeout
    properties := ← field? entries? [] t "properties"
    overrides := ← field? (list? override?) [] t "overrides" }

/-- The first text that is no pattern, and why. -/
def patternFault? (patterns : List String) : Option ConfigFault :=
  patterns.findSome? fun p =>
    match Pattern.parse p with
    | .ok _ => none
    | .error fault => some (.pattern p fault)

/-- The fix passes that a file gets if nothing else is asked for. -/
def defaultMaxPasses : Nat := 10

/-- A configuration that says nothing. -/
def empty : Config := ⟨defaultMaxPasses, none, [], []⟩

/-- Reading a configuration. -/
def parse (text : String) : Except ConfigFault Config :=
  match (Toml.parse? text).bind (ofTable? defaultMaxPasses) with
  | none => .error .malformed
  | some c =>
    match patternFault? (c.overrides.flatMap Override.files) with
    | some fault => .error fault
    | none => .ok c

/-! ### Scopes -/

/-- The properties of all files. -/
def globalScope (c : Config) : Scope :=
  Scope.empty.merge c.properties

/-- The properties of the file of a path, for a relation between patterns and the paths that they
cover. -/
def scopeBy (covers : String → String → Bool) (c : Config) (path : String) : Scope :=
  (c.overrides.filter (·.appliesBy covers path)).foldl (fun s o => s.merge o.properties)
    c.globalScope

/-- The properties of the file of a path. -/
def scopeFor (c : Config) (path : String) : Scope :=
  c.scopeBy globCovers path

end Config

end Fettle
