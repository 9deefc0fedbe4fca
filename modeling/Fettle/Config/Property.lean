import Fettle.Config.Scope
import Fettle.Text.Blank

/-!
# Properties

A `Property` is a key that rules read, with a type and a default: an integer, some names
standing for fixed integers; a truth value; or one of a list of names.  `Property.parse`
reads a value of the configuration.  A value may also be given as a string, whose blanks at
the ends and whose case do not matter.
-/

namespace Fettle

/-- The type of a property. -/
inductive PropertyType where
  | int (sentinels : List (String × Int64))
  | bool
  | enum (members : List String)
  deriving DecidableEq, Repr

/-- The value of a property. -/
inductive PropertyValue where
  | int (i : Int64)
  | bool (b : Bool)
  | enum (s : String)
  deriving DecidableEq, Repr

/-- The text of a property value. -/
def PropertyValue.render : PropertyValue → String
  | int i => Decimal.showInt64 i
  | bool b => if b then "true" else "false"
  | enum s => s

/-- A key that rules read. -/
structure Property where
  name : String
  type : PropertyType
  default : PropertyValue
  deriving DecidableEq, Repr

namespace PropertyType

/-- The values that a type takes, in words. -/
def expected : PropertyType → String
  | int [] => "an integer"
  | int sentinels => "an integer or one of " ++ String.intercalate ", " (sentinels.map (·.1))
  | bool => "true or false"
  | enum members => "one of " ++ String.intercalate ", " members

/-- The value that a string stands for, given without blanks at its ends. -/
def readText? (type : PropertyType) (s : List Char) : Option PropertyValue :=
  match type with
  | int sentinels =>
    match Decimal.readInt64? s with
    | some i => some (.int i)
    | none =>
      (sentinels.find? fun e => Text.sameIgnoringCase e.1 (String.ofList s)).map fun e =>
        .int e.2
  | bool =>
    if Text.sameIgnoringCase (String.ofList s) "true" then some (.bool true)
    else if Text.sameIgnoringCase (String.ofList s) "false" then some (.bool false)
    else none
  | enum members =>
    (members.find? fun m => Text.sameIgnoringCase m (String.ofList s)).map .enum

/-- The value of a type that a configuration value stands for. -/
def read? (type : PropertyType) (raw : Value) : Option PropertyValue :=
  match raw, type with
  | .string s, _ => type.readText? (Text.trim s.toList)
  | .integer i, int _ => some (.int i)
  | .boolean b, bool => some (.bool b)
  | _, _ => none

end PropertyType

namespace Property

/-- Reading a configuration value for a property. -/
def parse (p : Property) (raw : Value) : Except PropertyFault PropertyValue :=
  match p.type.read? raw with
  | some v => .ok v
  | none => .error (.invalid p.name raw.plain p.type.expected)

/-- The value of a property in a scope: its default if the scope does not set it. -/
def resolve (p : Property) (s : Scope) : Except PropertyFault PropertyValue :=
  match s.get? p.name with
  | some raw => p.parse raw
  | none => .ok p.default

/-- The columns of one level of indentation. -/
def indentSize : Property where
  name := "indent_size"
  type := .int [("unset", 4)]
  default := .int 4

/-- Whether indentation is made of spaces or tabs. -/
def indentStyle : Property where
  name := "indent_style"
  type := .enum ["space", "tab"]
  default := .enum "space"

/-- The longest line allowed. -/
def maxLineLength : Property where
  name := "max_line_length"
  type := .int [("off", Int64.maxValue), ("unset", Int64.maxValue)]
  default := .int 140

/-- The style of code that rules follow. -/
def codeStyle : Property where
  name := "ktlint_code_style"
  type := .enum ["ktlint_official", "intellij_idea", "android_studio"]
  default := .enum "ktlint_official"

/-- Whether a file ends with a line feed. -/
def insertFinalNewline : Property where
  name := "insert_final_newline"
  type := .bool
  default := .bool true

/-- The properties that are not particular to one rule. -/
def builtin : List Property :=
  [indentSize, indentStyle, maxLineLength, codeStyle, insertFinalNewline]

end Property

end Fettle
