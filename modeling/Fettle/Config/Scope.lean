import Fettle.Config.Value
import Fettle.RuleId
import Fettle.Text.Ends

/-!
# Scopes

A `Scope` holds the keys and values that are in effect for one file.  Keys differ only if
they differ in more than the case of ASCII letters, and of two values given for a key the
later one counts.

A rule is switched by its own key, `ktlint_<set>_<rule>`, or by that of its rule set,
`ktlint_<set>`; its own key comes first, and without either the rule is enabled.
-/

namespace Fettle

/-- Why a value of the configuration cannot be used. -/
inductive PropertyFault where
  | invalid (property value expected : String)
  | invalidRuleState (key value : String)
  deriving DecidableEq, Repr

/-- The wording of a property fault. -/
def PropertyFault.message : PropertyFault → String
  | invalid property value expected =>
    "property '" ++ property ++ "' has invalid value '" ++ value ++ "': expected " ++ expected
  | invalidRuleState key value =>
    "'" ++ key ++ "' has invalid value '" ++ value ++ "': expected 'enabled' or 'disabled'"

/-- The configuration of one file: keys in lower case and their values, the latest first. -/
structure Scope where
  entries : List (String × Value)
  deriving Inhabited

namespace Scope

/-- The scope without any key. -/
def empty : Scope := ⟨[]⟩

/-- A scope with a key set to a value. -/
def insert (s : Scope) (key : String) (value : Value) : Scope :=
  ⟨(Text.asciiLower key, value) :: s.entries⟩

/-- The value of a key. -/
def get? (s : Scope) (key : String) : Option Value :=
  s.entries.lookup (Text.asciiLower key)

/-- A scope with all entries of a table set, in order. -/
def merge (s : Scope) (t : Table) : Scope :=
  t.foldl (fun s e => s.insert e.1 e.2) s

/-- The scope of a list of entries. -/
def ofList (entries : List (String × Value)) : Scope :=
  empty.merge entries

@[simp]
theorem get?_empty (key : String) :
  empty.get? key = none
  := rfl

theorem get?_insert (s : Scope) (key key' : String) (value : Value) :
  (s.insert key value).get? key'
    = if Text.asciiLower key' = Text.asciiLower key then some value else s.get? key'
  := by
  rw [get?, insert, List.lookup_cons]
  split
  · rename_i h
    rw [beq_iff_eq] at h
    simp [h]
  · rename_i h
    simp only [beq_eq_false_iff_ne, ne_eq] at h
    simp [h, get?]

/-- Whether a rule state means that the rule is enabled. -/
def readState (key : String) : Value → Except PropertyFault Bool
  | .boolean b => .ok b
  | .string s =>
    if Text.sameIgnoringCase s "enabled" then .ok true
    else if Text.sameIgnoringCase s "disabled" then .ok false
    else .error (.invalidRuleState key s)
  | v => .error (.invalidRuleState key v.plain)

/-- The key that switches a rule set. -/
def setKey (id : RuleId) : String :=
  "ktlint_" ++ id.ruleSet

/-- The key that switches a rule. -/
def ruleKey (id : RuleId) : String :=
  "ktlint_" ++ id.ruleSet ++ "_" ++ id.name

/-- Whether a rule is enabled. -/
def isEnabled (s : Scope) (id : RuleId) : Except PropertyFault Bool :=
  match s.get? (ruleKey id) with
  | some v => readState (ruleKey id) v
  | none =>
    match s.get? (setKey id) with
    | some v => readState (setKey id) v
    | none => .ok true

end Scope

end Fettle
