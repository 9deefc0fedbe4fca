/-!
# Rule ids

A rule is named by a *rule set* and a *rule name*, both words in lower case joined by
single hyphens, with a colon between them.  `RuleId.parse` reads such a name; a rule name
alone belongs to the rule set `standard`.  Ids are ordered by their text.
-/

namespace Fettle

/-- Whether a text can follow a lower-case letter inside a name: more letters, and hyphens
each between two letters. -/
def isNameTail : List Char → Bool
  | [] => true
  | '-' :: c :: s => c.isLower && isNameTail s
  | c :: s => c.isLower && isNameTail s

/-- Whether a text is one or more words of lower-case letters, joined by single hyphens. -/
def isName : List Char → Bool
  | [] => false
  | c :: s => c.isLower && isNameTail s

/-- Why a text names no rule or no rule set. -/
inductive NamingFault where
  | ruleId (id : String)
  | ruleSetId (id : String)
  deriving DecidableEq, Repr

/-- The wording of a naming fault. -/
def NamingFault.message : NamingFault → String
  | ruleId id => "Rule id '" ++ id ++ "' must match '([a-z]+(-[a-z]+)*:)?([a-z]+(-[a-z]+)*)'"
  | ruleSetId id => "RuleSet id '" ++ id ++ "' must match '([a-z]+(-[a-z]+)*)'"

/-- The full name of a rule, with its rule set. -/
structure RuleId where
  text : String
  deriving DecidableEq, Repr

namespace RuleId

instance : LE RuleId := ⟨fun a b => a.text ≤ b.text⟩

instance (a b : RuleId) : Decidable (a ≤ b) :=
  inferInstanceAs (Decidable (a.text ≤ b.text))

instance : LT RuleId := ⟨fun a b => a.text < b.text⟩

instance (a b : RuleId) : Decidable (a < b) :=
  inferInstanceAs (Decidable (a.text < b.text))

/-- The rule set of a rule named without one. -/
def defaultSet : String := "standard"

/-- Reading the name of a rule, with or without its rule set. -/
def parse (s : String) : Except NamingFault RuleId :=
  match s.toList.dropWhile (· ≠ ':') with
  | [] => if isName s.toList then .ok ⟨defaultSet ++ ":" ++ s⟩ else .error (.ruleId s)
  | _ :: name =>
    if isName (s.toList.takeWhile (· ≠ ':')) && isName name then .ok ⟨s⟩
    else .error (.ruleId s)

/-- The part of an id before its colon. -/
def ruleSet (id : RuleId) : String :=
  match id.text.toList.dropWhile (· ≠ ':') with
  | [] => defaultSet
  | _ :: _ => String.ofList (id.text.toList.takeWhile (· ≠ ':'))

/-- The part of an id after its colon. -/
def name (id : RuleId) : String :=
  match id.text.toList.dropWhile (· ≠ ':') with
  | [] => id.text
  | _ :: name => String.ofList name

end RuleId

/-- What is wrong with the name of a rule set. -/
def ruleSetFault? (id : String) : Option NamingFault :=
  if isName id.toList then none else some (.ruleSetId id)

/-! ### Sets of ids -/

/-- A list of ids in ascending order with one more in its place. -/
def insertId (a : RuleId) : List RuleId → List RuleId
  | [] => [a]
  | b :: ids => if a < b then a :: b :: ids else if a = b then b :: ids else b :: insertId a ids

/-- The ids of a list in ascending order, each once. -/
def sortedIds (ids : List RuleId) : List RuleId :=
  ids.foldr insertId []

theorem mem_insertId {a c : RuleId} {ids : List RuleId} :
  c ∈ insertId a ids ↔ c = a ∨ c ∈ ids
  := by
  induction ids with
  | nil => simp [insertId]
  | cons b ids ih =>
    rw [insertId]
    split
    · simp
    · split
      · rename_i h
        simp [h]
      · simp only [List.mem_cons, ih]
        constructor
        · rintro (h | h | h) <;> simp [h]
        · rintro (h | h | h) <;> simp [h]

@[simp]
theorem mem_sortedIds {c : RuleId} {ids : List RuleId} :
  c ∈ sortedIds ids ↔ c ∈ ids
  := by
  induction ids with
  | nil => simp [sortedIds]
  | cons a ids ih =>
    change c ∈ insertId a (sortedIds ids) ↔ _
    rw [mem_insertId, ih, List.mem_cons]

end Fettle
