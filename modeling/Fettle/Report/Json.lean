/-!
# JSON values

A `Json` is a value of JSON: an object is a list of its members.  A number is kept in decimal,
as `mantissa / 10 ^ places`; it is an integer if it is written without places.  The readers
`nat?`, `text?`, `flag?` and `list?` take a value apart, and `members?` a record, which is
written as an object or as the array of its fields.
-/

namespace Fettle

/-- A value of JSON. -/
inductive Json where
  | null
  | boolean (b : Bool)
  | number (mantissa : Int) (places : Nat)
  | string (s : String)
  | array (items : List Json)
  | object (members : List (String × Json))
  deriving Inhabited

namespace Json

/-- The values that counts have: they fit into 64 bits. -/
def countLimit : Nat := Nat.pow 2 64

/-- A count as a number. -/
def ofNat (n : Nat) : Json :=
  number n 0

/-- The count that a number is. -/
def nat? : Json → Option Nat
  | number m 0 => if 0 ≤ m ∧ m < countLimit then some m.toNat else none
  | _ => none

/-- The text of a string. -/
def text? : Json → Option String
  | string s => some s
  | _ => none

/-- A truth value. -/
def flag? : Json → Option Bool
  | boolean b => some b
  | _ => none

/-- The items of an array, each read. -/
def list? {α : Type} (read : Json → Option α) : Json → Option (List α)
  | array items => items.mapM read
  | _ => none

/-- The members of a record with the given fields: those of an object, or the items of an
array, which are the first fields in order. -/
def members? (fields : List String) : Json → Option (List (String × Json))
  | object members => some members
  | array items => if items.length ≤ fields.length then some (fields.zip items) else none
  | _ => none

/-- The value of a field that must be there. -/
def required {α : Type} (read : Json → Option α) (members : List (String × Json))
    (field : String) : Option α :=
  (members.lookup field).bind read

/-- The value of a field that may be missing or null. -/
def optional {α : Type} (read : Json → Option α) (members : List (String × Json))
    (field : String) : Option (Option α) :=
  match members.lookup field with
  | none | some null => some none
  | some v => (read v).map some

/-- The value of a field that may be missing, and then has a default. -/
def defaulted {α : Type} (read : Json → Option α) (default : α)
    (members : List (String × Json)) (field : String) : Option α :=
  match members.lookup field with
  | none => some default
  | some v => read v

/-- A member for a value that is there, and none otherwise. -/
def memberOf {α : Type} (field : String) (write : α → Json) :
    Option α → List (String × Json)
  | none => []
  | some a => [(field, write a)]

theorem nat?_ofNat {n : Nat} (h : n < countLimit) :
  (ofNat n).nat? = some n
  := by
  rw [ofNat, nat?, if_pos]
  · rfl
  · exact ⟨Int.natCast_nonneg n, by exact_mod_cast h⟩

/-- A list of values written one by one reads back. -/
theorem list?_map {α : Type} {write : α → Json} {read : Json → Option α} {as : List α}
    (h : ∀ a ∈ as, read (write a) = some a) :
  list? read (array (as.map write)) = some as
  := by
  rw [list?]
  induction as with
  | nil => rfl
  | cons a as ih =>
    rw [List.map_cons, List.mapM_cons, h a List.mem_cons_self,
      ih fun b hb => h b (List.mem_cons_of_mem a hb)]
    rfl

end Json

end Fettle
