/-!
# The ends of a text

`dropLead?` and `dropTail?` take a given text off the front or the end of another, if it is
there.  `asciiLower` is a text with its ASCII capitals in lower case; texts are compared
without regard to case by comparing these.
-/

namespace Fettle.Text

/-- What follows a given text at the front of another. -/
def dropLead? : List Char → List Char → Option (List Char)
  | [], s => some s
  | _ :: _, [] => none
  | c :: lead, d :: s => if c = d then dropLead? lead s else none

/-- What comes before a given text at the end of another. -/
def dropTail? (tail s : List Char) : Option (List Char) :=
  (dropLead? tail.reverse s.reverse).map List.reverse

theorem dropLead?_eq_some_iff {lead s rest : List Char} :
  dropLead? lead s = some rest ↔ s = lead ++ rest
  := by
  induction lead generalizing s with
  | nil => simp [dropLead?]
  | cons c lead ih =>
    cases s with
    | nil => simp [dropLead?]
    | cons d s =>
      rw [dropLead?]
      split
      · rename_i h
        simp [ih, h]
      · rename_i h
        simp [Ne.symm h]

theorem dropTail?_eq_some_iff {tail s rest : List Char} :
  dropTail? tail s = some rest ↔ s = rest ++ tail
  := by
  rw [dropTail?, Option.map_eq_some_iff]
  constructor
  · rintro ⟨r, h, rfl⟩
    rw [dropLead?_eq_some_iff] at h
    rw [← List.reverse_reverse s, h]
    simp
  · rintro rfl
    exact ⟨rest.reverse, by simp [dropLead?_eq_some_iff], by simp⟩

/-- A text with its ASCII capitals in lower case. -/
def asciiLower (s : String) : String :=
  String.ofList (s.toList.map Char.toLower)

/-- Whether two texts are equal up to the case of ASCII letters. -/
def sameIgnoringCase (s t : String) : Bool :=
  asciiLower s == asciiLower t

end Fettle.Text
