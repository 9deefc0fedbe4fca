/-!
# Lines

`lines s` cuts a list of characters at its line feeds, so it has one entry more than
`s` has line feeds, and `unlines` puts the line feeds back.  A carriage return before a
line feed belongs to the line break: `splitReturn` takes it off the end of a line that a
line feed follows.
-/

namespace Fettle.Text

/-- The parts of a text between its line feeds. -/
def lines : List Char → List (List Char)
  | [] => [[]]
  | c :: s =>
    if c = '\n' then [] :: lines s
    else match lines s with
      | [] => [[c]]
      | l :: ls => (c :: l) :: ls

/-- The text whose lines are given, with a line feed between any two. -/
def unlines : List (List Char) → List Char
  | [] => []
  | [l] => l
  | l :: m :: ls => l ++ '\n' :: unlines (m :: ls)

theorem lines_ne_nil (s : List Char) :
  lines s ≠ []
  := by
  cases s with
  | nil => simp [lines]
  | cons c s =>
    rw [lines]
    split
    · simp
    · split <;> simp

@[simp]
theorem unlines_lines (s : List Char) :
  unlines (lines s) = s
  := by
  induction s with
  | nil => rfl
  | cons c s ih =>
    rw [lines]
    cases h : lines s with
    | nil => exact absurd h (lines_ne_nil s)
    | cons l ls =>
      rw [h] at ih
      split
      · rename_i hc
        rw [unlines, ih, hc, List.nil_append]
      · cases ls with
        | nil => simpa [unlines] using ih
        | cons m ls => simpa [unlines] using ih

/-- The number of lines is one more than the number of line feeds. -/
theorem length_lines (s : List Char) :
  (lines s).length = s.count '\n' + 1
  := by
  induction s with
  | nil => rfl
  | cons c s ih =>
    rw [lines]
    cases h : lines s with
    | nil => exact absurd h (lines_ne_nil s)
    | cons l ls =>
      rw [h] at ih
      split
      · rename_i hc
        simp [hc, ← ih]
      · rename_i hc
        simpa [hc] using ih

/-- A line without its final carriage return, if it has one. -/
def dropReturn (line : List Char) : Option (List Char) :=
  if line.getLast? = some '\r' then some line.dropLast else none

/-- The body and the line break of a line that a line feed follows, the line feed
excluded; a line that none follows has no break. -/
def splitReturn (line : List Char) (beforeFeed : Bool) : List Char × List Char :=
  match dropReturn line with
  | some body => if beforeFeed then (body, ['\r']) else (line, [])
  | none => (line, [])

theorem splitReturn_append (line : List Char) (beforeFeed : Bool) :
  (splitReturn line beforeFeed).1 ++ (splitReturn line beforeFeed).2 = line
  := by
  rw [splitReturn, dropReturn]
  split
  · rename_i body h
    split at h
    · rename_i hlast
      obtain ⟨ys, rfl⟩ := List.getLast?_eq_some_iff.mp hlast
      obtain rfl := Option.some.inj h
      split
      · simp
      · exact List.append_nil _
    · cases h
  · exact List.append_nil line

end Fettle.Text
