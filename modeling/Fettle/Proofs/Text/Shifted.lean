import Fettle.Proofs.Text.Thinned

/-!
# Blanks that move into a comment

Blanks between a comment and the end of its line can be white space or be the end of the comment.
What is reported on trailing blanks and on blank lines is reported in the same places either way:
whatever is reported of the longer comment and of the white space that is left is also reported
where the blanks are white space.
-/

namespace Fettle

namespace Text

theorem splitReturn_false (line : List Char) :
  splitReturn line false = (line, [])
  := by
  rw [splitReturn]
  split <;> rfl

/-- The line break is at the end of a line. -/
theorem splitReturn_append_left (s : List Char) {x : List Char} (hx : x ≠ []) (beforeFeed : Bool) :
  (splitReturn (s ++ x) beforeFeed).1 = s ++ (splitReturn x beforeFeed).1
  := by
  have hdrop : dropReturn (s ++ x) = (dropReturn x).map (s ++ ·) := by
    rw [dropReturn, dropReturn, List.getLast?_append_of_ne_nil _ hx,
      List.dropLast_append_of_ne_nil hx]
    split <;> rfl
  rw [splitReturn, splitReturn, hdrop]
  cases dropReturn x with
  | none => rfl
  | some body => cases beforeFeed <;> rfl

end Text

open Text

namespace NoTrailingSpaces

/-- What is reported of a comment that has taken blanks is reported of the comment or where the
blanks begin. -/
theorem mem_commentMarks_append {s x : List Char} (hfeed : '\n' ∉ s ++ x) (hx : x ≠ [])
    (hblank : ∀ c ∈ x, isBlank c = true) {feed : Bool} {m : Nat}
    (hm : m ∈ commentMarks feed 0 (lines (s ++ x))) :
  m ∈ commentMarks false 0 (lines s) ∨ m = byteLength s ∧ (splitReturn x feed).1 ≠ []
  := by
  have hs : '\n' ∉ s := fun hmem => hfeed (List.mem_append_left _ hmem)
  have htrim : trimEnd (s ++ (splitReturn x feed).1) = trimEnd s := by
    apply trimEnd_append_of_blank
    intro c hc
    apply hblank c
    rw [← splitReturn_append x feed]
    apply List.mem_append_left _ hc
  rw [lines_of_notMem hfeed, commentMarks, List.isEmpty_nil, Bool.not_true, Bool.or_false,
    splitReturn_append_left s hx, htrim] at hm
  rw [lines_of_notMem hs, commentMarks, List.isEmpty_nil, Bool.not_true, Bool.or_false,
    splitReturn_false]
  split at hm
  · rename_i hlonger
    obtain rfl := List.mem_singleton.mp hm
    by_cases hend : (trimEnd s).length < s.length
    · left
      rw [if_pos hend]
      apply List.mem_singleton_self
    · right
      have hkept : trimEnd s = s := by
        obtain ⟨b, hb, -⟩ := exists_trimEnd_append s
        have hlength := congrArg List.length hb
        rw [List.length_append] at hlength
        obtain rfl : b = [] := List.length_eq_zero_iff.mp (by omega)
        rw [List.append_nil] at hb
        exact hb.symm
      constructor
      · rw [hkept, Nat.zero_add]
      · rintro hnil
        rw [hnil, List.append_nil] at hlonger
        exact hend hlonger
  · cases hm

theorem spaceMarks_add (atEnd : Bool) (delta k : Nat) (ls : List (List Char)) :
  spaceMarks atEnd (delta + k) ls = (spaceMarks atEnd delta ls).map (· + k)
  := by
  induction ls generalizing delta with
  | nil => rfl
  | cons l ls ih =>
    cases ls with
    | nil =>
      rw [spaceMarks, spaceMarks]
      split <;> rfl
    | cons m ms =>
      have hrest := ih (delta + byteLength l + 1)
      rw [spaceMarks_cons_cons, spaceMarks_cons_cons]
      have hsum : delta + k + byteLength l + 1 = delta + byteLength l + 1 + k := by omega
      rw [hsum, hrest]
      split <;> rfl

section

variable {x : List Char} (h : '\n' ∉ x) (y : List Char)

include h

/-- What is reported of white space after its first line is still reported when blanks come in
front of it. -/
theorem mem_spaceMarks_append {atEnd : Bool} {m : Nat}
    (hm : m ∈ spaceMarks atEnd 0 (lines ('\n' :: y))) :
  m + byteLength x ∈ spaceMarks atEnd 0 (lines (x ++ '\n' :: y))
  := by
  obtain ⟨l, ls, hls⟩ := List.exists_cons_of_ne_nil (lines_ne_nil y)
  have hsum : 0 + byteLength x + 1 = 0 + byteLength [] + 1 + byteLength x := by
    rw [byteLength_nil]
    omega
  have hfirst : lines ('\n' :: y) = [] :: l :: ls := by
    rw [← hls]
    apply lines_append_feed List.not_mem_nil
  have hblank : (splitReturn [] true).1.isEmpty = true := rfl
  rw [hfirst, spaceMarks_cons_cons, if_pos hblank] at hm
  rw [lines_append_feed h, hls, spaceMarks_cons_cons, hsum, spaceMarks_add]
  have hmem := List.mem_map_of_mem (f := (· + byteLength x)) hm
  split
  · exact hmem
  · apply List.mem_cons_of_mem _ hmem

/-- Blanks in front of a line break are reported where they begin. -/
theorem zero_mem_spaceMarks_append {atEnd : Bool} (hx : (splitReturn x true).1 ≠ []) :
  0 ∈ spaceMarks atEnd 0 (lines (x ++ '\n' :: y))
  := by
  obtain ⟨l, ls, hls⟩ := List.exists_cons_of_ne_nil (lines_ne_nil y)
  rw [lines_append_feed h, hls, spaceMarks_cons_cons, if_neg (by simpa using hx)]
  apply List.mem_cons_self

end

end NoTrailingSpaces

/-- The first two lines are longer by what comes in front of the first line feed. -/
theorem NoConsecutiveBlankLines.firstTwoLines_append {x : List Char} (h : '\n' ∉ x)
    (y : List Char) :
  firstTwoLines (x ++ '\n' :: y) = byteLength x + firstTwoLines ('\n' :: y)
  := by
  obtain ⟨l, ls, hls⟩ := List.exists_cons_of_ne_nil (lines_ne_nil y)
  have hfirst : lines ('\n' :: y) = [] :: l :: ls := by
    rw [← hls]
    apply lines_append_feed List.not_mem_nil
  rw [firstTwoLines, firstTwoLines, hfirst, lines_append_feed h, hls]
  simp only [List.take_succ_cons, List.take_zero, List.foldr_cons, List.foldr_nil,
    byteLength_nil]
  omega

end Fettle
