import Fettle.Proofs.Text.LineBounds
import Fettle.Proofs.Text.Shifted

/-!
# First and last lines of kept text

What the rules on trailing spaces and blank lines leave of a text that begins with a line feed
begins with one too (`head?_spaceKept_feed`, `head?_collapsed_feed`).  Of a text with line feeds,
what comes after the last one stays, if no line feed follows the text and there are no blanks at
its end, or, in white space, if the document goes on (`exists_spaceKept_eq`,
`exists_commentKept_eq`, `exists_collapsed_eq`).

So one line of a document can be looked at by itself: `getElem?_lines` says which of the lines it
is, and `lineOf_eq` that this is the line of each of its offsets.
-/

namespace Fettle

namespace Text

/-! ### Lines of a text in parts -/

/-- The lines of two texts with a line feed between them. -/
theorem lines_append (x y : List Char) :
  lines (x ++ '\n' :: y) = lines x ++ lines y
  := by
  induction x with
  | nil => rfl
  | cons c x ih =>
    rw [List.cons_append, lines, lines, ih]
    cases hx : lines x with
    | nil => exact absurd hx (lines_ne_nil x)
    | cons l ls => split <;> rfl

theorem lines_append_last (u : List Char) {last : List Char} (h : '\n' ∉ last) :
  lines (u ++ '\n' :: last) = lines u ++ [last]
  := by
  rw [lines_append, lines_of_notMem h]

/-- A last line comes after a line feed. -/
theorem unlines_concat {ls : List (List Char)} (h : ls ≠ []) (last : List Char) :
  unlines (ls ++ [last]) = unlines ls ++ '\n' :: last
  := by
  induction ls with
  | nil => exact absurd rfl h
  | cons l ls ih =>
    cases ls with
    | nil => rfl
    | cons m ms =>
      rw [List.cons_append, unlines_cons (by simp), unlines_cons (List.cons_ne_nil m ms),
        ih (List.cons_ne_nil m ms), List.append_assoc, List.cons_append]

/-- A text with line feeds has a last line. -/
theorem exists_last_line {s : List Char} (h : '\n' ∈ s) :
  ∃ u last, s = u ++ '\n' :: last ∧ '\n' ∉ last
  := by
  obtain ⟨r, v, hr, hnone⟩ := List.eq_append_cons_of_mem (List.mem_reverse.mpr h)
  use v.reverse, r.reverse
  constructor
  · rw [← List.reverse_reverse s, hr]
    simp
  · rwa [List.mem_reverse]

/-- The last line of a text that ends with the mark of a comment does not end in blanks. -/
theorem trimEnd_of_suffix {u last : List Char} (h : ['*', '/'] <:+ u ++ '\n' :: last) :
  trimEnd last = last
  := by
  obtain ⟨w, hw⟩ := h
  rcases List.append_eq_append_iff.mp hw with ⟨r, rfl, hr⟩ | ⟨r, rfl, hr⟩
  · have hfeed : '\n' ∈ ['*', '/'] := by
      rw [hr]
      simp
    exact absurd hfeed (by decide)
  · cases r with
    | nil => exact absurd (List.cons.inj hr).1 (by decide)
    | cons x r =>
      obtain ⟨-, rfl⟩ := List.cons.inj hr
      have hmark : r ++ ['*', '/'] = (r ++ ['*']) ++ ['/'] := by
        simp
      change trimEnd (r ++ ['*', '/']) = r ++ ['*', '/']
      rw [hmark]
      apply trimEnd_append_of_nonblank _ (by decide)

/-- A line of a text comes after as many others as there are line feeds before it. -/
theorem getElem?_lines {u m v : List Char} (hm : '\n' ∉ m)
    (hu : u = [] ∨ ∃ w, u = w ++ ['\n']) (hv : v = [] ∨ ∃ w, v = '\n' :: w) :
  (lines (u ++ (m ++ v)))[u.count '\n']? = some m
  := by
  have hfirst : ∃ rest, lines (m ++ v) = m :: rest := by
    rcases hv with rfl | ⟨w, rfl⟩
    · rw [List.append_nil, lines_of_notMem hm]
      exact ⟨_, rfl⟩
    · rw [lines_append_feed hm]
      exact ⟨_, rfl⟩
  obtain ⟨rest, hrest⟩ := hfirst
  rcases hu with rfl | ⟨w, rfl⟩
  · rw [List.nil_append, hrest]
    rfl
  · rw [List.append_assoc, List.singleton_append, lines_append, hrest, List.count_append,
      List.count_singleton_self, ← length_lines, List.getElem?_append_right (Nat.le_refl _),
      Nat.sub_self]
    rfl

end Text

open Text

/-! ### Line feeds before an offset -/

/-- All line feeds of a text that ends at or before an offset come before it. -/
theorem feedsBefore_append {o pos : Nat} {u : List Char} (h : pos + byteLength u ≤ o)
    (s : List Char) :
  feedsBefore o pos (u ++ s) = u.count '\n' + feedsBefore o (pos + byteLength u) s
  := by
  induction u generalizing pos with
  | nil => rw [List.nil_append, List.count_nil, Nat.zero_add, byteLength_nil, Nat.add_zero]
  | cons c u ih =>
    have hpos := c.utf8Size_pos
    rw [byteLength_cons, ← Nat.add_assoc] at h
    rw [List.cons_append, feedsBefore, ih h, byteLength_cons, List.count_cons, ← Nat.add_assoc,
      ← Nat.add_assoc, Nat.add_comm (ite _ _ _)]
    by_cases hc : c = '\n'
    · rw [if_pos ⟨hc, by omega⟩, if_pos (by simp [hc])]
    · rw [if_neg (fun hboth => hc hboth.1), if_neg (by simp [hc])]

/-- No line feed comes before an offset in a text without them. -/
theorem feedsBefore_line {o pos : Nat} {m : List Char} (hm : '\n' ∉ m)
    (h : o ≤ pos + byteLength m) (v : List Char) :
  feedsBefore o pos (m ++ v) = 0
  := by
  induction m generalizing pos with
  | nil => apply feedsBefore_eq_zero h
  | cons c m ih =>
    rw [List.mem_cons, not_or] at hm
    rw [byteLength_cons, ← Nat.add_assoc] at h
    rw [List.cons_append, feedsBefore_other o pos _ (Ne.symm hm.1), ih hm.2 h]

/-- The offsets from the start to the end of a part without line feeds are on the same line. -/
theorem lineOf_eq {text : String} {u m v : List Char} (htext : text.toList = u ++ (m ++ v))
    (hm : '\n' ∉ m) {o : Nat} (hle : byteLength u ≤ o) (hlt : o ≤ byteLength u + byteLength m) :
  lineOf text o = u.count '\n'
  := by
  rw [← Nat.zero_add (byteLength u)] at hle hlt
  rw [lineOf, htext, feedsBefore_append hle, feedsBefore_line hm hlt, Nat.add_zero]

/-! ### What is left of first and last lines -/

namespace NoTrailingSpaces

theorem spaceKept_concat (ls : List (List Char)) (last : List Char) :
  spaceKept false (ls ++ [last]) = ls.map (fun l => (splitReturn l true).2) ++ [last]
  := by
  induction ls with
  | nil => rfl
  | cons l ls ih =>
    rw [List.map_cons, List.cons_append, List.cons_append, ← ih]
    cases ls with
    | nil => rfl
    | cons m ms => rfl

theorem commentKept_concat (ls : List (List Char)) (last : List Char) :
  commentKept false (ls ++ [last]) = commentKept true ls ++ [trimEnd last]
  := by
  induction ls with
  | nil =>
    rw [List.nil_append, commentKept, commentKept, commentKept, List.nil_append, List.isEmpty_nil,
      Bool.not_true, Bool.or_false, splitReturn_false, List.append_nil]
  | cons l ls ih =>
    have hmore : (ls ++ [last]).isEmpty = false := by
      simp
    rw [List.cons_append, commentKept, commentKept, ih, hmore, Bool.not_false, Bool.or_true,
      Bool.true_or, List.cons_append]

section

variable {last : List Char} (h : '\n' ∉ last) (u : List Char)

include h

/-- White space keeps its last line, if the document goes on. -/
theorem exists_spaceKept_eq :
  ∃ w, unlines (spaceKept false (lines (u ++ '\n' :: last))) = w ++ '\n' :: last
  := by
  rw [lines_append_last u h, spaceKept_concat, unlines_concat]
  · exact ⟨_, rfl⟩
  · rw [ne_eq, List.map_eq_nil_iff]
    apply lines_ne_nil

/-- A comment keeps a last line that does not end in blanks. -/
theorem exists_commentKept_eq (hlast : trimEnd last = last) :
  ∃ w, unlines (commentKept false (lines (u ++ '\n' :: last))) = w ++ '\n' :: last
  := by
  rw [lines_append_last u h, commentKept_concat, hlast, unlines_concat]
  · exact ⟨_, rfl⟩
  · apply List.ne_nil_of_length_pos
    rw [length_commentKept, length_lines]
    apply Nat.succ_pos

end

/-- White space that begins with a line feed keeps it. -/
theorem head?_spaceKept_feed (atEnd : Bool) (r : List Char) :
  (unlines (spaceKept atEnd (lines ('\n' :: r)))).head? = some '\n'
  := by
  obtain ⟨m, ms, hr⟩ := List.exists_cons_of_ne_nil (lines_ne_nil r)
  have hsome : spaceKept atEnd (m :: ms) ≠ [] := by
    apply List.ne_nil_of_length_pos
    rw [length_spaceKept]
    apply Nat.succ_pos
  rw [lines, if_pos rfl, hr, spaceKept_cons_cons, unlines_cons hsome]
  rfl

end NoTrailingSpaces

namespace NoConsecutiveBlankLines

/-- The last line is kept. -/
theorem exists_collapsed_eq {last : List Char} (h : '\n' ∉ last) (atEnd : Bool) (u : List Char) :
  ∃ w, collapsed atEnd (u ++ '\n' :: last) = w ++ '\n' :: last
  := by
  obtain ⟨n, hn⟩ := Nat.exists_eq_add_one.mpr (allowed_pos atEnd)
  rw [collapsed, lines_append_last u h, List.getLast?_concat, Option.getD_some, hn]
  obtain ⟨body, mark⟩ := splitReturn ((lines u ++ [last]).head?.getD []) true
  use body ++ (List.replicate n (mark ++ ['\n'])).flatten ++ mark
  simp [List.replicate_succ']

/-- A line feed at the start is kept. -/
theorem head?_collapsed_feed (atEnd : Bool) (r : List Char) :
  (collapsed atEnd ('\n' :: r)).head? = some '\n'
  := by
  obtain ⟨n, hn⟩ := Nat.exists_eq_add_one.mpr (allowed_pos atEnd)
  rw [collapsed, lines, if_pos rfl, hn]
  rfl

end NoConsecutiveBlankLines

end Fettle
