import Fettle.Proofs.Text.Lines
import Mathlib.Tactic.Use

/-!
# Texts with carriage returns

A text is `Crlf` if a carriage return is directly before every line feed.  Whether the line feeds
of a part of such a text have theirs depends on the character before the part:
`returned after s` is about a part that comes after a carriage return or not, and
`endsInReturn after s` tells what comes after the part.

What is left of trimmed lines keeps its carriage returns, wherever the text is cut
(`returned_spaceKept`, `returned_commentKept`).  Blank lines that go keep theirs
(`returned_collapsed`), but for a text that begins with a line feed: its line breaks are made
like the first one, without the carriage return that is before the text.
-/

namespace Fettle

namespace Text

/-- A carriage return is directly before every line feed. -/
def Crlf (s : List Char) : Prop :=
  ∀ p q, s = p ++ '\n' :: q → p.getLast? = some '\r'

/-- Whether a carriage return is last before what comes after a text. -/
def endsInReturn (after : Bool) : List Char → Bool
  | [] => after
  | c :: s => endsInReturn (c == '\r') s

/-- Whether a carriage return is directly before every line feed of a text, which comes after
one or not. -/
def returned (after : Bool) : List Char → Bool
  | [] => true
  | c :: s => (c != '\n' || after) && returned (c == '\r') s

/-- A text that begins with two line feeds and has no more. -/
def Doubled (s : List Char) : Prop :=
  ∃ last, '\n' ∉ last ∧ s = '\n' :: '\n' :: last

variable {after : Bool} {s u : List Char}

@[simp]
theorem endsInReturn_append (after : Bool) (s u : List Char) :
  endsInReturn after (s ++ u) = endsInReturn (endsInReturn after s) u
  := by
  induction s generalizing after with
  | nil => rfl
  | cons c s ih => apply ih

@[simp]
theorem returned_append (after : Bool) (s u : List Char) :
  returned after (s ++ u) = (returned after s && returned (endsInReturn after s) u)
  := by
  induction s generalizing after with
  | nil => rfl
  | cons c s ih => simp only [List.cons_append, returned, endsInReturn, ih, Bool.and_assoc]

/-- The end of a text that is not empty is not before it. -/
theorem endsInReturn_of_ne_nil (h : s ≠ []) (after before : Bool) :
  endsInReturn after s = endsInReturn before s
  := by
  cases s with
  | nil => exact absurd rfl h
  | cons c s => rfl

theorem endsInReturn_eq_true_iff :
  endsInReturn false s = true ↔ s.getLast? = some '\r'
  := by
  rcases List.eq_nil_or_concat s with rfl | ⟨s, c, rfl⟩
  · simp [endsInReturn]
  · simp [endsInReturn]

theorem returned_iff :
  returned after s = true ↔ ∀ p q, s = p ++ '\n' :: q → endsInReturn after p = true
  := by
  induction s generalizing after with
  | nil => simp [returned]
  | cons c s ih =>
    rw [returned, Bool.and_eq_true, ih]
    constructor
    · rintro ⟨hc, hs⟩ p q hpq
      cases p with
      | nil =>
        obtain ⟨rfl, -⟩ := List.cons.inj hpq
        simpa [endsInReturn] using hc
      | cons d p =>
        obtain ⟨rfl, hrest⟩ := List.cons.inj hpq
        apply hs p q hrest
    · intro h
      constructor
      · by_cases hc : c = '\n'
        · simp only [Bool.or_eq_true]
          right
          apply h [] s
          rw [hc, List.nil_append]
        · simp [hc]
      · intro p q hpq
        apply h (c :: p) q
        rw [hpq, List.cons_append]

/-- A text has all its carriage returns if it has them after none. -/
theorem crlf_iff :
  Crlf s ↔ returned false s = true
  := by
  rw [returned_iff]
  simp only [endsInReturn_eq_true_iff]
  rfl

instance (s : List Char) : Decidable (Crlf s) :=
  decidable_of_iff (returned false s = true) crlf_iff.symm

theorem returned_of_notMem (h : '\n' ∉ s) (after : Bool) :
  returned after s = true
  := by
  rw [returned_iff]
  rintro p q rfl
  simp at h

/-- Only a line feed at the start of a text needs what is before it. -/
theorem returned_of_imp {before : Bool} (h : returned before s = true)
    (hs : s.head? = some '\n' → before = true → after = true) :
  returned after s = true
  := by
  rw [returned_iff] at h ⊢
  intro p q hpq
  cases p with
  | nil =>
    apply hs
    · rw [hpq, List.nil_append, List.head?_cons]
    · apply h [] q hpq
  | cons c p =>
    rw [endsInReturn_of_ne_nil (List.cons_ne_nil c p) after before]
    apply h (c :: p) q hpq

/-! ### Lines -/

/-- A line break has its carriage return if the line before it ends in one. -/
theorem returned_line {l : List Char} (hl : '\n' ∉ l) (after : Bool) (s : List Char) :
  returned after (l ++ '\n' :: s) = (endsInReturn after l && returned false s)
  := by
  rw [returned_append, returned_of_notMem hl after, Bool.true_and, returned]
  rfl

theorem endsInReturn_line (l : List Char) (after : Bool) (s : List Char) :
  endsInReturn after (l ++ '\n' :: s) = endsInReturn false s
  := by
  rw [endsInReturn_append]
  rfl

/-- A line that ends in a carriage return keeps it in its line break, or it is empty. -/
theorem endsInReturn_splitReturn {l : List Char} (h : endsInReturn after l = true) :
  (splitReturn l true).2 = ['\r'] ∨ l = [] ∧ after = true
  := by
  rcases List.eq_nil_or_concat l with rfl | ⟨l, c, rfl⟩
  · right
    exact ⟨rfl, h⟩
  · left
    obtain rfl : c = '\r' := by
      simpa [endsInReturn] using h
    simp [splitReturn, dropReturn]

/-- A line that ends in a carriage return still does if nothing but blanks of its body go. -/
theorem endsInReturn_trimmed {l : List Char} (h : endsInReturn after l = true) :
  endsInReturn after (splitReturn l true).2 = true
    ∧ endsInReturn after (trimEnd (splitReturn l true).1 ++ (splitReturn l true).2) = true
  := by
  rcases endsInReturn_splitReturn h with hmark | ⟨rfl, rfl⟩
  · rw [hmark, endsInReturn_append]
    exact ⟨rfl, rfl⟩
  · exact ⟨rfl, rfl⟩

end Text

open Text

/-! ### Trailing spaces -/

namespace NoTrailingSpaces

theorem spaceKept_cons_ne_nil (atEnd : Bool) (l : List Char) (ls : List (List Char)) :
  spaceKept atEnd (l :: ls) ≠ []
  := by
  apply List.ne_nil_of_length_pos
  rw [length_spaceKept]
  apply Nat.succ_pos

variable {after : Bool} {ls : List (List Char)} (hls : ∀ l ∈ ls, '\n' ∉ l)
  (h : returned after (unlines ls) = true)

include hls h

/-- White space lines keep their carriage returns, the last line too if it stays. -/
theorem returned_spaceKept (atEnd : Bool) :
  returned after (unlines (spaceKept atEnd ls)) = true
    ∧ (atEnd = false →
      endsInReturn after (unlines (spaceKept atEnd ls)) = endsInReturn after (unlines ls))
  := by
  induction ls generalizing after with
  | nil => exact ⟨rfl, fun _ => rfl⟩
  | cons l ls ih =>
    cases ls with
    | nil =>
      cases atEnd with
      | false => exact ⟨h, fun _ => rfl⟩
      | true => exact ⟨rfl, nofun⟩
    | cons m ms =>
      have hl : '\n' ∉ l := hls l List.mem_cons_self
      have hmark : '\n' ∉ (splitReturn l true).2 := fun hfeed =>
        hl (mem_of_mem_splitReturn_snd hfeed)
      rw [unlines, returned_line hl, Bool.and_eq_true] at h
      obtain ⟨hend, hrest⟩ := h
      rw [spaceKept_cons_cons, unlines_cons (spaceKept_cons_ne_nil atEnd m ms), unlines,
        returned_line hmark, (endsInReturn_trimmed hend).1, endsInReturn_line, endsInReturn_line]
      apply ih (fun l hl => hls l (List.mem_cons_of_mem _ hl)) hrest

/-- The lines of a comment keep their carriage returns, the last line too if a line feed
follows. -/
theorem returned_commentKept (feed : Bool) :
  returned after (unlines (commentKept feed ls)) = true
    ∧ (feed = true → endsInReturn after (unlines ls) = true →
      endsInReturn after (unlines (commentKept feed ls)) = true)
  := by
  induction ls generalizing after with
  | nil => exact ⟨rfl, fun _ h => h⟩
  | cons l ls ih =>
    have hkept : ∀ k ∈ commentKept feed (l :: ls), '\n' ∉ k := feed_notMem_commentKept hls
    cases ls with
    | nil =>
      constructor
      · apply returned_of_notMem (hkept _ List.mem_cons_self)
      · rintro rfl hend
        apply (endsInReturn_trimmed hend).2
    | cons m ms =>
      have hne : commentKept feed (m :: ms) ≠ [] := by
        apply List.ne_nil_of_length_pos
        rw [length_commentKept]
        apply Nat.succ_pos
      rw [unlines, returned_line (hls l List.mem_cons_self), Bool.and_eq_true] at h
      obtain ⟨hend, hrest⟩ := h
      have hfirst := hkept _ List.mem_cons_self
      rw [List.isEmpty_cons, Bool.not_false, Bool.or_true] at hfirst
      rw [commentKept, List.isEmpty_cons, Bool.not_false, Bool.or_true, unlines_cons hne, unlines,
        returned_line hfirst, (endsInReturn_trimmed hend).2, endsInReturn_line, endsInReturn_line]
      apply ih (fun l hl => hls l (List.mem_cons_of_mem _ hl)) hrest

/-- White space lines begin with a line feed only if they did before. -/
theorem head?_spaceKept {atEnd : Bool}
    (hhead : (unlines (spaceKept atEnd ls)).head? = some '\n') :
  (unlines ls).head? = some '\n'
  := by
  cases ls with
  | nil => exact hhead
  | cons l ls =>
    cases ls with
    | nil =>
      cases atEnd with
      | false => exact hhead
      | true => cases hhead
    | cons m ms =>
      rw [unlines, returned_line (hls l List.mem_cons_self), Bool.and_eq_true] at h
      rw [spaceKept_cons_cons, unlines_cons (spaceKept_cons_ne_nil atEnd m ms)] at hhead
      rcases endsInReturn_splitReturn h.1 with hmark | ⟨rfl, -⟩
      · rw [hmark] at hhead
        cases hhead
      · rfl

end NoTrailingSpaces

/-! ### Blank lines -/

namespace NoConsecutiveBlankLines

variable {after atEnd : Bool} {s : List Char}

theorem endsInReturn_unlines (after : Bool) (first last : List Char) (mid : List (List Char)) :
  endsInReturn after (unlines (first :: (mid ++ [last]))) = endsInReturn false last
  := by
  induction mid generalizing after first with
  | nil => apply endsInReturn_line
  | cons m ms ih =>
    rw [List.cons_append, unlines_cons (by simp), endsInReturn_line]
    apply ih

/-- Line breaks that are collapsed keep their carriage returns, but for those of a text that
begins with a line feed and is not the last one. -/
theorem returned_collapsed (hmany : allowed atEnd < s.count '\n')
    (hs : returned after s = true) :
  endsInReturn after (collapsed atEnd s) = endsInReturn after s
    ∧ (returned after (collapsed atEnd s) = true
      ∨ atEnd = false ∧ after = true ∧ s.head? = some '\n' ∧ Doubled (collapsed atEnd s))
  := by
  obtain ⟨first, mid, last, hlines⟩ := exists_lines_eq (Nat.zero_lt_of_lt hmany)
  have hfirst : '\n' ∉ first := feed_notMem_of_mem_lines (s := s) (by simp [hlines])
  have hlast : '\n' ∉ last := feed_notMem_of_mem_lines (s := s) (by simp [hlines])
  have htext := unlines_lines s
  rw [hlines, unlines_cons (by simp)] at htext
  have hend : endsInReturn after first = true := by
    rw [← htext, returned_line hfirst, Bool.and_eq_true] at hs
    exact hs.1
  have hlast' : endsInReturn after s = endsInReturn false last := by
    rw [← endsInReturn_unlines after first last mid, ← hlines, unlines_lines]
  rw [hlast', collapsed, hlines, List.head?_cons, ← List.cons_append, List.getLast?_concat,
    Option.getD_some, Option.getD_some]
  have hbody : '\n' ∉ (splitReturn first true).1 := fun hfeed => by
    apply hfirst
    rw [← splitReturn_append first true]
    apply List.mem_append_left _ hfeed
  rcases endsInReturn_splitReturn hend with hmark | ⟨rfl, rfl⟩
  · simp only [hmark]
    constructor
    · cases atEnd <;> simp [allowed, List.replicate, endsInReturn]
    · left
      cases atEnd <;> simp [allowed, List.replicate, returned, returned_of_notMem hbody,
        returned_of_notMem hlast]
  · cases atEnd with
    | true =>
      constructor
      · rfl
      · left
        apply returned_of_notMem hlast
    | false =>
      constructor
      · rfl
      · right
        rw [← htext]
        exact ⟨rfl, rfl, rfl, last, hlast, rfl⟩

end NoConsecutiveBlankLines

/-! ### Two line feeds at the start -/

namespace Text.Doubled

variable {s : List Char} (h : Doubled s)

include h

theorem head? :
  s.head? = some '\n'
  := by
  obtain ⟨last, -, rfl⟩ := h
  rfl

/-- Nothing is dropped before the line feeds, and the last line only at the end. -/
theorem spaceKept (atEnd : Bool) :
  Doubled (unlines (NoTrailingSpaces.spaceKept atEnd (lines s)))
    ∧ (atEnd = false → unlines (NoTrailingSpaces.spaceKept atEnd (lines s)) = s)
  := by
  obtain ⟨last, hlast, rfl⟩ := h
  have hlines : lines ('\n' :: '\n' :: last) = [[], [], last] := by
    rw [lines, if_pos rfl, lines, if_pos rfl, lines_of_notMem hlast]
  rw [hlines]
  cases atEnd with
  | false => exact ⟨⟨last, hlast, rfl⟩, fun _ => rfl⟩
  | true =>
    constructor
    · exact ⟨[], List.not_mem_nil, rfl⟩
    · intro hend
      cases hend

/-- Only the last white space has fewer line breaks, and then it has one. -/
theorem returned_collapsed {atEnd : Bool}
    (hmany : NoConsecutiveBlankLines.allowed atEnd < s.count '\n') :
  atEnd = true ∧ returned true (NoConsecutiveBlankLines.collapsed atEnd s) = true
  := by
  obtain ⟨last, hlast, rfl⟩ := h
  have hcount : ('\n' :: '\n' :: last).count '\n' = 2 := by
    simp [List.count_eq_zero.mpr hlast]
  cases atEnd with
  | false =>
    rw [hcount] at hmany
    exact absurd hmany (by decide)
  | true =>
    use rfl
    rw [NoConsecutiveBlankLines.collapsed, lines, if_pos rfl, lines, if_pos rfl,
      lines_of_notMem hlast]
    apply returned_of_notMem hlast

end Text.Doubled

end Fettle
