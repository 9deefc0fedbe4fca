import Fettle.Rules.NoConsecutiveBlankLines
import Fettle.Rules.NoTrailingSpaces
import Mathlib.Data.List.Basic
import Mathlib.Tactic.Use

/-!
# Lines of kept text

The rules on white space put a text together again from lines of which some have become
shorter.  The line feeds of the text that is put together are those between its lines
(`count_unlines`), and its length is that of the lines and the line feeds
(`byteLength_unlines`).  From these it follows how many line feeds are left by
`NoTrailingSpaces.spaceKept`, `NoTrailingSpaces.commentKept` and
`NoConsecutiveBlankLines.collapsed`, and that the text gets shorter where something is
reported.
-/

namespace Fettle

namespace Text

/-! ### Lines and line feeds -/

theorem feed_notMem_of_mem_lines {s l : List Char} (h : l ∈ lines s) :
  '\n' ∉ l
  := by
  induction s generalizing l with
  | nil =>
    rw [lines, List.mem_singleton] at h
    simp [h]
  | cons c s ih =>
    rw [lines] at h
    split at h
    · rw [List.mem_cons] at h
      rcases h with rfl | h
      · simp
      · apply ih h
    · rename_i hc
      split at h
      · rw [List.mem_singleton] at h
        simp [h, Ne.symm hc]
      · rename_i m ms hm
        rw [List.mem_cons] at h
        rcases h with rfl | h
        · rw [List.mem_cons, not_or]
          exact ⟨Ne.symm hc, ih (by simp [hm])⟩
        · apply ih
          rw [hm]
          apply List.mem_cons_of_mem _ h

theorem lines_of_notMem {s : List Char} (h : '\n' ∉ s) :
  lines s = [s]
  := by
  induction s with
  | nil => rfl
  | cons c s ih =>
    rw [List.mem_cons, not_or] at h
    rw [lines, if_neg (Ne.symm h.1), ih h.2]

theorem lines_append_feed {x : List Char} (h : '\n' ∉ x) (y : List Char) :
  lines (x ++ '\n' :: y) = x :: lines y
  := by
  induction x with
  | nil => rw [List.nil_append, lines, if_pos rfl]
  | cons c x ih =>
    rw [List.mem_cons, not_or] at h
    rw [List.cons_append, lines, if_neg (Ne.symm h.1), ih h.2]

theorem unlines_cons {ls : List (List Char)} (h : ls ≠ []) (l : List Char) :
  unlines (l :: ls) = l ++ '\n' :: unlines ls
  := by
  obtain ⟨m, ms, rfl⟩ := List.exists_cons_of_ne_nil h
  rfl

/-- The line feeds of a text are those between its lines. -/
theorem count_unlines {ls : List (List Char)} (h : ∀ l ∈ ls, '\n' ∉ l) :
  (unlines ls).count '\n' = ls.length - 1
  := by
  induction ls with
  | nil => rfl
  | cons l ls ih =>
    have hl := List.count_eq_zero.mpr (h l List.mem_cons_self)
    have hls := ih fun m hm => h m (List.mem_cons_of_mem _ hm)
    cases ls with
    | nil => simpa [unlines] using hl
    | cons m ms =>
      rw [unlines, List.count_append, List.count_cons_self, hl, hls]
      simp

/-- The number of bytes of some lines, line feeds aside. -/
def linesLength : List (List Char) → Nat
  | [] => 0
  | l :: ls => byteLength l + linesLength ls

theorem linesLength_append (ls ms : List (List Char)) :
  linesLength (ls ++ ms) = linesLength ls + linesLength ms
  := by
  induction ls with
  | nil => simp [linesLength]
  | cons l ls ih => simp [linesLength, ih, Nat.add_assoc]

/-- The length of a text is that of its lines and of the line feeds between them. -/
theorem byteLength_unlines (ls : List (List Char)) :
  byteLength (unlines ls) = linesLength ls + (ls.length - 1)
  := by
  induction ls with
  | nil => rfl
  | cons l ls ih =>
    cases ls with
    | nil => simp [unlines, linesLength]
    | cons m ms =>
      have hfeed : ('\n' : Char).utf8Size = 1 := by decide
      rw [unlines, byteLength_append, byteLength_cons, hfeed, linesLength, ih]
      simp only [List.length_cons, Nat.add_sub_cancel]
      omega

theorem byteLength_pos {s : List Char} (h : s ≠ []) :
  0 < byteLength s
  := by
  cases s with
  | nil => exact absurd rfl h
  | cons c s =>
    have := Char.utf8Size_pos c
    rw [byteLength_cons]
    omega

theorem byteLength_eq_of_lines (s : List Char) :
  byteLength s = linesLength (lines s) + s.count '\n'
  := by
  have h := byteLength_unlines (lines s)
  rw [unlines_lines, length_lines] at h
  simpa using h

/-! ### The parts of a line -/

theorem byteLength_splitReturn (line : List Char) (beforeFeed : Bool) :
  byteLength (splitReturn line beforeFeed).1 + byteLength (splitReturn line beforeFeed).2
    = byteLength line
  := by
  rw [← byteLength_append, splitReturn_append]

theorem mem_of_mem_splitReturn_snd {line : List Char} {beforeFeed : Bool} {c : Char}
    (h : c ∈ (splitReturn line beforeFeed).2) :
  c ∈ line
  := by
  rw [← splitReturn_append line beforeFeed]
  apply List.mem_append_right _ h

theorem byteLength_splitReturn_snd_le (line : List Char) (beforeFeed : Bool) :
  byteLength (splitReturn line beforeFeed).2 ≤ 1
  := by
  have hreturn : byteLength ['\r'] = 1 := by decide
  rw [splitReturn]
  split
  · split
    · apply Nat.le_of_eq hreturn
    · simp
  · simp

theorem byteLength_trimEnd_le (s : List Char) :
  byteLength (trimEnd s) ≤ byteLength s
  := by
  obtain ⟨b, hs, -⟩ := exists_trimEnd_append s
  rw [congrArg byteLength hs, byteLength_append]
  omega

theorem byteLength_trimEnd_lt {s : List Char} (h : (trimEnd s).length < s.length) :
  byteLength (trimEnd s) < byteLength s
  := by
  obtain ⟨b, hs, -⟩ := exists_trimEnd_append s
  have hb : b ≠ [] := by
    rintro rfl
    rw [List.append_nil] at hs
    rw [← hs] at h
    omega
  have := byteLength_pos hb
  rw [congrArg byteLength hs, byteLength_append]
  omega

theorem mem_of_mem_trimEnd {c : Char} {s : List Char} (h : c ∈ trimEnd s) :
  c ∈ s
  := by
  obtain ⟨b, hs, -⟩ := exists_trimEnd_append s
  rw [hs]
  apply List.mem_append_left _ h

theorem mem_of_mem_trim {c : Char} {s : List Char} (h : c ∈ trim s) :
  c ∈ s
  := (List.dropWhile_suffix _).subset (mem_of_mem_trimEnd h)

end Text

open Text

/-! ### Kept lines -/

namespace NoTrailingSpaces

section

variable (atEnd : Bool) (l m : List Char) (ms : List (List Char))

theorem spaceKept_cons_cons :
  spaceKept atEnd (l :: m :: ms) = (splitReturn l true).2 :: spaceKept atEnd (m :: ms)
  := rfl

theorem spaceMarks_cons_cons (delta : Nat) :
  spaceMarks atEnd delta (l :: m :: ms)
    = if (splitReturn l true).1.isEmpty
      then spaceMarks atEnd (delta + byteLength l + 1) (m :: ms)
      else delta :: spaceMarks atEnd (delta + byteLength l + 1) (m :: ms)
  := rfl

end

theorem length_spaceKept (atEnd : Bool) (ls : List (List Char)) :
  (spaceKept atEnd ls).length = ls.length
  := by
  induction ls with
  | nil => rfl
  | cons l ls ih =>
    cases ls with
    | nil => rfl
    | cons m ms =>
      rw [spaceKept_cons_cons, List.length_cons, ih]
      rfl

theorem feed_notMem_spaceKept {atEnd : Bool} {ls : List (List Char)}
    (h : ∀ l ∈ ls, '\n' ∉ l) :
  ∀ l ∈ spaceKept atEnd ls, '\n' ∉ l
  := by
  induction ls with
  | nil => simp [spaceKept]
  | cons l ls ih =>
    have hl := h l List.mem_cons_self
    cases ls with
    | nil =>
      rw [spaceKept]
      cases atEnd
      · simpa using hl
      · simp
    | cons m ms =>
      rw [spaceKept_cons_cons, List.forall_mem_cons]
      constructor
      · intro hmem
        apply hl (mem_of_mem_splitReturn_snd hmem)
      · apply ih
        intro k hk
        apply h k (List.mem_cons_of_mem _ hk)

theorem linesLength_spaceKept_le (atEnd : Bool) (ls : List (List Char)) :
  linesLength (spaceKept atEnd ls) ≤ linesLength ls
  := by
  induction ls with
  | nil => apply Nat.le_refl
  | cons l ls ih =>
    cases ls with
    | nil => cases atEnd <;> simp [spaceKept, linesLength]
    | cons m ms =>
      have := byteLength_splitReturn l true
      rw [spaceKept_cons_cons, linesLength, linesLength]
      omega

/-- White space lines get shorter if any of them is reported. -/
theorem linesLength_spaceKept_lt {atEnd : Bool} {delta : Nat} {ls : List (List Char)}
    (h : spaceMarks atEnd delta ls ≠ []) :
  linesLength (spaceKept atEnd ls) < linesLength ls
  := by
  induction ls generalizing delta with
  | nil => exact absurd rfl h
  | cons l ls ih =>
    cases ls with
    | nil =>
      rw [spaceMarks] at h
      split at h
      · rename_i hend
        rw [Bool.and_eq_true, Bool.not_eq_true', List.isEmpty_eq_false_iff] at hend
        have := byteLength_pos hend.2
        simpa [spaceKept, linesLength, hend.1] using this
      · exact absurd rfl h
    | cons m ms =>
      have hsplit := byteLength_splitReturn l true
      have hrest := linesLength_spaceKept_le atEnd (m :: ms)
      rw [spaceKept_cons_cons, linesLength, linesLength]
      rw [spaceMarks_cons_cons] at h
      split at h
      · have := ih h
        omega
      · rename_i hbody
        rw [List.isEmpty_iff] at hbody
        have := byteLength_pos hbody
        omega

theorem length_commentKept (feed : Bool) (ls : List (List Char)) :
  (commentKept feed ls).length = ls.length
  := by
  induction ls with
  | nil => rfl
  | cons l ls ih => rw [commentKept, List.length_cons, ih, List.length_cons]

theorem feed_notMem_commentKept {feed : Bool} {ls : List (List Char)}
    (h : ∀ l ∈ ls, '\n' ∉ l) :
  ∀ l ∈ commentKept feed ls, '\n' ∉ l
  := by
  induction ls with
  | nil => simp [commentKept]
  | cons l ls ih =>
    have hl := h l List.mem_cons_self
    rw [commentKept, List.forall_mem_cons]
    constructor
    · intro hmem
      rw [List.mem_append] at hmem
      apply hl
      rw [← splitReturn_append l (feed || !ls.isEmpty), List.mem_append]
      apply hmem.imp_left mem_of_mem_trimEnd
    · apply ih
      intro k hk
      apply h k (List.mem_cons_of_mem _ hk)

theorem linesLength_commentKept_le (feed : Bool) (ls : List (List Char)) :
  linesLength (commentKept feed ls) ≤ linesLength ls
  := by
  induction ls with
  | nil => apply Nat.le_refl
  | cons l ls ih =>
    have hsplit := byteLength_splitReturn l (feed || !ls.isEmpty)
    have htrim := byteLength_trimEnd_le (splitReturn l (feed || !ls.isEmpty)).1
    rw [commentKept, linesLength, linesLength, byteLength_append]
    omega

/-- The lines of a comment get shorter if any of them is reported. -/
theorem linesLength_commentKept_lt {feed : Bool} {delta : Nat} {ls : List (List Char)}
    (h : commentMarks feed delta ls ≠ []) :
  linesLength (commentKept feed ls) < linesLength ls
  := by
  induction ls generalizing delta with
  | nil => exact absurd rfl h
  | cons l ls ih =>
    have hsplit := byteLength_splitReturn l (feed || !ls.isEmpty)
    have htrim := byteLength_trimEnd_le (splitReturn l (feed || !ls.isEmpty)).1
    have hrest := linesLength_commentKept_le feed ls
    rw [commentKept, linesLength, linesLength, byteLength_append]
    rw [commentMarks] at h
    split at h
    · rename_i hshort
      have := byteLength_trimEnd_lt hshort
      omega
    · have := ih h
      omega

section

variable (s : List Char)

theorem count_unlines_spaceKept (atEnd : Bool) :
  (unlines (spaceKept atEnd (lines s))).count '\n' = s.count '\n'
  := by
  rw [count_unlines (feed_notMem_spaceKept fun _ => feed_notMem_of_mem_lines),
    length_spaceKept, length_lines]
  rfl

theorem count_unlines_commentKept (feed : Bool) :
  (unlines (commentKept feed (lines s))).count '\n' = s.count '\n'
  := by
  rw [count_unlines (feed_notMem_commentKept fun _ => feed_notMem_of_mem_lines),
    length_commentKept, length_lines]
  rfl

variable {s}

theorem byteLength_unlines_spaceKept_lt {atEnd : Bool} {delta : Nat}
    (h : spaceMarks atEnd delta (lines s) ≠ []) :
  byteLength (unlines (spaceKept atEnd (lines s))) < byteLength s
  := by
  have hlt := linesLength_spaceKept_lt h
  rw [byteLength_unlines, length_spaceKept, length_lines, byteLength_eq_of_lines s]
  omega

theorem byteLength_unlines_commentKept_lt {feed : Bool} {delta : Nat}
    (h : commentMarks feed delta (lines s) ≠ []) :
  byteLength (unlines (commentKept feed (lines s))) < byteLength s
  := by
  have hlt := linesLength_commentKept_lt h
  rw [byteLength_unlines, length_commentKept, length_lines, byteLength_eq_of_lines s]
  omega

/-- White space of which nothing is left has one line, and is at the end of the document. -/
theorem atEnd_of_unlines_spaceKept_eq_nil {atEnd : Bool}
    (h : spaceMarks atEnd 0 (lines s) ≠ []) (hnil : unlines (spaceKept atEnd (lines s)) = []) :
  atEnd = true ∧ '\n' ∉ s
  := by
  have hcount := count_unlines_spaceKept s atEnd
  rw [hnil, List.count_nil] at hcount
  have hfeed : '\n' ∉ s := List.count_eq_zero.mp hcount.symm
  have hlength := length_lines s
  rw [← hcount] at hlength
  obtain ⟨l, hl⟩ := List.length_eq_one_iff.mp hlength
  rw [hl, spaceMarks] at h
  split at h
  · rename_i hend
    rw [Bool.and_eq_true] at hend
    exact ⟨hend.1, hfeed⟩
  · exact absurd rfl h

end

end NoTrailingSpaces

namespace NoConsecutiveBlankLines

theorem allowed_pos (atEnd : Bool) :
  0 < allowed atEnd
  := by
  cases atEnd <;> decide

theorem allowed_le (atEnd : Bool) :
  allowed atEnd ≤ 2
  := by
  cases atEnd <;> decide

theorem count_flatten_replicate (n : Nat) {mark : List Char} (h : '\n' ∉ mark) :
  (List.replicate n (mark ++ ['\n'])).flatten.count '\n' = n
  := by
  induction n with
  | zero => rfl
  | succ n ih =>
    rw [List.replicate_succ, List.flatten_cons, List.count_append, ih, List.count_append,
      List.count_eq_zero.mpr h, List.count_singleton_self]
    omega

theorem byteLength_flatten_replicate (n : Nat) (mark : List Char) :
  byteLength (List.replicate n (mark ++ ['\n'])).flatten = n * (byteLength mark + 1)
  := by
  have hfeed : byteLength ['\n'] = 1 := by decide
  induction n with
  | zero => simp
  | succ n ih =>
    rw [List.replicate_succ, List.flatten_cons, byteLength_append, ih, byteLength_append, hfeed,
      Nat.succ_mul]
    omega

/-- The lines of a text with line feeds are a first one, others and a last one. -/
theorem exists_lines_eq {s : List Char} (h : 0 < s.count '\n') :
  ∃ first mid last, lines s = first :: (mid ++ [last])
  := by
  have hlength := length_lines s
  cases hs : lines s with
  | nil => exact absurd hs (lines_ne_nil s)
  | cons first rest =>
    rcases List.eq_nil_or_concat rest with rfl | ⟨mid, last, rfl⟩
    · rw [hs, List.length_singleton] at hlength
      omega
    · use first, mid, last
      rw [List.concat_eq_append]

section

variable {atEnd : Bool} {s : List Char} (h : allowed atEnd < s.count '\n')

include h

theorem count_collapsed :
  (collapsed atEnd s).count '\n' = allowed atEnd
  := by
  obtain ⟨first, mid, last, hs⟩ := exists_lines_eq (Nat.zero_lt_of_lt h)
  have hfirst : '\n' ∉ first := feed_notMem_of_mem_lines (s := s) (by simp [hs])
  have hlast : '\n' ∉ last := feed_notMem_of_mem_lines (s := s) (by simp [hs])
  have hsplit := splitReturn_append first true
  rw [← hsplit, List.mem_append, not_or] at hfirst
  rw [collapsed, hs, List.head?_cons, ← List.cons_append, List.getLast?_concat,
    Option.getD_some, Option.getD_some, List.count_append, List.count_append,
    List.count_eq_zero.mpr hfirst.1, count_flatten_replicate _ hfirst.2,
    List.count_eq_zero.mpr hlast]
  omega

theorem collapsed_ne_nil :
  collapsed atEnd s ≠ []
  := by
  intro hnil
  have hcount := count_collapsed h
  have hpos := allowed_pos atEnd
  rw [hnil, List.count_nil] at hcount
  omega

theorem weight_collapsed_lt :
  (collapsed atEnd s).count '\n' + byteLength (collapsed atEnd s)
    < s.count '\n' + byteLength s
  := by
  rw [count_collapsed h]
  obtain ⟨first, mid, last, hs⟩ := exists_lines_eq (Nat.zero_lt_of_lt h)
  have hlength := byteLength_eq_of_lines s
  have hsplit := byteLength_splitReturn first true
  have hmark := byteLength_splitReturn_snd_le first true
  have hle := allowed_le atEnd
  rw [hs, linesLength, linesLength_append, linesLength, linesLength] at hlength
  rw [collapsed, hs, List.head?_cons, ← List.cons_append, List.getLast?_concat,
    Option.getD_some, Option.getD_some, byteLength_append, byteLength_append,
    byteLength_flatten_replicate]
  have hproduct : allowed atEnd * byteLength (splitReturn first true).2
      ≤ byteLength (splitReturn first true).2 + 1 := by
    have := Nat.mul_le_mul_right (byteLength (splitReturn first true).2) hle
    omega
  rw [Nat.mul_add, Nat.mul_one]
  omega

end

end NoConsecutiveBlankLines

end Fettle
