import Fettle.Proofs.Text.Boundaries
import Fettle.Proofs.Text.LineBounds
import Mathlib.Data.List.Induction

/-!
# The line that an offset is in

Every offset up to the end of a text is in one line of it, which stands between line feeds or the
ends of the text (`Text.exists_inLine`).  Its bounds are those that are found character by character
(`lineStart_inLine`, `lineEnd_inLine`), and what is before the offset tells its position
(`Position.foldl_next_eq`).
-/

namespace Fettle

namespace Text

/-! ### The line of an offset -/

/-- An offset is in the line `m` of a text, which stands between `u` and `v`. -/
structure InLine (s : List Char) (o : Nat) (u m v : List Char) : Prop where
  text : s = u ++ (m ++ v)
  le_offset : byteLength u ≤ o
  offset_le : o ≤ byteLength (u ++ m)
  notMem : '\n' ∉ m
  /-- The line is the first one or comes after a line feed. -/
  start : u = [] ∨ ∃ u', u = u' ++ ['\n']
  /-- The line is the last one or ends before a line feed. -/
  stop : v = [] ∨ ∃ v', v = '\n' :: v'

namespace InLine

variable {s u m v : List Char} {c : Char} {o : Nat}

/-- A line feed in front of the text moves its lines by one byte. -/
theorem cons_feed (h : InLine s o u m v) :
  InLine ('\n' :: s) (o + 1) ('\n' :: u) m v
  := by
  have hstart := h.le_offset
  have hle := h.offset_le
  constructor
  · rw [h.text, List.cons_append]
  · rw [byteLength_cons, utf8Size_feed]
    omega
  · rw [List.cons_append, byteLength_cons, utf8Size_feed]
    omega
  · exact h.notMem
  · right
    rcases h.start with rfl | ⟨u', rfl⟩
    · exact ⟨[], rfl⟩
    · exact ⟨'\n' :: u', rfl⟩
  · exact h.stop

/-- Another character in front of the text stands in its first line. -/
theorem cons_first (h : InLine s (o - c.utf8Size) [] m v) (hc : c ≠ '\n') :
  InLine (c :: s) o [] (c :: m) v
  := by
  have hle := h.offset_le
  constructor
  · rw [h.text]
    rfl
  · exact Nat.zero_le o
  · rw [List.nil_append, byteLength_cons]
    rw [List.nil_append] at hle
    omega
  · rw [List.mem_cons, not_or]
    exact ⟨hc.symm, h.notMem⟩
  · exact .inl rfl
  · exact h.stop

/-- A character in front of the text moves its other lines by the length of the character. -/
theorem cons_later (h : InLine s (o - c.utf8Size) (u ++ ['\n']) m v) :
  InLine (c :: s) o (c :: (u ++ ['\n'])) m v
  := by
  have hle := h.offset_le
  have hstart := h.le_offset
  have hfeed : 0 < byteLength (u ++ ['\n']) := by
    rw [byteLength_append, byteLength_cons, utf8Size_feed]
    omega
  constructor
  · rw [h.text]
    rfl
  · rw [byteLength_cons]
    omega
  · rw [List.cons_append, byteLength_cons]
    omega
  · exact h.notMem
  · exact .inr ⟨c :: u, rfl⟩
  · exact h.stop

end InLine

/-- Every offset up to the end of a text is in a line. -/
theorem exists_inLine {s : List Char} {o : Nat} (ho : o ≤ byteLength s) :
  ∃ u m v, InLine s o u m v
  := by
  induction s generalizing o with
  | nil => exact ⟨[], [], [], rfl, Nat.zero_le o, ho, List.not_mem_nil, .inl rfl, .inl rfl⟩
  | cons c s ih =>
    rw [byteLength_cons] at ho
    obtain ⟨u, m, v, hline⟩ := @ih (o - c.utf8Size) (by omega)
    by_cases hc : c = '\n'
    · subst hc
      cases o with
      | zero =>
        use [], [], '\n' :: s
        exact ⟨rfl, Nat.zero_le 0, Nat.zero_le _, List.not_mem_nil, .inl rfl, .inr ⟨s, rfl⟩⟩
      | succ o => exact ⟨_, _, _, hline.cons_feed⟩
    · rcases hline.start with rfl | ⟨u', rfl⟩
      · exact ⟨_, _, _, hline.cons_first hc⟩
      · exact ⟨_, _, _, hline.cons_later⟩

theorem eq_nil_of_byteLength {u : List Char} (hu : byteLength u = 0) :
  u = []
  := by
  cases u with
  | nil => rfl
  | cons c u =>
    have hpos := c.utf8Size_pos
    rw [byteLength_cons] at hu
    omega

namespace InLine

variable {s p q u m v : List Char} (hline : InLine s (byteLength p) u m v) (hs : s = p ++ q)

include hline hs

/-- What comes before an offset are the lines before and the first characters of its line. -/
theorem exists_front :
  ∃ m', p = u ++ m' ∧ '\n' ∉ m'
  := by
  have hle := hline.offset_le
  have hcuts := hline.text.symm.trans hs
  rcases List.append_eq_append_iff.mp hcuts with ⟨m', rfl, hm⟩ | ⟨u', rfl, -⟩
  · use m', rfl
    intro hfeed
    apply hline.notMem
    rw [byteLength_append, byteLength_append] at hle
    rcases List.append_eq_append_iff.mp hm with ⟨w, rfl, -⟩ | ⟨w, rfl, -⟩
    · have hw : w = [] := by
        apply eq_nil_of_byteLength
        rw [byteLength_append] at hle
        omega
      rw [hw, List.append_nil] at hfeed
      exact hfeed
    · exact List.mem_append_left _ hfeed
  · have hu' : u' = [] := by
      have hstart := hline.le_offset
      apply eq_nil_of_byteLength
      rw [byteLength_append] at hstart
      omega
    use []
    rw [hu', List.append_nil, List.append_nil]
    exact ⟨rfl, List.not_mem_nil⟩

end InLine

/-- The characters after the last line feed of a text that is cut at the start of a line. -/
theorem takeWhile_reverse_append {u m : List Char} (hu : u = [] ∨ ∃ u', u = u' ++ ['\n'])
    (hm : '\n' ∉ m) :
  (u ++ m).reverse.takeWhile (· ≠ '\n') = m.reverse
  := by
  have hall : ∀ c ∈ m.reverse, decide (c ≠ '\n') = true := by
    intro c hc
    rw [List.mem_reverse] at hc
    rw [decide_eq_true_iff]
    rintro rfl
    exact hm hc
  rw [List.reverse_append, List.takeWhile_append_of_pos hall]
  rcases hu with rfl | ⟨u', rfl⟩
  · apply List.append_nil
  · rw [List.reverse_append]
    apply List.append_nil

end Text

open Text

/-! ### Character by character -/

theorem lineStartFrom_append (o start pos : Nat) (s t : List Char) :
  lineStartFrom o start pos (s ++ t)
    = lineStartFrom o (lineStartFrom o start pos s) (pos + byteLength s) t
  := by
  induction s generalizing start pos with
  | nil => rfl
  | cons c s ih => rw [List.cons_append, lineStartFrom, ih, lineStartFrom, byteLength_cons,
      Nat.add_assoc]

/-- No line starts in a text without line feeds. -/
theorem lineStartFrom_of_notMem {m : List Char} (hm : '\n' ∉ m) (o start pos : Nat) :
  lineStartFrom o start pos m = start
  := by
  induction m generalizing pos with
  | nil => rfl
  | cons c m ih =>
    rw [List.mem_cons, not_or] at hm
    rw [lineStartFrom_other _ _ _ _ (Ne.symm hm.1), ih hm.2]

/-- No line starts up to an offset in a text that begins after it. -/
theorem lineStartFrom_of_le {o pos : Nat} (ho : o ≤ pos) (start : Nat) (s : List Char) :
  lineStartFrom o start pos s = start
  := by
  induction s generalizing pos with
  | nil => rfl
  | cons c s ih =>
    have hnot : ¬ (c = '\n' ∧ pos + 1 ≤ o) := by
      rintro ⟨-, hlt⟩
      omega
    rw [lineStartFrom, if_neg hnot, ih (Nat.le_add_right_of_le ho)]

/-- No line ends after an offset in a text that ends before it. -/
theorem lineEndFrom_append_of_le {o pos : Nat} {s : List Char} (ho : pos + byteLength s ≤ o)
    (t : List Char) :
  lineEndFrom o pos (s ++ t) = lineEndFrom o (pos + byteLength s) t
  := by
  induction s generalizing pos with
  | nil => rfl
  | cons c s ih =>
    have hpos := c.utf8Size_pos
    rw [byteLength_cons, ← Nat.add_assoc] at ho
    rw [List.cons_append, lineEndFrom, if_neg, ih ho, byteLength_cons, Nat.add_assoc]
    rintro ⟨-, hle⟩
    omega

theorem lineEndFrom_append_of_notMem {m : List Char} (hm : '\n' ∉ m) (o pos : Nat)
    (t : List Char) :
  lineEndFrom o pos (m ++ t) = lineEndFrom o (pos + byteLength m) t
  := by
  induction m generalizing pos with
  | nil => rfl
  | cons c m ih =>
    rw [List.mem_cons, not_or] at hm
    rw [List.cons_append, lineEndFrom_other _ _ _ (Ne.symm hm.1), ih hm.2, byteLength_cons,
      Nat.add_assoc]

section

variable {text : String} {o : Nat} {u m v : List Char} (hline : InLine text.toList o u m v)

include hline

theorem lineStart_inLine :
  lineStart text o = byteLength u
  := by
  have hrest : lineStartFrom o (lineStartFrom o 0 0 u) (byteLength u) (m ++ v)
      = lineStartFrom o 0 0 u := by
    rw [lineStartFrom_append, lineStartFrom_of_notMem hline.notMem, lineStartFrom_of_le]
    rw [← byteLength_append]
    exact hline.offset_le
  rw [lineStart, hline.text, lineStartFrom_append, Nat.zero_add, hrest]
  rcases hline.start with rfl | ⟨u', rfl⟩
  · rfl
  · have hle := hline.le_offset
    rw [byteLength_append, byteLength_cons, utf8Size_feed] at hle
    rw [lineStartFrom_append, lineStartFrom_feed, if_pos (by omega), Nat.zero_add,
      byteLength_append]
    rfl

theorem lineEnd_inLine :
  lineEnd text o = byteLength (u ++ m)
  := by
  have hstart : 0 + byteLength u ≤ o := by
    rw [Nat.zero_add]
    exact hline.le_offset
  have hstop := hline.offset_le
  rw [lineEnd, hline.text, lineEndFrom_append_of_le hstart,
    lineEndFrom_append_of_notMem hline.notMem, Nat.zero_add, ← byteLength_append]
  rcases hline.stop with rfl | ⟨v', rfl⟩
  · rfl
  · rw [lineEndFrom_feed, if_pos hstop]

end

/-- The place after some characters: the line feeds among them, and the characters after the last
of them. -/
theorem Position.foldl_next_eq (p : List Char) :
  p.foldl next ⟨1, 1⟩ = ⟨p.count '\n' + 1, (p.reverse.takeWhile (· ≠ '\n')).length + 1⟩
  := by
  induction p using List.reverseRecOn with
  | nil => rfl
  | append_singleton p c ih =>
    rw [List.foldl_concat, ih, next, List.count_append, List.reverse_concat]
    by_cases hc : c = '\n'
    · subst hc
      rw [if_pos rfl, List.takeWhile_cons_of_neg (by decide)]
      rfl
    · have hnone : [c].count '\n' = 0 := by
        rw [List.count_eq_zero, List.mem_singleton]
        exact Ne.symm hc
      rw [if_neg hc, hnone, List.takeWhile_cons_of_pos (by simpa using hc), List.length_cons]

end Fettle
