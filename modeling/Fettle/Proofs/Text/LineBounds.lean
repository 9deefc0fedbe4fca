import Fettle.Position

/-!
# The line of an offset

`lineOf` counts the line feeds before an offset, so that a line feed belongs to the line it
ends.  The bounds `lineStart` and `lineEnd` of a line enclose the offsets of the document that
have the same count, and no others (`mem_line_iff`).
-/

namespace Fettle

/-- The number of line feeds before an offset, where the text begins at `pos`. -/
def feedsBefore (offset pos : Nat) : List Char → Nat
  | [] => 0
  | c :: s =>
    (if c = '\n' ∧ pos < offset then 1 else 0) + feedsBefore offset (pos + c.utf8Size) s

/-- The line of an offset, counted from zero. -/
def lineOf (text : String) (offset : Nat) : Nat :=
  feedsBefore offset 0 text.toList

theorem utf8Size_feed :
  ('\n' : Char).utf8Size = 1
  := by
  decide

/-! ### Character by character -/

section

variable (o p start pos : Nat) (s : List Char)

theorem feedsBefore_feed :
  feedsBefore o pos ('\n' :: s) = (if pos < o then 1 else 0) + feedsBefore o (pos + 1) s
  := by
  simp [feedsBefore, utf8Size_feed]

theorem lineStartFrom_feed :
  lineStartFrom p start pos ('\n' :: s)
    = lineStartFrom p (if pos < p then pos + 1 else start) (pos + 1) s
  := by
  simp only [lineStartFrom, utf8Size_feed, true_and, Nat.add_one_le_iff]

theorem lineEndFrom_feed :
  lineEndFrom p pos ('\n' :: s) = if p ≤ pos then pos else lineEndFrom p (pos + 1) s
  := by
  simp [lineEndFrom, utf8Size_feed]

variable {c : Char} (hc : c ≠ '\n')

include hc

theorem feedsBefore_other :
  feedsBefore o pos (c :: s) = feedsBefore o (pos + c.utf8Size) s
  := by
  simp [feedsBefore, hc]

theorem lineStartFrom_other :
  lineStartFrom p start pos (c :: s) = lineStartFrom p start (pos + c.utf8Size) s
  := by
  simp [lineStartFrom, hc]

theorem lineEndFrom_other :
  lineEndFrom p pos (c :: s) = lineEndFrom p (pos + c.utf8Size) s
  := by
  simp [lineEndFrom, hc]

end

theorem feedsBefore_eq_zero {o pos : Nat} (h : o ≤ pos) (s : List Char) :
  feedsBefore o pos s = 0
  := by
  induction s generalizing pos with
  | nil => rfl
  | cons c s ih =>
    have hlater : feedsBefore o (pos + c.utf8Size) s = 0 := ih (by omega)
    rw [feedsBefore, hlater, if_neg]
    rintro ⟨-, hlt⟩
    omega

theorem le_lineStartFrom {p start pos : Nat} (h : start ≤ pos) (s : List Char) :
  start ≤ lineStartFrom p start pos s
  := by
  induction s generalizing start pos with
  | nil => apply Nat.le_refl
  | cons c s ih =>
    by_cases hc : c = '\n'
    · subst hc
      rw [lineStartFrom_feed]
      split
      · apply Nat.le_trans _ (ih (Nat.le_refl _))
        omega
      · apply ih
        omega
    · rw [lineStartFrom_other p start pos s hc]
      apply ih
      omega

theorem le_lineEndFrom (p pos : Nat) (s : List Char) :
  pos ≤ lineEndFrom p pos s
  := by
  induction s generalizing pos with
  | nil => apply Nat.le_refl
  | cons c s ih =>
    rw [lineEndFrom]
    split
    · apply Nat.le_refl
    · apply Nat.le_trans (Nat.le_add_right _ _) (ih _)

/-! ### The bounds of a line -/

/-- The line of `p` has begun at `o` exactly if as many line feeds come before `o`. -/
theorem lineStartFrom_le_iff {p o start pos : Nat} (hpos : start ≤ pos) (ho : start ≤ o)
    (s : List Char) :
  lineStartFrom p start pos s ≤ o ↔ feedsBefore p pos s ≤ feedsBefore o pos s
  := by
  induction s generalizing start pos with
  | nil => simpa [lineStartFrom, feedsBefore] using ho
  | cons c s ih =>
    by_cases hc : c = '\n'
    · subst hc
      rw [lineStartFrom_feed, feedsBefore_feed, feedsBefore_feed]
      by_cases hp : pos < p
      · rw [if_pos hp, if_pos hp]
        by_cases hlt : pos < o
        · rw [if_pos hlt, ih (Nat.le_refl _) hlt, Nat.add_le_add_iff_left]
        · -- the line of `p` begins after `o`
          have hstart := le_lineStartFrom (p := p) (Nat.le_refl (pos + 1)) s
          rw [if_neg hlt, feedsBefore_eq_zero (o := o) (by omega)]
          omega
      · have hzero : feedsBefore p (pos + 1) s = 0 := feedsBefore_eq_zero (by omega) s
        rw [if_neg hp, if_neg hp, ih (by omega) ho, hzero]
        simp
    · rw [lineStartFrom_other p start pos s hc, feedsBefore_other _ _ _ hc,
        feedsBefore_other _ _ _ hc, ih (by omega) ho]

/-- The line of `p` has not ended before `o` exactly if no more line feeds come before `o`. -/
theorem le_lineEndFrom_iff {p o pos : Nat} {s : List Char}
    (ho : o ≤ pos + Text.byteLength s) :
  o ≤ lineEndFrom p pos s ↔ feedsBefore o pos s ≤ feedsBefore p pos s
  := by
  induction s generalizing pos with
  | nil => simpa [lineEndFrom, feedsBefore] using ho
  | cons c s ih =>
    rw [Text.byteLength_cons, ← Nat.add_assoc] at ho
    by_cases hc : c = '\n'
    · subst hc
      rw [utf8Size_feed] at ho
      rw [lineEndFrom_feed, feedsBefore_feed, feedsBefore_feed]
      by_cases hlt : pos < o
      · rw [if_pos hlt]
        by_cases hp : p ≤ pos
        · rw [if_pos hp, if_neg (by omega), feedsBefore_eq_zero (o := p) (by omega)]
          omega
        · rw [if_neg hp, if_pos (by omega), ih ho, Nat.add_le_add_iff_left]
      · have hend := le_lineEndFrom p (pos + 1) s
        rw [if_neg hlt, feedsBefore_eq_zero (o := o) (by omega)]
        split
        · omega
        · omega
    · rw [lineEndFrom_other p pos s hc, feedsBefore_other _ _ _ hc, feedsBefore_other _ _ _ hc,
        ih ho]

/-- The offsets from the start of the line of `p` to its end, its line feed included, are those
on the same line. -/
theorem mem_line_iff {text : String} {p o : Nat} (ho : o ≤ text.utf8ByteSize) :
  lineStart text p ≤ o ∧ o < lineEnd text p + 1 ↔ lineOf text p = lineOf text o
  := by
  rw [Text.utf8ByteSize_eq_byteLength, ← Nat.zero_add (Text.byteLength _)] at ho
  rw [lineStart, lineEnd, lineOf, lineOf, Nat.lt_succ_iff,
    lineStartFrom_le_iff (Nat.zero_le _) (Nat.zero_le o), le_lineEndFrom_iff ho]
  apply Nat.le_antisymm_iff.symm

end Fettle
