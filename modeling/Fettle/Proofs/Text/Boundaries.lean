import Fettle.Position
import Fettle.Proofs.Text.Lines

/-!
# Character boundaries

`Boundary s o` says that a text can be cut after `o` bytes.  These are the offsets that have a
position (`exists_ofOffset_iff`), and earlier offsets have earlier positions (`before_of_lt`).  What
is reported of the lines of white space and of comments is at such places
(`boundary_of_mem_spaceMarks`, `boundary_of_mem_commentMarks`, `boundary_firstTwoLines`); one byte
after the start of a text there is one only if the first character has one byte
(`boundary_one_iff`).
-/

namespace Fettle

namespace Text

/-- A text can be cut after a number of bytes. -/
def Boundary (s : List Char) (o : Nat) : Prop :=
  ∃ u v, s = u ++ v ∧ byteLength u = o

theorem boundary_zero (s : List Char) :
  Boundary s 0
  := ⟨[], s, rfl, rfl⟩

theorem boundary_byteLength (u v : List Char) :
  Boundary (u ++ v) (byteLength u)
  := ⟨u, v, rfl, rfl⟩

/-- No boundary is past the end of the text. -/
theorem Boundary.le {s : List Char} {o : Nat} (h : Boundary s o) :
  o ≤ byteLength s
  := by
  obtain ⟨u, v, rfl, rfl⟩ := h
  rw [byteLength_append]
  apply Nat.le_add_right

theorem Boundary.append_right {s : List Char} {o : Nat} (h : Boundary s o) (v : List Char) :
  Boundary (s ++ v) o
  := by
  obtain ⟨u, w, rfl, rfl⟩ := h
  rw [List.append_assoc]
  apply boundary_byteLength

theorem boundary_cons_iff {c : Char} {s : List Char} {o : Nat} :
  Boundary (c :: s) (c.utf8Size + o) ↔ Boundary s o
  := by
  have hpos := c.utf8Size_pos
  constructor
  · rintro ⟨u, v, huv, ho⟩
    cases u with
    | nil =>
      rw [byteLength_nil] at ho
      omega
    | cons d u =>
      obtain ⟨rfl, rfl⟩ := List.cons.inj huv
      use u, v, rfl
      rw [byteLength_cons] at ho
      omega
  · rintro ⟨u, v, rfl, rfl⟩
    exact ⟨c :: u, v, rfl, rfl⟩

/-- The boundaries after the start of a part of a text are those of the part. -/
theorem boundary_append_iff {u s : List Char} {o : Nat} :
  Boundary (u ++ s) (byteLength u + o) ↔ Boundary s o
  := by
  induction u with
  | nil => rw [List.nil_append, byteLength_nil, Nat.zero_add]
  | cons c u ih => rw [List.cons_append, byteLength_cons, Nat.add_assoc, boundary_cons_iff, ih]

theorem boundary_one_iff {c : Char} {s : List Char} :
  Boundary (c :: s) 1 ↔ c.utf8Size = 1
  := by
  have hpos := c.utf8Size_pos
  constructor
  · rintro ⟨u, v, huv, ho⟩
    cases u with
    | nil => cases ho
    | cons d u =>
      obtain ⟨rfl, -⟩ := List.cons.inj huv
      rw [byteLength_cons] at ho
      omega
  · intro hsize
    rw [← hsize, ← Nat.add_zero c.utf8Size, boundary_cons_iff]
    apply boundary_zero

end Text

open Text

/-! ### Positions -/

namespace Position

/-- The place reached by going on in a text is that after the characters passed. -/
theorem advance_eq_some_iff {p q : Position} {s : List Char} {o : Nat} :
  p.advance s o = some q ↔ ∃ u v, s = u ++ v ∧ byteLength u = o ∧ u.foldl next p = q
  := by
  induction s generalizing p o with
  | nil =>
    cases o with
    | zero => simp [advance]
    | succ n => simp [advance]
  | cons c s ih =>
    have hpos := c.utf8Size_pos
    cases o with
    | zero =>
      constructor
      · intro h
        use [], c :: s, rfl, rfl
        simpa [advance] using h
      · rintro ⟨u, v, -, ho, hq⟩
        cases u with
        | nil => simpa [advance] using hq
        | cons d u =>
          have hd := d.utf8Size_pos
          rw [byteLength_cons] at ho
          omega
    | succ n =>
      rw [advance]
      constructor
      · intro h
        split at h
        · rename_i hle
          obtain ⟨u, v, rfl, hu, hq⟩ := ih.mp h
          use c :: u, v, rfl
          rw [byteLength_cons]
          exact ⟨by omega, hq⟩
        · cases h
      · rintro ⟨u, v, huv, ho, hq⟩
        cases u with
        | nil => cases ho
        | cons d u =>
          obtain ⟨rfl, rfl⟩ := List.cons.inj huv
          rw [byteLength_cons] at ho
          rw [if_pos (by omega), ih]
          use u, v, rfl, by omega
          exact hq

theorem isSome_advance_iff {p : Position} {s : List Char} {o : Nat} :
  (p.advance s o).isSome = true ↔ Boundary s o
  := by
  rw [Option.isSome_iff_exists]
  constructor
  · rintro ⟨q, hq⟩
    obtain ⟨u, v, huv, ho, -⟩ := advance_eq_some_iff.mp hq
    exact ⟨u, v, huv, ho⟩
  · rintro ⟨u, v, huv, ho⟩
    exact ⟨_, advance_eq_some_iff.mpr ⟨u, v, huv, ho, rfl⟩⟩

/-- The position of an offset is the place after the characters before it. -/
theorem ofOffset_eq_ok_iff {text : String} {o : Nat} {p : Position} :
  ofOffset text o = .ok p
    ↔ ∃ u v, text.toList = u ++ v ∧ byteLength u = o ∧ u.foldl next ⟨1, 1⟩ = p
  := by
  rw [← advance_eq_some_iff, ofOffset]
  split
  · rename_i hlt
    constructor
    · intro h
      cases h
    · intro h
      obtain ⟨u, v, huv, rfl, -⟩ := advance_eq_some_iff.mp h
      rw [utf8ByteSize_eq_byteLength, huv, byteLength_append] at hlt
      omega
  · split <;> simp_all

/-- The offsets that have a position are the character boundaries of the document. -/
theorem exists_ofOffset_iff {text : String} {o : Nat} :
  (∃ p, ofOffset text o = .ok p) ↔ Boundary text.toList o
  := by
  constructor
  · rintro ⟨p, hp⟩
    obtain ⟨u, v, huv, ho, -⟩ := ofOffset_eq_ok_iff.mp hp
    exact ⟨u, v, huv, ho⟩
  · rintro ⟨u, v, huv, ho⟩
    exact ⟨_, ofOffset_eq_ok_iff.mpr ⟨u, v, huv, ho, rfl⟩⟩

/-- An offset inside a character is refused as such. -/
theorem ofOffset_of_not_boundary {text : String} {o : Nat} (h : ¬ Boundary text.toList o)
    (hle : o ≤ text.utf8ByteSize) :
  ofOffset text o = .error (.notBoundary o)
  := by
  rw [← isSome_advance_iff (p := ⟨1, 1⟩), Bool.not_eq_true, Option.isSome_eq_false_iff,
    Option.isNone_iff_eq_none] at h
  rw [ofOffset, if_neg (by omega), h]

/-- A position comes before another in the document. -/
def Before (p q : Position) : Prop :=
  p.line < q.line ∨ p.line = q.line ∧ p.column < q.column

theorem before_next (p : Position) (c : Char) :
  p.Before (p.next c)
  := by
  unfold next Before
  split <;> simp

theorem Before.trans {p q r : Position} (h : p.Before q) (h' : q.Before r) :
  p.Before r
  := by
  unfold Before at *
  omega

theorem before_foldl_next (p : Position) (c : Char) (u : List Char) :
  p.Before ((c :: u).foldl next p)
  := by
  induction u generalizing p c with
  | nil => apply before_next
  | cons d u ih =>
    apply Before.trans (before_next p c)
    apply ih

/-- Of two offsets that have positions the lesser one has the earlier position. -/
theorem before_of_lt {text : String} {o o' : Nat} {p p' : Position}
    (h : ofOffset text o = .ok p) (h' : ofOffset text o' = .ok p') (hlt : o < o') :
  p.Before p'
  := by
  obtain ⟨u, v, huv, rfl, rfl⟩ := ofOffset_eq_ok_iff.mp h
  obtain ⟨u', v', huv', rfl, rfl⟩ := ofOffset_eq_ok_iff.mp h'
  rw [huv] at huv'
  rcases List.append_eq_append_iff.mp huv' with ⟨w, rfl, -⟩ | ⟨w, rfl, -⟩
  · cases w with
    | nil => simp at hlt
    | cons c w =>
      rw [List.foldl_append]
      apply before_foldl_next
  · rw [byteLength_append] at hlt
    omega

end Position

/-! ### Lines -/

namespace Text

variable {l : List Char} {ls : List (List Char)} {o : Nat}

/-- The boundaries of a text after its first line. -/
theorem Boundary.after_line (h : Boundary (unlines ls) o) (hls : ls ≠ []) (l : List Char) :
  Boundary (unlines (l :: ls)) (byteLength l + 1 + o)
  := by
  have hline : byteLength (l ++ ['\n']) = byteLength l + 1 := by
    rw [byteLength_append]
    rfl
  rw [unlines_cons hls, List.append_cons, ← hline, boundary_append_iff]
  exact h

theorem Boundary.in_line (h : Boundary l o) (ls : List (List Char)) :
  Boundary (unlines (l :: ls)) o
  := by
  cases ls with
  | nil => exact h
  | cons m ms => apply h.append_right

/-- A line can be cut where its trailing blanks begin. -/
theorem boundary_trimmed (l : List Char) (beforeFeed : Bool) :
  Boundary l (byteLength (trimEnd (splitReturn l beforeFeed).1))
  := by
  obtain ⟨b, hb, -⟩ := exists_trimEnd_append (splitReturn l beforeFeed).1
  use trimEnd (splitReturn l beforeFeed).1, b ++ (splitReturn l beforeFeed).2
  constructor
  · rw [← List.append_assoc, ← hb, splitReturn_append]
  · rfl

end Text

namespace NoTrailingSpaces

variable {delta m : Nat} {ls : List (List Char)}

/-- What is reported of white space lines is at boundaries. -/
theorem boundary_of_mem_spaceMarks {atEnd : Bool} (h : m ∈ spaceMarks atEnd delta ls) :
  ∃ o, m = delta + o ∧ Boundary (unlines ls) o
  := by
  induction ls generalizing delta with
  | nil => cases h
  | cons l ls ih =>
    cases ls with
    | nil =>
      rw [spaceMarks] at h
      split at h
      · use 0, List.mem_singleton.mp h
        apply boundary_zero
      · cases h
    | cons k ks =>
      have hlater (hm : m ∈ spaceMarks atEnd (delta + byteLength l + 1) (k :: ks)) :
          ∃ o, m = delta + o ∧ Boundary (unlines (l :: k :: ks)) o := by
        obtain ⟨o, rfl, ho⟩ := ih hm
        use byteLength l + 1 + o, by omega
        apply ho.after_line (List.cons_ne_nil k ks)
      rw [spaceMarks_cons_cons] at h
      split at h
      · apply hlater h
      · rcases List.mem_cons.mp h with rfl | h
        · use 0, rfl
          apply boundary_zero
        · apply hlater h

/-- What is reported of the lines of a comment is at boundaries. -/
theorem boundary_of_mem_commentMarks {feed : Bool} (h : m ∈ commentMarks feed delta ls) :
  ∃ o, m = delta + o ∧ Boundary (unlines ls) o
  := by
  induction ls generalizing delta with
  | nil => cases h
  | cons l ls ih =>
    have hlater (hm : m ∈ commentMarks feed (delta + byteLength l + 1) ls) :
        ∃ o, m = delta + o ∧ Boundary (unlines (l :: ls)) o := by
      obtain ⟨o, rfl, ho⟩ := ih hm
      use byteLength l + 1 + o, by omega
      apply ho.after_line
      rintro rfl
      cases hm
    rw [commentMarks] at h
    split at h
    · rcases List.mem_cons.mp h with rfl | h
      · exact ⟨_, rfl, (boundary_trimmed l _).in_line ls⟩
      · apply hlater h
    · apply hlater h

end NoTrailingSpaces

/-- Two lines end at a boundary, if more come. -/
theorem NoConsecutiveBlankLines.boundary_firstTwoLines {s : List Char}
    (h : 1 < s.count '\n') :
  Boundary s (firstTwoLines s)
  := by
  have hlength := length_lines s
  match hlines : lines s with
  | [] | [_] | [_, _] =>
    rw [hlines] at hlength
    simp only [List.length_nil, List.length_cons] at hlength
    omega
  | k :: l :: m :: ms =>
    have hrest : Boundary (unlines (l :: m :: ms)) (byteLength l + 1 + 0) :=
      (boundary_zero _).after_line (List.cons_ne_nil m ms) l
    have htwo := hrest.after_line (List.cons_ne_nil l (m :: ms)) k
    rw [← hlines, unlines_lines] at htwo
    rw [firstTwoLines, hlines]
    exact htwo

end Fettle
