import Fettle.PositionIndex
import Fettle.Proofs.Arena.Assembled
import Fettle.Proofs.Text.InLine

/-!
# Positions by index

The index of a document depends on the text only, not on the parts in which it is given
(`PositionIndex.ofParts_eq`).  The starts of lines up to an offset are those of the lines before and
of its own, which halving finds (`PositionIndex.Sound.linesUpTo_eq`).  So the index says what the
text says: the position of an offset (`PositionIndex.Sound.resolve_eq`) and the bounds of its line
(`PositionIndex.Sound.lineStart_inLine`, `PositionIndex.Sound.lineEnd_inLine`).
-/

namespace Fettle

open Text

namespace PositionIndex

/-! ### Ends of line feeds -/

theorem feedEnds_append (base : Nat) (s t : List Char) :
  feedEnds base (s ++ t) = feedEnds base s ++ feedEnds (base + byteLength s) t
  := by
  induction s generalizing base with
  | nil => rfl
  | cons c s ih =>
    rw [List.cons_append, feedEnds, ih, feedEnds, byteLength_cons, Nat.add_assoc]
    split <;> rfl

theorem feedEnds_of_notMem {m : List Char} (hm : '\n' ∉ m) (base : Nat) :
  feedEnds base m = []
  := by
  induction m generalizing base with
  | nil => rfl
  | cons c m ih =>
    rw [List.mem_cons, not_or] at hm
    rw [feedEnds, if_neg (Ne.symm hm.1), ih hm.2]

theorem feedEnds_feed (base : Nat) (s : List Char) :
  feedEnds base ('\n' :: s) = (base + 1) :: feedEnds (base + 1) s
  := by
  rw [feedEnds, if_pos rfl, utf8Size_feed]

theorem length_feedEnds (base : Nat) (s : List Char) :
  (feedEnds base s).length = s.count '\n'
  := by
  induction s generalizing base with
  | nil => rfl
  | cons c s ih =>
    rw [feedEnds, List.count_cons]
    split
    · rename_i hc
      rw [List.length_cons, ih, hc, beq_self_eq_true, if_pos rfl]
    · rename_i hc
      rw [ih, if_neg (by simpa using hc), Nat.add_zero]

/-- A line feed ends after the start of the text and not after its end. -/
theorem bounds_of_mem_feedEnds {base n : Nat} {s : List Char} (h : n ∈ feedEnds base s) :
  base < n ∧ n ≤ base + byteLength s
  := by
  induction s generalizing base with
  | nil => cases h
  | cons c s ih =>
    have hpos := c.utf8Size_pos
    rw [byteLength_cons]
    have hlater (hn : n ∈ feedEnds (base + c.utf8Size) s) :
        base < n ∧ n ≤ base + (c.utf8Size + byteLength s) := by
      have hbounds := ih hn
      omega
    rw [feedEnds] at h
    split at h
    · rcases List.mem_cons.mp h with rfl | h
      · omega
      · apply hlater h
    · apply hlater h

/-! ### Parts -/

/-- The starts of lines in an index are those of its text. -/
def Sound (index : PositionIndex) : Prop :=
  index.lineStarts.toList = 0 :: feedEnds 0 index.text.toList

theorem sound_empty :
  empty.Sound
  := rfl

variable {index : PositionIndex}

theorem Sound.add (h : index.Sound) (part : String) :
  (index.add part).Sound
  := by
  rw [Sound] at h
  rw [Sound, PositionIndex.add, Array.toList_appendList, h, String.toList_append, feedEnds_append,
    utf8ByteSize_eq_byteLength, Nat.zero_add]
  rfl

/-- However a document is cut into parts, the index is that of the document. -/
theorem ofParts_eq (parts : List String) :
  (ofParts parts).Sound ∧ (ofParts parts).text = String.join parts
  := by
  have hfold (index : PositionIndex) (h : index.Sound) :
      (parts.foldl PositionIndex.add index).Sound
        ∧ (parts.foldl PositionIndex.add index).text = index.text ++ String.join parts := by
    induction parts generalizing index with
    | nil => exact ⟨h, (String.append_empty).symm⟩
    | cons part parts ih =>
      obtain ⟨hsound, htext⟩ := ih (index.add part) (h.add part)
      use hsound
      rw [List.foldl_cons, htext, PositionIndex.add, String.join_cons, String.append_assoc]
  obtain ⟨hsound, htext⟩ := hfold empty sound_empty
  use hsound
  rw [ofParts, htext, empty, String.empty_append]

/-! ### Halving -/

/-- Halving finds where the numbers above the bound begin. -/
theorem firstAbove_eq {xs : Array Nat} {as bs : List Nat} {bound lo hi : Nat}
    (hxs : xs.toList = as ++ bs) (has : ∀ x ∈ as, x ≤ bound) (hbs : ∀ x ∈ bs, bound < x)
    (hlo : lo ≤ as.length) (hhi : as.length ≤ hi) (hsize : hi ≤ xs.size) :
  firstAbove xs bound lo hi = as.length
  := by
  -- the place between `as` and `bs` stays between `lo` and `hi`
  have hget {mid : Nat} (hmid : mid < xs.size) : xs.getD mid 0 ≤ bound ↔ mid < as.length := by
    have hlength : mid < (as ++ bs).length := by
      rw [← hxs, Array.length_toList]
      exact hmid
    have hval : xs.getD mid 0 = (as ++ bs)[mid] := by
      rw [Array.getD_eq_getD_getElem?, ← Array.getElem?_toList, hxs,
        List.getElem?_eq_getElem hlength, Option.getD_some]
    rw [hval]
    by_cases hlt : mid < as.length
    · rw [List.getElem_append_left hlt]
      exact iff_of_true (has _ (List.getElem_mem hlt)) hlt
    · rw [List.getElem_append_right (by omega)]
      apply iff_of_false _ hlt
      rw [Nat.not_le]
      apply hbs _ (List.getElem_mem _)
  induction lo, hi using firstAbove.induct xs bound with
  | case1 lo hi hlt mid hle ih =>
    have hmid : mid = lo + (hi - lo) / 2 := rfl
    rw [firstAbove, if_pos hlt]
    dsimp only
    rw [if_pos hle]
    rw [hget (by omega)] at hle
    apply ih (by omega) hhi hsize
  | case2 lo hi hlt mid hle ih =>
    have hmid : mid = lo + (hi - lo) / 2 := rfl
    rw [firstAbove, if_pos hlt]
    dsimp only
    rw [if_neg hle]
    rw [hget (by omega)] at hle
    apply ih hlo (by omega) (by omega)
  | case3 lo hi hge =>
    rw [firstAbove, if_neg hge]
    omega

/-! ### Lines -/

section

variable {o : Nat} {u m v : List Char} (h : index.Sound)
  (hline : InLine index.text.toList o u m v)

include h hline

/-- The starts of lines are those up to the line of an offset and those after it. -/
theorem Sound.toList_lineStarts :
  index.lineStarts.toList = (0 :: feedEnds 0 u) ++ feedEnds (byteLength (u ++ m)) v
  := by
  rw [h, hline.text, feedEnds_append, feedEnds_append, feedEnds_of_notMem hline.notMem,
    byteLength_append, Nat.zero_add]
  rfl

/-- Halving finds the line of an offset. -/
theorem Sound.linesUpTo_eq :
  index.linesUpTo o = u.count '\n' + 1
  := by
  have hstarts := h.toList_lineStarts hline
  have hlength : (0 :: feedEnds 0 u).length = u.count '\n' + 1 := by
    rw [List.length_cons, length_feedEnds]
  rw [linesUpTo, ← hlength]
  apply firstAbove_eq hstarts
  · intro n hn
    apply Nat.le_trans _ hline.le_offset
    rcases List.mem_cons.mp hn with rfl | hn
    · apply Nat.zero_le
    · have hbounds := bounds_of_mem_feedEnds hn
      omega
  · intro n hn
    have hbounds := bounds_of_mem_feedEnds hn
    have hle := hline.offset_le
    omega
  · apply Nat.zero_le
  · rw [← Array.length_toList, hstarts, List.length_append]
    apply Nat.le_add_right
  · apply Nat.le_refl

/-- The last start of a line up to an offset is that of its line. -/
theorem Sound.getElem?_lineStarts :
  index.lineStarts[u.count '\n']? = some (byteLength u)
  := by
  have hlength : u.count '\n' < (0 :: feedEnds 0 u).length := by
    rw [List.length_cons, length_feedEnds]
    apply Nat.lt_succ_self
  rw [← Array.getElem?_toList, h.toList_lineStarts hline, List.getElem?_append_left hlength]
  rcases hline.start with rfl | ⟨u', rfl⟩
  · rfl
  · have hcount : (u' ++ ['\n']).count '\n' = (feedEnds 0 u').length + 1 := by
      rw [List.count_append, length_feedEnds]
      rfl
    have hlast : feedEnds 0 (u' ++ ['\n']) = feedEnds 0 u' ++ [byteLength (u' ++ ['\n'])] := by
      rw [feedEnds_append, feedEnds_feed, byteLength_append, byteLength_cons, utf8Size_feed,
        Nat.zero_add]
      rfl
    rw [hcount, List.getElem?_cons_succ, hlast, List.getElem?_append_right (Nat.le_refl _),
      Nat.sub_self]
    rfl

theorem Sound.lineStart_inLine :
  index.lineStart o = byteLength u
  := by
  have hline' : max (u.count '\n' + 1) 1 - 1 = u.count '\n' := by omega
  rw [lineStart, h.linesUpTo_eq hline, hline', Array.getD_eq_getD_getElem?,
    h.getElem?_lineStarts hline, Option.getD_some]

theorem Sound.lineEnd_inLine :
  index.lineEnd o = byteLength (u ++ m)
  := by
  have hlength : u.count '\n' + 1 = (0 :: feedEnds 0 u).length := by
    rw [List.length_cons, length_feedEnds]
  have hnext : index.lineStarts[u.count '\n' + 1]? = (feedEnds (byteLength (u ++ m)) v).head? := by
    rw [← Array.getElem?_toList, h.toList_lineStarts hline, hlength,
      List.getElem?_append_right (Nat.le_refl _), Nat.sub_self, List.head?_eq_getElem?]
  rw [lineEnd, h.linesUpTo_eq hline, hnext]
  rcases hline.stop with rfl | ⟨v', rfl⟩
  · change index.text.utf8ByteSize = _
    rw [utf8ByteSize_eq_byteLength, hline.text, List.append_nil]
  · rw [feedEnds_feed]
    rfl

end

/-! ### Positions -/

/-- The position of a boundary: the line feeds before it, and the characters after the last of
them. -/
theorem Sound.resolve_eq (h : index.Sound) {p q : List Char} (htext : index.text.toList = p ++ q) :
  index.resolve (byteLength p)
    = .ok ⟨p.count '\n' + 1, (p.reverse.takeWhile (· ≠ '\n')).length + 1⟩
  := by
  have hle : byteLength p ≤ byteLength index.text.toList := by
    rw [htext, byteLength_append]
    apply Nat.le_add_right
  obtain ⟨u, m, v, hline⟩ := exists_inLine hle
  have hlines := h.linesUpTo_eq hline
  have hstart := h.getElem?_lineStarts hline
  obtain ⟨m', rfl, hm'⟩ := hline.exists_front htext
  have hslice : slice (byteLength u) (byteLength (u ++ m')) index.text.toList = m' := by
    rw [htext]
    apply slice_append
  have hcount : (u ++ m').count '\n' = u.count '\n' := by
    rw [List.count_append, List.count_eq_zero.mpr hm', Nat.add_zero]
  have hin : ¬ index.text.utf8ByteSize < byteLength (u ++ m') := by
    rw [utf8ByteSize_eq_byteLength]
    omega
  have hcut : (cut? index.text.toList (byteLength (u ++ m'))).isNone = false := by
    rw [htext, cut?_append]
    rfl
  rw [resolve, if_neg hin, hcut, if_neg Bool.false_ne_true, hlines]
  dsimp only
  rw [Nat.add_sub_cancel, Array.getD_eq_getD_getElem?, hstart, Option.getD_some, hslice, hcount,
    takeWhile_reverse_append hline.start hm', List.length_reverse]

theorem resolve_of_not_boundary {o : Nat} (ho : o ≤ index.text.utf8ByteSize)
    (hb : ¬ Boundary index.text.toList o) :
  index.resolve o = .error (.notBoundary o)
  := by
  have hcut : cut? index.text.toList o = none := by
    rw [Option.eq_none_iff_forall_ne_some]
    intro r hr
    obtain ⟨huv, ho⟩ := cut?_eq_some_iff.mp hr
    exact hb ⟨r.1, r.2, huv, ho⟩
  rw [resolve, if_neg (Nat.not_lt.mpr ho), hcut]
  rfl

/-- The index gives every offset the position that the text gives it, or the same fault. -/
theorem Sound.resolve_eq_ofOffset (h : index.Sound) (o : Nat) :
  index.resolve o = Position.ofOffset index.text o
  := by
  by_cases hlt : index.text.utf8ByteSize < o
  · rw [resolve, Position.ofOffset, if_pos hlt, if_pos hlt]
  · rw [Nat.not_lt] at hlt
    by_cases hb : Boundary index.text.toList o
    · obtain ⟨p, q, htext, rfl⟩ := hb
      rw [h.resolve_eq htext, ← Position.foldl_next_eq]
      apply Eq.symm
      rw [Position.ofOffset_eq_ok_iff]
      exact ⟨p, q, htext, rfl, rfl⟩
    · rw [resolve_of_not_boundary hlt hb, Position.ofOffset_of_not_boundary hb hlt]

/-- The offsets that have a position are the character boundaries of the text. -/
theorem Sound.exists_resolve_iff (h : index.Sound) {o : Nat} :
  (∃ p, index.resolve o = .ok p)
    ↔ o ≤ index.text.utf8ByteSize ∧ Boundary index.text.toList o
  := by
  rw [h.resolve_eq_ofOffset, Position.exists_ofOffset_iff, utf8ByteSize_eq_byteLength]
  constructor
  · intro hb
    exact ⟨hb.le, hb⟩
  · rintro ⟨-, hb⟩
    exact hb

/-- The bounds of a line by the index are those by the text. -/
theorem Sound.bounds_eq (h : index.Sound) {o : Nat} (ho : o ≤ index.text.utf8ByteSize) :
  index.lineStart o = Fettle.lineStart index.text o
    ∧ index.lineEnd o = Fettle.lineEnd index.text o
  := by
  rw [utf8ByteSize_eq_byteLength] at ho
  obtain ⟨u, m, v, hline⟩ := exists_inLine ho
  rw [h.lineStart_inLine hline, h.lineEnd_inLine hline, Fettle.lineStart_inLine hline,
    Fettle.lineEnd_inLine hline]
  exact ⟨rfl, rfl⟩

theorem Sound.lineCount_eq (h : index.Sound) :
  index.lineCount = Fettle.lineCount index.text
  := by
  rw [lineCount, ← Array.length_toList, h, List.length_cons, length_feedEnds, Fettle.lineCount,
    length_lines]

/-! ### Documents of arenas -/

/-- The index of an arena that can be reached is that of its document. -/
theorem ofArena_eq {a : Arena} (h : a.Reachable) :
  (ofArena a).Sound ∧ (ofArena a).text = a.text
  := by
  obtain ⟨t, ht, hsound⟩ := h.exists_represents
  obtain ⟨hindex, htext⟩ := ofParts_eq (a.leaves.map fun id => (a.leafText? id).getD "")
  use hindex
  have htexts : a.leaves.map (fun id => (a.leafText? id).getD "")
      = t.attached.tokens.map Prod.snd := by
    have htokens := congrArg (List.map fun l => Option.getD l.2 "") (ht.tokens_eq hsound)
    rw [List.map_map, List.map_map] at htokens
    exact htokens
  rw [ofArena, htext, htexts, ht.text_eq hsound, Tree.text, Forest.text_eq_join_leaves,
    Forest.tokens, List.map_map]
  rfl

end PositionIndex

namespace Arena

variable {a : Arena}

/-- The index of a document, however it is cut into leaves, gives positions to the character
boundaries up to the end and to no other offsets.  The line counts the line feeds before, and the
column the characters after the last of them, so that positions come in the order of offsets.  The
bounds of the line of an offset enclose it, with line feeds outside only. -/
theorem Reachable.resolve_iff (h : a.Reachable) :
  (∀ o, (∃ p, (PositionIndex.ofArena a).resolve o = .ok p)
    ↔ o ≤ a.text.utf8ByteSize ∧ Boundary a.text.toList o)
  ∧ (∀ u v, a.text.toList = u ++ v → (PositionIndex.ofArena a).resolve (byteLength u)
    = .ok ⟨u.count '\n' + 1, (u.reverse.takeWhile (· ≠ '\n')).length + 1⟩)
  ∧ (∀ o o' p p', (PositionIndex.ofArena a).resolve o = .ok p →
    (PositionIndex.ofArena a).resolve o' = .ok p' → o < o' → p.Before p')
  ∧ ∀ o ≤ a.text.utf8ByteSize, ∃ u m v, InLine a.text.toList o u m v
    ∧ (PositionIndex.ofArena a).lineStart o = byteLength u
    ∧ (PositionIndex.ofArena a).lineEnd o = byteLength (u ++ m)
  := by
  obtain ⟨hindex, htext⟩ := PositionIndex.ofArena_eq h
  rw [← htext]
  refine ⟨?_, ?_, ?_, ?_⟩
  · intro o
    apply hindex.exists_resolve_iff
  · intro u v
    apply hindex.resolve_eq
  · intro o o' p p' hp hp'
    rw [hindex.resolve_eq_ofOffset] at hp hp'
    apply Position.before_of_lt hp hp'
  · intro o ho
    rw [utf8ByteSize_eq_byteLength] at ho
    obtain ⟨u, m, v, hline⟩ := exists_inLine ho
    exact ⟨u, m, v, hline, hindex.lineStart_inLine hline, hindex.lineEnd_inLine hline⟩

/-- The document is cut after a line feed and before one, and its first character has two bytes. -/
theorem resolve_iff_of_cut :
  let leaves := [(.identifier, "é"), (.whitespace, "\n"), (.token, "a\nb")]
  ∃ a, ofLeaves leaves = .ok a
    ∧ (PositionIndex.ofArena a).resolve 5 = .ok ⟨3, 1⟩
    ∧ (¬ ∃ p, (PositionIndex.ofArena a).resolve 1 = .ok p)
    ∧ ∃ u m v, InLine a.text.toList 3 u m v
      ∧ (PositionIndex.ofArena a).lineStart 3 = byteLength u
      ∧ (PositionIndex.ofArena a).lineEnd 3 = byteLength (u ++ m)
  := by
  intro leaves
  obtain ⟨a, ha, htext⟩ : ∃ a, ofLeaves leaves = .ok a
      ∧ a.text.toList = ['é', '\n', 'a', '\n', 'b'] := ⟨_, rfl, by decide⟩
  have hreach : a.Reachable := .built ha
  obtain ⟨hiff, hat, -, hlines⟩ := Reachable.resolve_iff hreach
  use a, ha
  refine ⟨hat ['é', '\n', 'a', '\n'] ['b'] htext, ?_, hlines 3 ?_⟩
  · rw [hiff, htext, boundary_one_iff]
    exact fun hone => absurd hone.2 (by decide)
  · rw [utf8ByteSize_eq_byteLength, htext]
    decide

end Arena

end Fettle
