import Fettle.Proofs.Rules.Places
import Fettle.Proofs.Text.LastLine

/-!
# How far the standard rules reach

What a standard rule finds at a leaf is inside of the leaf or at one of its ends (`Within`), with
one exception: what follows a comment is reported where the next element on the line begins
(`Follows`).  This is `within_or_follows`.

What a fix changes is at its leaf.  An edit at another leaf stays on one side of a leaf that is
not white space within a line (`EditedAt.of_append_cons`), and a leaf that is trimmed keeps a line
feed at its start, if it is white space, and its last line, if that does not end the document
(`Trimmed.head?_feed`, `Trimmed.exists_last_line`).
-/

namespace Fettle

open Kotlin Text

/-! ### The places of findings -/

/-- The offset is in a leaf that comes after some others, or at one of its ends. -/
def Within (a : List (Leaf NodeId)) (l : Leaf NodeId) (o : Nat) : Prop :=
  width a ≤ o ∧ o ≤ width (a ++ [l])

/-- The offset is where the next element on the line begins between some leaves and others. -/
def Follows (a b : List (Leaf NodeId)) (o : Nat) : Prop :=
  ∃ gap n rest, b = gap ++ n :: rest ∧ (∀ w ∈ gap, w.isInlineSpace = true) ∧ o = width (a ++ gap)

theorem width_concat (a : List (Leaf NodeId)) (l : Leaf NodeId) :
  width (a ++ [l]) = width a + byteLength l.text.toList
  := by
  rw [width_append, width, width, Nat.add_zero, utf8ByteSize_eq_byteLength]

section

variable {s : Site} {a b : List (Leaf NodeId)} {l : Leaf NodeId} (h : s.At a l b) {f : Finding}

include h

theorem Site.At.within {delta : Nat} (hdelta : delta ≤ byteLength l.text.toList) :
  Within a l (s.tree.startOffset s.node + delta)
  := by
  rw [h.startOffset_eq, Within, width_concat]
  omega

theorem CommentWrapping.place_of_mem_findings (hf : f ∈ (inspect s).findings) :
  f.offset = width a ∧ (f.correctable = true → '\n' ∉ l.text.toList)
    ∨ Follows (a ++ [l]) b f.offset
  := by
  rw [inspect] at hf
  split at hf
  · have hlayout := h.layout_eq
    cases hcase : layout s with
    | fine =>
      rw [hcase] at hf
      cases hf
    | alone =>
      rw [hcase] at hf hlayout
      obtain rfl := List.mem_singleton.mp hf
      exact .inl ⟨h.startOffset_eq, fun _ => (Layout.of_eq_alone hlayout.symm).1⟩
    | shortAfter =>
      rw [hcase] at hf hlayout
      obtain rfl := List.mem_singleton.mp hf
      exact .inl ⟨h.startOffset_eq, fun _ => (Layout.of_eq_shortAfter hlayout.symm).1⟩
    | spanning | between | longAfter =>
      rw [hcase] at hf
      obtain rfl := List.mem_singleton.mp hf
      left
      use h.startOffset_eq
      intro hcorrectable
      cases hcorrectable
    | followed id =>
      rw [hcase] at hf hlayout
      obtain rfl := List.mem_singleton.mp hf
      obtain ⟨-, n, hnext, rfl, hbreak⟩ := Layout.of_eq_followed hlayout.symm
      obtain ⟨gap, rest, rfl, hgap⟩ := exists_gap_of_neighbour? hnext hbreak
      have hleaves : s.tree.leaves = (a ++ [l] ++ gap) ++ n :: rest := by
        rw [h.leaves]
        simp
      right
      use gap, n, rest, rfl
      constructor
      · rcases hgap with ⟨rfl, -⟩ | ⟨w, hw, rfl⟩
        · simp
        · simpa using hw
      · apply h.sound.startOffset_leaf hleaves
  · cases hf

/-- What a standard rule finds at a leaf is in the leaf, or where the next element on the line
begins. -/
theorem within_or_follows {r : Rule} (hr : r ∈ Preset.standard.rules)
    (hf : f ∈ (r.inspect s).findings) :
  Within a l f.offset ∨ Follows (a ++ [l]) b f.offset
  := by
  simp only [Preset.rules, List.mem_cons, List.not_mem_nil, or_false] at hr
  rcases hr with rfl | rfl | rfl | rfl
  · rcases CommentWrapping.place_of_mem_findings h hf with ⟨hstart, -⟩ | hnext
    · left
      rw [hstart, Within, width_concat]
      omega
    · exact .inr hnext
  · obtain ⟨delta, hdelta, rfl⟩ := List.mem_map.mp hf
    exact .inl (h.within (NoTrailingSpaces.boundary_of_mem_marks h hdelta).le)
  · change f ∈ (NoMultiSpaces.inspect s).findings at hf
    rw [NoMultiSpaces.inspect] at hf
    split at hf
    · rename_i hlong
      obtain rfl := List.mem_singleton.mp hf
      obtain ⟨-, -, -, hlength⟩ := (NoMultiSpaces.isLong_iff h).mp hlong
      exact .inl (h.within (by omega))
    · cases hf
  · change f ∈ (NoConsecutiveBlankLines.inspect s).findings at hf
    rw [NoConsecutiveBlankLines.inspect] at hf
    split at hf
    · rename_i hmany
      obtain rfl := List.mem_singleton.mp hf
      exact .inl (h.within (NoConsecutiveBlankLines.boundary_of_isExcessive h hmany).le)
    · cases hf

end

/-! ### The numbers of nodes -/

theorem CommentWrapping.size_le_corrected {s : Site} {t : Tree} {layout : Layout}
    (he : corrected s layout = .ok t) :
  s.tree.size ≤ t.size
  := by
  cases layout with
  | fine | spanning | between | longAfter =>
    obtain rfl := Except.ok.inj he
    apply Nat.le_refl
  | alone =>
    obtain ⟨⟨i, u⟩, hu, rfl⟩ := Except.map_eq_ok_iff.mp he
    apply Tree.size_le_replace hu
  | shortAfter =>
    rw [corrected] at he
    split at he
    · cases he
    · rename_i o u hu
      obtain ⟨⟨i, v⟩, hv, rfl⟩ := Except.map_eq_ok_iff.mp he
      apply Nat.le_trans (Tree.size_le_setSpaceBefore hu) (Tree.size_le_replace hv)
  | followed n =>
    obtain ⟨⟨o, u⟩, hu, rfl⟩ := Except.map_eq_ok_iff.mp he
    apply Tree.size_le_setSpaceBefore hu

/-- Fixes of the standard rules take no numbers back. -/
theorem size_le_of_fix {r : Rule} (hr : r ∈ Preset.standard.rules) {s : Site} {t : Tree}
    (he : r.fix s = .ok t) :
  s.tree.size ≤ t.size
  := by
  have hsame (he : .ok s.tree = (.ok t : Except Fault Tree)) : s.tree.size ≤ t.size := by
    rw [Except.ok.inj he]
  have hreplace {new : NewNode} (he : (s.tree.replace s.node new).map (·.2) = .ok t) :
      s.tree.size ≤ t.size := by
    obtain ⟨⟨i, u⟩, hu, rfl⟩ := Except.map_eq_ok_iff.mp he
    apply Tree.size_le_replace hu
  simp only [Preset.rules, List.mem_cons, List.not_mem_nil, or_false] at hr
  rcases hr with rfl | rfl | rfl | rfl
  · change CommentWrapping.fix s = .ok t at he
    rw [CommentWrapping.fix] at he
    split at he
    · apply CommentWrapping.size_le_corrected he
    · apply hsame he
  · change NoTrailingSpaces.fix s = .ok t at he
    rw [NoTrailingSpaces.fix] at he
    split at he
    · apply hsame he
    · split at he
      · apply Tree.size_le_remove he
      · apply hreplace he
  · change NoMultiSpaces.fix s = .ok t at he
    rw [NoMultiSpaces.fix] at he
    split at he
    · apply hreplace he
    · apply hsame he
  · change NoConsecutiveBlankLines.fix s = .ok t at he
    rw [NoConsecutiveBlankLines.fix] at he
    split at he
    · apply hreplace he
    · apply hsame he

/-! ### Fixes at a leaf with a line feed -/

theorem CommentWrapping.eq_rule_of_id {r : Rule} (hr : r ∈ Preset.standard.rules)
    (hid : r.id = rule.id) :
  r = rule
  := by
  simp only [Preset.rules, List.mem_cons, List.not_mem_nil, or_false] at hr
  rcases hr with rfl | rfl | rfl | rfl
  · rfl
  · exact absurd hid (by decide)
  · exact absurd hid (by decide)
  · exact absurd hid (by decide)

/-- At a leaf with a line feed that is no block comment to be wrapped, the standard rules do
nothing but trim. -/
theorem trimAt_of_fix {r : Rule} (hr : r ∈ Preset.standard.rules) {s : Site} {t : Tree}
    (h : s.tree.Sound) (hn : s.tree.isAttached s.node = true) (hfeed : '\n' ∈ s.text)
    (hwrap : s.kind = .blockComment → r.id ≠ CommentWrapping.rule.id) (he : r.fix s = .ok t) :
  t = s.tree ∨ TrimAt s.node s.tree.size s.tree.leaves t.leaves
  := by
  simp only [Preset.rules, List.mem_cons, List.not_mem_nil, or_false] at hr
  rcases hr with rfl | rfl | rfl | rfl
  · have hkind : s.kind ≠ .blockComment := fun hkind => hwrap hkind rfl
    change CommentWrapping.fix s = .ok t at he
    rw [CommentWrapping.fix, if_neg hkind] at he
    exact .inl (Except.ok.inj he).symm
  · apply (NoTrailingSpaces.trimAt_of_fix h hn he).imp And.left And.right
  · have hshort : ¬ NoMultiSpaces.isLong s = true := by
      simp [NoMultiSpaces.isLong, hfeed]
    change NoMultiSpaces.fix s = .ok t at he
    rw [NoMultiSpaces.fix, if_neg hshort] at he
    exact .inl (Except.ok.inj he).symm
  · apply (NoConsecutiveBlankLines.trimAt_of_fix h hn he).imp And.left And.right

section

variable {a b : List (Leaf NodeId)} {l : Leaf NodeId} {x : List Char} (h : Trimmed a b l x)

include h

/-- White space that begins with a line feed still does when it is trimmed. -/
theorem Trimmed.head?_feed (hkind : l.kind = .whitespace)
    (hl : l.text.toList.head? = some '\n') :
  x.head? = some '\n'
  := by
  obtain ⟨r, hr⟩ := List.head?_eq_some_iff.mp hl
  cases h with
  | space =>
    rw [hr]
    apply NoTrailingSpaces.head?_spaceKept_feed
  | comment feed hcomment =>
    rw [hkind] at hcomment
    cases hcomment
  | collapsed =>
    rw [hr]
    apply NoConsecutiveBlankLines.head?_collapsed_feed

/-- A leaf before another one on the same line keeps its last line when it is trimmed, but for
blanks at the end of a comment. -/
theorem Trimmed.exists_last_line {n : Leaf NodeId} (hb : b.head? = some n)
    (hn : '\n' ∉ n.text.toList) {u last : List Char} (hl : l.text.toList = u ++ '\n' :: last)
    (hlast : '\n' ∉ last) (hcomment : l.kind.isComment = true → trimEnd last = last) :
  ∃ w, x = w ++ '\n' :: last
  := by
  have hmore : b.head?.isNone = false := by
    rw [hb]
    rfl
  cases h with
  | space =>
    rw [hmore, hl]
    apply NoTrailingSpaces.exists_spaceKept_eq hlast
  | comment feed kind follows =>
    have hfeed : feed = false := by
      rw [follows, hb, Option.any_some, beq_eq_false_iff_ne]
      intro hhead
      apply hn (List.mem_of_head? hhead)
    rw [hfeed, hl]
    apply NoTrailingSpaces.exists_commentKept_eq hlast u (hcomment kind)
  | collapsed =>
    rw [hl]
    apply NoConsecutiveBlankLines.exists_collapsed_eq hlast

end

/-! ### Edits on one side of a leaf -/

/-- A part that an entry does not belong to is before it or after it. -/
theorem append_cons_eq_append_iff {α : Type} {a b p m q : List α} {x : α} (hx : x ∉ m) :
  a ++ x :: b = p ++ m ++ q
    ↔ (∃ r, a = p ++ m ++ r ∧ q = r ++ x :: b) ∨ ∃ r, b = r ++ m ++ q ∧ p = a ++ x :: r
  := by
  constructor
  · intro h
    rcases List.append_eq_append_iff.mp h with ⟨r, hpm, hrest⟩ | ⟨r, ha, hq⟩
    · -- `x` is at the front of what is left of `p ++ m`, or of `q`
      cases r with
      | nil =>
        rw [List.append_nil] at hpm
        exact .inl ⟨[], by rw [hpm, List.append_nil], hrest.symm⟩
      | cons y r =>
        obtain ⟨rfl, rfl⟩ := List.cons.inj hrest
        rcases List.append_eq_append_iff.mp hpm with ⟨k, ha, hm⟩ | ⟨k, hp, hm⟩
        · apply absurd _ hx
          rw [hm]
          simp
        · cases k with
          | nil =>
            apply absurd _ hx
            rw [List.nil_append] at hm
            rw [← hm]
            apply List.mem_cons_self
          | cons z k =>
            obtain ⟨rfl, rfl⟩ := List.cons.inj hm
            exact .inr ⟨k, rfl, hp⟩
    · exact .inl ⟨r, ha, hq⟩
  · rintro (⟨r, rfl, rfl⟩ | ⟨r, rfl, rfl⟩)
    · simp
    · simp

namespace EditedAt

variable {n : NodeId} {ls ls' : List (Leaf NodeId)}

theorem exists_mem (h : EditedAt n ls ls') :
  ∃ l ∈ ls, l.id = n
  := by
  obtain ⟨p, m, m', q, rfl, -, ⟨l, hl, hid⟩, -⟩ := h
  exact ⟨l, by simp [hl], hid⟩

/-- An edit at another leaf is before or after a leaf that is not white space within a line. -/
theorem of_append_cons {a b : List (Leaf NodeId)} {l : Leaf NodeId}
    (h : EditedAt n (a ++ l :: b) ls') (hid : l.id ≠ n) (hspace : l.isInlineSpace = false) :
  (∃ a', EditedAt n a a' ∧ ls' = a' ++ l :: b) ∨ ∃ b', EditedAt n b b' ∧ ls' = a ++ l :: b'
  := by
  obtain ⟨p, m, m', q, hls, rfl, hnode, hm⟩ := h
  have hl : l ∉ m := by
    intro hmem
    rcases hm l hmem with heq | heq
    · exact hid heq
    · rw [hspace] at heq
      cases heq
  rcases (append_cons_eq_append_iff hl).mp hls with ⟨r, rfl, rfl⟩ | ⟨r, rfl, rfl⟩
  · left
    refine ⟨p ++ m' ++ r, ⟨p, m, m', r, rfl, rfl, hnode, hm⟩, ?_⟩
    simp
  · right
    refine ⟨r ++ m' ++ q, ⟨r, m, m', q, rfl, rfl, hnode, hm⟩, ?_⟩
    simp

end EditedAt

end Fettle
