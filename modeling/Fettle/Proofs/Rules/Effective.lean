import Fettle.Proofs.Kotlin.Reread
import Fettle.Proofs.Rules.Orderly
import Fettle.Proofs.Rules.Success

/-!
# Fixes that change the text

A standard rule fixes a node exactly if it has found something there that it can correct.  Where
it has not, its fix leaves the tree as it is (`fix_eq_of_uncorrectable`).  Where it has, the fix
rewrites the leaves, and every `Rewrite` makes another text out of them, if comments begin as
comments do (`Rewrite.chars_ne`): lines that are kept are shorter than those that were marked, a
block comment begins with other characters than an end-of-line comment, and a comment that is
followed on its line is parted from what follows by a line feed.  Both are in
`exists_fix_effective`.
-/

namespace Fettle

open Kotlin

/-! ### Converted comments -/

/-- A comment is another one as an end-of-line comment. -/
theorem BeginsComment.asEolComment_ne {s : List Char} (h : BeginsComment s) :
  (CommentWrapping.asEolComment s).toList ≠ s
  := by
  obtain ⟨d, rest, rfl | rfl, rfl⟩ := h
  · intro heq
    -- the whole comment comes after a mark, and what is trimmed does not make up for the mark
    have hlead : Text.trimEnd [' ', '/', '/'] = [' ', '/', '/'] := by
      decide
    have htrim : Text.trim ('/' :: '/' :: rest) = '/' :: '/' :: Text.trimEnd rest := by
      rw [Text.trim_cons_of_nonblank (by decide)]
      congr 1
      apply Text.trimEnd_append_of_trimEnd_eq (s := ['/']) (by decide)
    have hnone : Text.dropLead? ['/', '*'] ('/' :: '/' :: rest) = none := rfl
    have hrest : [' ', '/', '/'] ++ Text.trimEnd rest = rest := by
      rw [CommentWrapping.asEolComment, String.toList_ofList, hnone, Option.bind_none,
        Option.getD_none, htrim] at heq
      exact (List.cons.inj (List.cons.inj heq).2).2
    have hend := Text.trimEnd_append_of_trimEnd_eq hlead (Text.trimEnd rest)
    rw [hrest, Text.trimEnd_trimEnd] at hend
    have hlength := congrArg List.length hend
    rw [List.length_append, List.length_cons, List.length_cons, List.length_singleton] at hlength
    omega
  · intro heq
    rw [CommentWrapping.asEolComment, String.toList_ofList] at heq
    simp at heq

/-! ### Rewritten texts -/

section

variable {a b : List (Leaf NodeId)}

/-- Leaves with another text in the place of some make another text. -/
theorem chars_ne_of_middle {m k : List (Leaf NodeId)} (h : chars k ≠ chars m) :
  chars (a ++ (k ++ b)) ≠ chars (a ++ (m ++ b))
  := by
  simpa only [chars_append, ne_eq, List.append_cancel_left_eq, List.append_cancel_right_eq] using h

theorem chars_ne_of_leaf {l l' : Leaf NodeId} (h : l'.text.toList ≠ l.text.toList) :
  chars (a ++ l' :: b) ≠ chars (a ++ l :: b)
  := by
  apply chars_ne_of_middle (m := [l]) (k := [l'])
  simpa using h

end

/-- A comment with white space before it, if any, is not the end-of-line comment that it becomes
after one space. -/
theorem chars_attach_ne {old : List (Leaf NodeId)} {c : Leaf NodeId} (j i : NodeId)
    (hc : BeginsComment c.text.toList)
    (hold : old = [] ∨ ∃ w : Leaf NodeId, leafFault? w.kind w.text = none ∧ w.kind = .whitespace
      ∧ old = [w]) :
  chars [⟨j, .whitespace, " "⟩, ⟨i, .eolComment, CommentWrapping.asEolComment c.text.toList⟩]
    ≠ chars (old ++ [c])
  := by
  have hspace : " ".toList = [' '] := rfl
  intro h
  rcases hold with rfl | ⟨w, hw, hkind, rfl⟩
  · obtain ⟨d, rest, -, heq⟩ := hc
    have hall : ' ' :: (CommentWrapping.asEolComment c.text.toList).toList = '/' :: d :: rest := by
      rw [← heq]
      simpa [hspace] using h
    exact absurd (List.cons.inj hall).1 (by decide)
  · obtain ⟨-, hsome, hblank⟩ := leafFault?_eq_none_iff.mp hw
    have hblank := List.all_eq_true.mp (hblank hkind)
    cases htext : w.text.toList with
    | nil => exact hsome (String.toList_eq_nil_iff.mp htext)
    | cons x rest =>
      have hall : ' ' :: (CommentWrapping.asEolComment c.text.toList).toList
          = x :: (rest ++ c.text.toList) := by
        simpa [htext, hspace] using h
      have hrest := (List.cons.inj hall).2
      cases rest with
      | nil => exact hc.asEolComment_ne hrest
      | cons y rest =>
        -- the end-of-line comment would begin with a blank
        have hy : Text.isBlank y = true := by
          apply hblank y
          rw [htext]
          simp
        obtain ⟨d, u, -, heq⟩ := beginsComment_asEolComment c.text.toList
        rw [heq, List.cons_append] at hrest
        rw [← (List.cons.inj hrest).1] at hy
        exact absurd hy (by decide)

/-- Every change makes another text, if comments begin as comments do. -/
theorem Rewrite.chars_ne {ls ls' : List (Leaf NodeId)} (h : Rewrite ls ls') (hmarked : Marked ls)
    (hfault : ∀ l ∈ ls, leafFault? l.kind l.text = none) :
  chars ls' ≠ chars ls
  := by
  have hcomment {c : Leaf NodeId} (hc : c ∈ ls) (hkind : c.kind = .blockComment) :
      BeginsComment c.text.toList := by
    apply hmarked c hc
    rw [hkind]
    rfl
  cases h with
  | @convert a b c i kind =>
    apply chars_ne_of_leaf
    apply BeginsComment.asEolComment_ne (hcomment (by simp) kind)
  | @attach a old b c j i kind _ _ _ space =>
    rw [List.append_assoc, List.append_cons old]
    apply chars_ne_of_middle (k := [_, _])
    apply chars_attach_ne j i (hcomment (by simp) kind)
    rcases space with ⟨rfl, -⟩ | ⟨w, hw, rfl⟩
    · exact .inl rfl
    · exact .inr ⟨w, hfault w (by simp), (Leaf.isInlineSpace_iff.mp hw).1, rfl⟩
  | @separate a gap b c n j kind _ _ space =>
    rw [List.append_cons a c (_ :: n :: b), List.append_cons a c (gap ++ n :: b)]
    apply chars_ne_of_middle (m := gap) (k := [_])
    intro h
    have hfeed : '\n' ∈ chars gap := by
      rw [← h]
      simpa using feed_mem_indentAfter a
    rcases space with ⟨rfl, -⟩ | ⟨w, hw, rfl⟩
    · cases hfeed
    · apply (Leaf.isInlineSpace_iff.mp hw).2
      simpa using hfeed
  | @single a b w i space long =>
    have hone : " ".utf8ByteSize < 2 := by
      decide
    apply chars_ne_of_leaf
    apply ne_of_apply_ne Text.byteLength
    rw [← Text.utf8ByteSize_eq_byteLength, ← Text.utf8ByteSize_eq_byteLength]
    exact Nat.ne_of_lt (Nat.lt_of_lt_of_le hone long)
  | @trimSpace a b w i kind marked =>
    apply chars_ne_of_leaf
    rw [String.toList_ofList]
    apply ne_of_apply_ne Text.byteLength
    apply Nat.ne_of_lt (NoTrailingSpaces.byteLength_unlines_spaceKept_lt marked)
  | @dropSpace a b w kind marked left =>
    apply chars_ne_of_middle (m := [w]) (k := [])
    have hlt := NoTrailingSpaces.byteLength_unlines_spaceKept_lt marked
    rw [left] at hlt
    simpa using ne_of_apply_ne Text.byteLength (Nat.ne_of_lt hlt)
  | @trimComment a b c i feed kind _ marked =>
    apply chars_ne_of_leaf
    rw [String.toList_ofList]
    apply ne_of_apply_ne Text.byteLength
    apply Nat.ne_of_lt (NoTrailingSpaces.byteLength_unlines_commentKept_lt marked)
  | @collapse a b w i kind _ many =>
    apply chars_ne_of_leaf
    rw [String.toList_ofList]
    intro heq
    have hcount := NoConsecutiveBlankLines.count_collapsed many
    rw [heq] at hcount
    omega

/-! ### Fixes without a finding -/

theorem CommentWrapping.fix_eq_of_uncorrectable {s : Site}
    (h : ∀ f ∈ (inspect s).findings, f.correctable = false) :
  fix s = .ok s.tree
  := by
  rw [inspect] at h
  rw [fix]
  split
  · rename_i hkind
    rw [if_pos hkind] at h
    cases hlayout : layout s with
    | fine | spanning | between | longAfter => rfl
    | alone | shortAfter | followed =>
      rw [hlayout] at h
      cases h _ (List.mem_singleton_self _)
  · rfl

theorem NoTrailingSpaces.fix_eq_of_uncorrectable {s : Site}
    (h : ∀ f ∈ (inspect s).findings, f.correctable = false) :
  fix s = .ok s.tree
  := by
  have hnone : marks s = [] := by
    rw [List.eq_nil_iff_forall_not_mem]
    intro o ho
    cases h _ (List.mem_map_of_mem ho)
  rw [fix, hnone]
  rfl

theorem NoMultiSpaces.fix_eq_of_uncorrectable {s : Site}
    (h : ∀ f ∈ (inspect s).findings, f.correctable = false) :
  fix s = .ok s.tree
  := by
  rw [inspect] at h
  rw [fix]
  split
  · rename_i hlong
    rw [if_pos hlong] at h
    cases h _ (List.mem_singleton_self _)
  · rfl

theorem NoConsecutiveBlankLines.fix_eq_of_uncorrectable {s : Site}
    (h : ∀ f ∈ (inspect s).findings, f.correctable = false) :
  fix s = .ok s.tree
  := by
  rw [inspect] at h
  rw [fix]
  split
  · rename_i hmany
    rw [if_pos hmany] at h
    cases h _ (List.mem_singleton_self _)
  · rfl

/-- Where a standard rule finds nothing that it can correct, its fix does nothing. -/
theorem fix_eq_of_uncorrectable {r : Rule} (hr : r ∈ Preset.standard.rules) {s : Site}
    (h : ∀ f ∈ (r.inspect s).findings, f.correctable = false) :
  r.fix s = .ok s.tree
  := by
  simp only [Preset.rules, List.mem_cons, List.not_mem_nil, or_false] at hr
  rcases hr with rfl | rfl | rfl | rfl
  · apply CommentWrapping.fix_eq_of_uncorrectable h
  · apply NoTrailingSpaces.fix_eq_of_uncorrectable h
  · apply NoMultiSpaces.fix_eq_of_uncorrectable h
  · apply NoConsecutiveBlankLines.fix_eq_of_uncorrectable h

/-! ### Fixes and findings -/

/-- The fix of a standard rule at a node of a document whose comments begin as comments do
succeeds.  It leaves the tree as it is if the rule finds nothing there that it can correct, and
changes the text if it does. -/
theorem exists_fix_effective {r : Rule} (hr : r ∈ Preset.standard.rules) {s : Site}
    (h : s.tree.Sound) (hn : s.tree.isAttached s.node = true) (hmarked : Marked s.tree.leaves) :
  ∃ t, r.fix s = .ok t
    ∧ ((∀ f ∈ (r.inspect s).findings, f.correctable = false) → t = s.tree)
    ∧ ((∃ f ∈ (r.inspect s).findings, f.correctable = true) → t.text ≠ s.tree.text)
  := by
  obtain ⟨t, ht⟩ := exists_fix hr h hn fun l hl hkind => (hmarked l hl hkind).exists_nonblank
  refine ⟨t, ht, ?same, ?other⟩
  case same =>
    intro hnone
    rw [fix_eq_of_uncorrectable hr hnone] at ht
    exact (Except.ok.inj ht).symm
  case other =>
    rintro ⟨f, hf, hcorrectable⟩
    obtain ⟨-, hrewrite | ⟨-, hnone⟩⟩ := rewrite_of_fix hr h hn ht
    · have hfault : ∀ l ∈ s.tree.leaves, leafFault? l.kind l.text = none := by
        intro l hl
        obtain ⟨a, b, hab⟩ := List.append_of_mem hl
        apply h.leafFault?_leaf hab
      intro heq
      apply hrewrite.chars_ne hmarked hfault
      rw [chars_leaves, chars_leaves, heq]
    · rw [hnone f hf] at hcorrectable
      cases hcorrectable

/-- A block comment after an element, at the end of the document, is rewritten; the element is
not. -/
theorem exists_fix_effective_attached :
  let t : Tree := .ofRoot .file none (.leaf () .identifier "x" (.leaf () .whitespace "  "
    (.leaf () .blockComment "/* a */" .nil)))
  let s (n : NodeId) : Site := ⟨t, n, ⟨"standard:comment-wrapping"⟩, .ofList []⟩
  (CommentWrapping.rule ∈ Preset.standard.rules ∧ t.Sound ∧ t.isAttached 3 = true
    ∧ t.isAttached 1 = true ∧ Marked t.leaves)
  ∧ (∃ f ∈ (CommentWrapping.rule.inspect (s 3)).findings, f.correctable = true)
  ∧ (∃ u, CommentWrapping.rule.fix (s 3) = .ok u ∧ u.text ≠ t.text)
  ∧ (CommentWrapping.rule.inspect (s 1)).findings = []
  ∧ CommentWrapping.rule.fix (s 1) = .ok t
  := by
  intro t s
  have hr : CommentWrapping.rule ∈ Preset.standard.rules := List.mem_cons_self
  have h : t.Sound := by
    apply Tree.Sound.ofRoot
    · rfl
    · decide
  have hleaves : t.leaves = [⟨1, .identifier, "x"⟩, ⟨2, .whitespace, "  "⟩,
      ⟨3, .blockComment, "/* a */"⟩] := rfl
  have hmarked : Marked t.leaves := by
    rw [hleaves]
    simp [Marked, AllComments, Kind.isComment, BeginsComment]
  have hcomment : t.isAttached 3 = true := by
    decide
  have helement : t.isAttached 1 = true := by
    decide
  have hfound : ∃ f ∈ (CommentWrapping.rule.inspect (s 3)).findings, f.correctable = true := by
    decide +kernel
  have hnone : (CommentWrapping.rule.inspect (s 1)).findings = [] := by
    decide +kernel
  use ⟨hr, h, hcomment, helement, hmarked⟩, hfound
  obtain ⟨u, hu, -, hchanged⟩ := exists_fix_effective hr (s := s 3) h hcomment hmarked
  obtain ⟨u', hu', hsame, -⟩ := exists_fix_effective hr (s := s 1) h helement hmarked
  obtain rfl : u' = t := by
    apply hsame
    simp [hnone]
  exact ⟨⟨u, hu, hchanged hfound⟩, hnone, hu'⟩

end Fettle
