import Fettle.Proofs.Rules.Rewrite
import Fettle.Proofs.Text.Thinned
import Fettle.Proofs.Tree.Intact

/-!
# Fixes that succeed

An edit at a leaf of a sound tree is refused only for the leaf that it would put there.  The
standard rules put no such leaf there, as long as no comment is blank: `exists_fix` says that
each of their fixes at an attached node yields a tree.
-/

namespace Fettle

/-! ### Edits at a leaf -/

namespace Tree.Sound

variable {t : Tree} (h : t.Sound) {l : Leaf NodeId} {a b : List (Leaf NodeId)}
  (hl : t.leaves = a ++ l :: b)

include h hl

theorem anchorFault?_leaf :
  t.anchorFault? l.id = none
  := h.anchorFault?_eq_none_iff.mpr (mem_children hl)

theorem exists_remove :
  ∃ t', t.remove l.id = .ok t'
  := by
  rw [Tree.remove, h.anchorFault?_leaf hl]
  exact ⟨_, rfl⟩

variable {k : Kind} {s : String} (hs : leafFault? k s = none)

include hs

theorem exists_replace :
  ∃ r, t.replace l.id (.ofLeaf k s) = .ok r
  := by
  have hnew : (NewNode.ofLeaf k s).fault? = none := by
    rw [Node.fault?, Node.toForest, Forest.fault?, hs]
    rfl
  rw [Tree.replace, h.anchorFault?_leaf hl, hnew]
  exact ⟨_, rfl⟩

theorem exists_insertBefore :
  ∃ r, t.insertBefore l.id (.ofLeaf k s) = .ok r
  := by
  have hnew : (NewNode.ofLeaf k s).fault? = none := by
    rw [Node.fault?, Node.toForest, Forest.fault?, hs]
    rfl
  rw [Tree.insertBefore, h.anchorFault?_leaf hl, hnew]
  exact ⟨_, rfl⟩

omit hs in
theorem exists_setSpaceBefore (hs : leafFault? .whitespace s = none) :
  ∃ r, t.setSpaceBefore l.id s = .ok r
  := by
  have hne := (leafFault?_eq_none_iff.mp hs).2.1
  have hspace : spaceFault? s = none := by
    rw [spaceFault?, if_neg hne, hs]
  rw [Tree.setSpaceBefore, hspace, h.anchorFault?_leaf hl, h.prevLeaf?_leaf hl]
  cases hold : a.getLast?.filter fun l => l.kind = .whitespace with
  | none =>
    obtain ⟨r, hr⟩ := h.exists_insertBefore hl hs
    simp only [Option.or_none, if_neg hne]
    exact ⟨_, Except.map_eq_ok_iff.mpr ⟨r, hr, rfl⟩⟩
  | some old =>
    simp only [Option.or_none, if_neg hne]
    split
    · exact ⟨_, rfl⟩
    · obtain ⟨a₀, rfl⟩ := List.getLast?_eq_some_iff.mp (Option.filter_eq_some_iff.mp hold).1
      rw [List.append_assoc, List.singleton_append] at hl
      obtain ⟨r, hr⟩ := h.exists_replace hl hs
      exact ⟨_, Except.map_eq_ok_iff.mpr ⟨r, hr, rfl⟩⟩

end Tree.Sound

/-! ### What the rules put in place -/

/-- A line break with the indentation of a line is white space. -/
theorem leafFault?_indentAfter {a : List (Leaf NodeId)}
    (h : ∀ l ∈ a, leafFault? l.kind l.text = none) :
  leafFault? .whitespace (indentAfter a) = none
  := by
  rw [leafFault?_eq_none_iff]
  refine ⟨rfl, ?_, ?_⟩
  · intro heq
    have hfeed := feed_mem_indentAfter a
    rw [heq] at hfeed
    cases hfeed
  · intro _
    rw [indentAfter]
    split
    · rename_i l hl
      obtain ⟨hkind, -⟩ := Leaf.breaksLine_iff.mp (List.find?_some hl)
      have hmem := List.mem_reverse.mp (List.mem_of_find?_eq_some hl)
      have hblank := (leafFault?_eq_none_iff.mp (h l hmem)).2.2 hkind
      rw [List.all_eq_true] at hblank
      rw [String.toList_ofList, List.all_cons, Bool.and_eq_true, List.all_eq_true]
      use rfl
      intro c hc
      cases hlast : (Text.lines l.text.toList).getLast? with
      | none =>
        rw [hlast] at hc
        cases hc
      | some m =>
        rw [hlast] at hc
        apply hblank c (Text.mem_of_mem_lines (List.mem_of_getLast? hlast) hc)
    · decide

theorem leafFault?_asEolComment (s : List Char) :
  leafFault? .eolComment (CommentWrapping.asEolComment s) = none
  := by
  rw [leafFault?_eq_none_iff]
  refine ⟨rfl, ?_, ?_⟩
  · rw [CommentWrapping.asEolComment, ne_eq, String.ofList_eq_empty_iff]
    simp
  · intro hk
    cases hk

/-- What is left of a comment that is not blank is a comment. -/
theorem leafFault?_commentKept {k : Kind} (hk : k.isComment = true) {s : List Char} {c : Char}
    (hc : c ∈ s) (hblank : Text.isBlank c = false) (feed : Bool) :
  leafFault? k (String.ofList
    (Text.unlines (NoTrailingSpaces.commentKept feed (Text.lines s)))) = none
  := by
  have hthin := NoTrailingSpaces.thinned_commentKept feed (Text.lines s)
  rw [Text.unlines_lines] at hthin
  rw [leafFault?_eq_none_iff]
  refine ⟨Kind.not_isComposite_of_isComment hk, ?_, ?_⟩
  · have hmem := hthin.mem hc hblank
    rw [ne_eq, String.ofList_eq_empty_iff]
    intro hnil
    rw [hnil] at hmem
    cases hmem
  · rintro rfl
    cases hk

theorem leafFault?_ofList_whitespace {s : List Char} (hs : s ≠ [])
    (hblank : ∀ c ∈ s, Text.isBlank c = true) :
  leafFault? .whitespace (String.ofList s) = none
  := by
  rw [leafFault?_eq_none_iff]
  refine ⟨rfl, ?_, ?_⟩
  · rwa [ne_eq, String.ofList_eq_empty_iff]
  · intro _
    rwa [String.toList_ofList, List.all_eq_true]

/-! ### Fixes -/

namespace CommentWrapping

variable {s : Site} (h : s.tree.Sound) {a b : List (Leaf NodeId)} {c : Leaf NodeId}
  (hl : s.tree.leaves = a ++ c :: b) (hc : c.id = s.node)

include h hl hc

/-- The layout is that of the comment between its neighbours. -/
theorem layout_leaf :
  layout s = .of c.text.toList (neighbour? a.reverse) (neighbour? b)
  := by
  rw [layout, Site.text_leaf h hl hc, ← hc, h.leavesBefore_leaf hl, h.leavesAfter_leaf hl]

theorem exists_corrected_alone :
  ∃ t, corrected s .alone = .ok t
  := by
  obtain ⟨r, hr⟩ := h.exists_replace hl (leafFault?_asEolComment s.text)
  rw [corrected, ← hc]
  exact ⟨_, Except.map_eq_ok_iff.mpr ⟨r, hr, rfl⟩⟩

theorem exists_corrected_shortAfter :
  ∃ t, corrected s .shortAfter = .ok t
  := by
  obtain ⟨⟨o, u⟩, hu⟩ := h.exists_setSpaceBefore hl (s := " ") (by decide)
  obtain ⟨j, a₀, old, hleaves, -, -⟩ := h.leaves_setSpaceBefore hl (by decide) hu
  rw [← List.singleton_append, ← List.append_assoc] at hleaves
  obtain ⟨r, hr⟩ := (h.setSpaceBefore hu).exists_replace hleaves (leafFault?_asEolComment s.text)
  rw [corrected, ← hc, hu]
  exact ⟨_, Except.map_eq_ok_iff.mpr ⟨r, hr, rfl⟩⟩

theorem exists_corrected_followed {n : Leaf NodeId} (hn : neighbour? b = some n)
    (hbreak : n.breaksLine = false) :
  ∃ t, corrected s (.followed n.id) = .ok t
  := by
  obtain ⟨gap, rest, rfl, -⟩ := exists_gap_of_neighbour? hn hbreak
  have hindent : s.tree.indent s.node = indentAfter a := by
    rw [Tree.indent, ← hc, h.leavesBefore_leaf hl]
    rfl
  have hvalid : leafFault? .whitespace (indentAfter a) = none := by
    apply leafFault?_indentAfter
    intro l hmem
    obtain ⟨a₁, a₂, rfl⟩ := List.append_of_mem hmem
    rw [List.append_assoc, List.cons_append] at hl
    apply h.leafFault?_leaf hl
  rw [← List.cons_append, ← List.append_assoc] at hl
  obtain ⟨r, hr⟩ := h.exists_setSpaceBefore hl hvalid
  rw [corrected, hindent]
  exact ⟨_, Except.map_eq_ok_iff.mpr ⟨r, hr, rfl⟩⟩

end CommentWrapping

section

variable {s : Site} (h : s.tree.Sound) (hn : s.tree.isAttached s.node = true)

include h hn

theorem CommentWrapping.exists_fix :
  ∃ t, fix s = .ok t
  := by
  rw [fix]
  split
  · rename_i hkind
    obtain ⟨a, c, b, hl, hc⟩ := Site.exists_leaf h hn (by rw [hkind]; rfl)
    have hlayout := layout_leaf h hl hc
    cases hcase : layout s with
    | fine | spanning | between | longAfter => exact ⟨_, rfl⟩
    | alone => apply exists_corrected_alone h hl hc
    | shortAfter => apply exists_corrected_shortAfter h hl hc
    | followed id =>
      rw [hcase] at hlayout
      obtain ⟨-, n, hnext, rfl, hbreak⟩ := Layout.of_eq_followed hlayout.symm
      apply exists_corrected_followed h hl hc hnext hbreak
  · exact ⟨_, rfl⟩

theorem NoMultiSpaces.exists_fix :
  ∃ t, fix s = .ok t
  := by
  rw [fix]
  split
  · rename_i hlong
    simp only [isLong, Bool.and_eq_true, beq_iff_eq] at hlong
    obtain ⟨⟨⟨⟨hkind, -⟩, -⟩, -⟩, -⟩ := hlong
    obtain ⟨a, l, b, hl, hid⟩ := Site.exists_leaf h hn (by rw [hkind]; rfl)
    obtain ⟨r, hr⟩ := h.exists_replace hl (k := .whitespace) (s := " ") (by decide)
    rw [← hid]
    exact ⟨_, Except.map_eq_ok_iff.mpr ⟨r, hr, rfl⟩⟩
  · exact ⟨_, rfl⟩

theorem NoConsecutiveBlankLines.exists_fix :
  ∃ t, fix s = .ok t
  := by
  rw [fix]
  split
  · rename_i hmany
    simp only [isExcessive, Bool.and_eq_true, beq_iff_eq, decide_eq_true_eq] at hmany
    obtain ⟨⟨hkind, -⟩, hcount⟩ := hmany
    obtain ⟨a, l, b, hl, hid⟩ := Site.exists_leaf h hn (by rw [hkind]; rfl)
    rw [Site.kind_leaf h hl hid] at hkind
    rw [Site.text_leaf h hl hid] at hcount ⊢
    have hblank := (leafFault?_eq_none_iff.mp (h.leafFault?_leaf hl)).2.2 hkind
    rw [List.all_eq_true] at hblank
    have hvalid : leafFault? .whitespace
        (String.ofList (collapsed (isLast s) l.text.toList)) = none := by
      apply leafFault?_ofList_whitespace _ (isBlank_collapsed hblank _)
      intro hnil
      have hleft := count_collapsed hcount
      have hpos := allowed_pos (isLast s)
      rw [hnil, List.count_nil] at hleft
      omega
    obtain ⟨r, hr⟩ := h.exists_replace hl hvalid
    rw [← hid]
    exact ⟨_, Except.map_eq_ok_iff.mpr ⟨r, hr, rfl⟩⟩
  · exact ⟨_, rfl⟩

/-- No comment may be blank, since nothing would be left of it. -/
theorem NoTrailingSpaces.exists_fix (hcomments : ∀ l ∈ s.tree.leaves, l.kind.isComment = true →
      ∃ c ∈ l.text.toList, Text.isBlank c = false) :
  ∃ t, fix s = .ok t
  := by
  rw [fix]
  split
  · exact ⟨_, rfl⟩
  · rename_i hmarks
    rw [List.isEmpty_iff] at hmarks
    obtain ⟨a, l, b, hl, hid⟩ := Site.exists_leaf h hn (isComposite_of_marks hmarks)
    have hkind := Site.kind_leaf h hl hid
    have htext := Site.text_leaf h hl hid
    rw [marks, hkind] at hmarks
    rw [← hid]
    split
    · apply h.exists_remove hl
    · rename_i hsome
      rw [not_and, hkind] at hsome
      have hvalid : leafFault? l.kind (String.ofList (kept s)) = none := by
        by_cases hspace : l.kind = .whitespace
        · have hblank := (leafFault?_eq_none_iff.mp (h.leafFault?_leaf hl)).2.2 hspace
          rw [List.all_eq_true, ← htext] at hblank
          rw [hspace]
          apply leafFault?_ofList_whitespace (hsome hspace)
          rw [kept, hkind, if_pos hspace]
          apply isBlank_spaceKept hblank
        · rw [if_neg hspace] at hmarks
          have hcomment : l.kind.isComment = true := by
            by_contra hno
            apply hmarks
            rw [if_neg hno]
          obtain ⟨c, hc, hnonblank⟩ := hcomments l (by rw [hl]; simp) hcomment
          rw [kept, hkind, if_neg hspace, htext]
          apply leafFault?_commentKept hcomment hc hnonblank
      obtain ⟨r, hr⟩ := h.exists_replace hl hvalid
      rw [hkind]
      exact ⟨_, Except.map_eq_ok_iff.mpr ⟨r, hr, rfl⟩⟩

end

/-- Every fix of a standard rule at a node of a sound tree succeeds, if no comment is blank. -/
theorem exists_fix {r : Rule} (hr : r ∈ Preset.standard.rules) {s : Site} (h : s.tree.Sound)
    (hn : s.tree.isAttached s.node = true)
    (hcomments : ∀ l ∈ s.tree.leaves, l.kind.isComment = true →
      ∃ c ∈ l.text.toList, Text.isBlank c = false) :
  ∃ t, r.fix s = .ok t
  := by
  simp only [Preset.rules, List.mem_cons, List.not_mem_nil, or_false] at hr
  rcases hr with rfl | rfl | rfl | rfl
  · apply CommentWrapping.exists_fix h hn
  · apply NoTrailingSpaces.exists_fix h hn hcomments
  · apply NoMultiSpaces.exists_fix h hn
  · apply NoConsecutiveBlankLines.exists_fix h hn

end Fettle
