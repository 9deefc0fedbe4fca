import Fettle.Proofs.Rules.Standard
import Fettle.Proofs.Text.Lines

/-!
# What formatting leaves alone

The code of a list of leaves are the kinds and texts of those that are neither white space nor
comments; its *gaps* are the stretches of white space and comments before, between and after
them.  The `outline` of the leaves is their code, the number of comments in each gap, and which
of the gaps between code have a line feed and which have any text.  Each `Rewrite` of leaves with
text keeps the outline, hence so do runs with the standard rules: `outline_formatTimed`.
-/

namespace Fettle

/-- Whether a leaf is neither white space nor a comment. -/
def Leaf.isCode {ι : Type} (l : Leaf ι) : Bool :=
  l.kind != .whitespace && !l.kind.isComment

section

variable {ι : Type}

/-- The kinds and texts of the code in some leaves. -/
def codeOf (ls : List (Leaf ι)) : List (Kind × String) :=
  (ls.filter Leaf.isCode).map fun l => (l.kind, l.text)

/-- The stretches of leaves before, between and after the code. -/
def gaps (ls : List (Leaf ι)) : List (List (Leaf ι)) :=
  ls.splitOnP Leaf.isCode

/-- The stretches of leaves between the code. -/
def innerGaps (ls : List (Leaf ι)) : List (List (Leaf ι)) :=
  (gaps ls).tail.dropLast

/-- The number of comments in some leaves. -/
def commentCount (ls : List (Leaf ι)) : Nat :=
  ls.countP fun l => l.kind.isComment

/-- Whether the text of some leaves has a line feed. -/
def hasFeed (ls : List (Leaf ι)) : Bool :=
  ls.any fun l => l.text.toList.contains '\n'

/-- Whether some leaves have any text. -/
def hasText (ls : List (Leaf ι)) : Bool :=
  ls.any fun l => l.text != ""

end

/-- What is kept of some leaves: their code, the number of comments in each gap, and which gaps
between code have a line feed and which have text. -/
structure Outline where
  code : List (Kind × String)
  comments : List Nat
  feeds : List Bool
  filled : List Bool
  deriving DecidableEq, Repr

/-- The outline of some leaves. -/
def outline {ι : Type} (ls : List (Leaf ι)) : Outline where
  code := codeOf ls
  comments := (gaps ls).map commentCount
  feeds := (innerGaps ls).map hasFeed
  filled := (innerGaps ls).map hasText

/-! ### A change within one gap -/

section

variable {ι : Type}

theorem gaps_append_cons (a b : List (Leaf ι)) {x : Leaf ι} (hx : x.isCode = true) :
  gaps (a ++ x :: b) = gaps a ++ gaps b
  := List.splitOnP_append_cons a b hx

theorem gaps_append_of_not_code {xs : List (Leaf ι)} (hxs : ∀ l ∈ xs, l.isCode = false)
    (b : List (Leaf ι)) :
  gaps (xs ++ b) = (gaps b).modifyHead (xs ++ ·)
  := by
  induction xs with
  | nil =>
    symm
    apply congrFun List.modifyHead_id
  | cons x xs ih =>
    rw [List.forall_mem_cons] at hxs
    rw [List.cons_append, gaps, List.splitOnP_cons_eq_if_modifyHead, hxs.1, ← gaps, ih hxs.2]
    simp [Function.comp_def]

/-- The last code of some leaves, if they have any. -/
theorem exists_last_code (a : List (Leaf ι)) :
  (∀ l ∈ a, l.isCode = false)
    ∨ ∃ a₀ x p, a = a₀ ++ x :: p ∧ x.isCode = true ∧ ∀ l ∈ p, l.isCode = false
  := by
  induction a with
  | nil => simp
  | cons l a ih =>
    rcases ih with hnone | ⟨a₀, x, p, rfl, hx, hp⟩
    · cases hl : l.isCode with
      | false =>
        left
        rw [List.forall_mem_cons]
        exact ⟨hl, hnone⟩
      | true =>
        right
        use [], l, a, rfl
    · right
      use l :: a₀, x, p, rfl

/-- Gaps after some leaves go on from the last gap of these. -/
theorem exists_gaps_append (a : List (Leaf ι)) :
  ∃ before p, (∀ ls, gaps (a ++ ls) = before ++ (gaps ls).modifyHead (p ++ ·))
    ∧ (before ≠ [] → ∃ a₀ x, a = a₀ ++ x :: p ∧ x.isCode = true)
  := by
  rcases exists_last_code a with hnone | ⟨a₀, x, p, rfl, hx, hp⟩
  · use [], a
    constructor
    · intro ls
      rw [gaps_append_of_not_code hnone, List.nil_append]
    · intro hne
      exact absurd rfl hne
  · use gaps a₀, p
    constructor
    · intro ls
      rw [List.append_assoc, List.cons_append, gaps_append_cons _ _ hx,
        gaps_append_of_not_code hp]
    · intro _
      use a₀, x

/-- The gaps of two lists of leaves do not change but for the one that they share, when white
space and comments come between them. -/
theorem exists_gaps_insert (a b : List (Leaf ι)) :
  ∃ before p q after, (∀ xs : List (Leaf ι), (∀ l ∈ xs, l.isCode = false) →
      gaps (a ++ (xs ++ b)) = before ++ (p ++ (xs ++ q)) :: after)
    ∧ (before ≠ [] → ∃ a₀ x, a = a₀ ++ x :: p ∧ x.isCode = true)
    ∧ (after ≠ [] → b ≠ [])
  := by
  obtain ⟨before, p, hbefore, hp⟩ := exists_gaps_append a
  obtain ⟨q, after, hafter⟩ :=
    List.exists_cons_of_ne_nil (List.splitOnP_ne_nil Leaf.isCode b)
  use before, p, q, after
  refine ⟨?_, hp, ?_⟩
  · intro xs hxs
    rw [hbefore, gaps_append_of_not_code hxs, gaps, hafter]
    rfl
  · rintro hne rfl
    obtain ⟨-, rfl⟩ := List.cons.inj hafter
    exact hne rfl

theorem commentCount_append (g h : List (Leaf ι)) :
  commentCount (g ++ h) = commentCount g + commentCount h
  := List.countP_append

theorem hasFeed_append (g h : List (Leaf ι)) :
  hasFeed (g ++ h) = (hasFeed g || hasFeed h)
  := List.any_append

theorem hasText_append (g h : List (Leaf ι)) :
  hasText (g ++ h) = (hasText g || hasText h)
  := List.any_append

/-- Two stretches of leaves have a line feed or both have none, and have text or both have
none. -/
def SameGap (g g' : List (Leaf ι)) : Prop :=
  hasFeed g' = hasFeed g ∧ hasText g' = hasText g

/-- A change of white space and comments keeps the outline if it keeps the number of comments
and, between code, what the gap has. -/
theorem outline_exchange {a xs ys b : List (Leaf ι)} (hxs : ∀ l ∈ xs, l.isCode = false)
    (hys : ∀ l ∈ ys, l.isCode = false) (hcount : commentCount ys = commentCount xs)
    (hgap : ∀ a₀ x p q, a = a₀ ++ x :: p → x.isCode = true → b ≠ [] →
      SameGap (p ++ (xs ++ q)) (p ++ (ys ++ q))) :
  outline (a ++ (ys ++ b)) = outline (a ++ (xs ++ b))
  := by
  obtain ⟨before, p, q, after, hgaps, hbefore, hafter⟩ := exists_gaps_insert a b
  have hcode : codeOf (a ++ (ys ++ b)) = codeOf (a ++ (xs ++ b)) := by
    have hxnil : xs.filter Leaf.isCode = [] := by simpa using hxs
    have hynil : ys.filter Leaf.isCode = [] := by simpa using hys
    simp only [codeOf, List.filter_append, hxnil, hynil]
  have hcomments : (gaps (a ++ (ys ++ b))).map commentCount
      = (gaps (a ++ (xs ++ b))).map commentCount := by
    simp only [hgaps xs hxs, hgaps ys hys, List.map_append, List.map_cons,
      commentCount_append, hcount]
  have hinner : (innerGaps (a ++ (ys ++ b))).map hasFeed
        = (innerGaps (a ++ (xs ++ b))).map hasFeed
      ∧ (innerGaps (a ++ (ys ++ b))).map hasText
        = (innerGaps (a ++ (xs ++ b))).map hasText := by
    rw [innerGaps, innerGaps, hgaps xs hxs, hgaps ys hys]
    -- the changed gap is the first one, the last one, or between code
    rcases before with _ | ⟨g, before⟩
    · exact ⟨rfl, rfl⟩
    · rcases after.eq_nil_or_concat with rfl | ⟨after, h, rfl⟩
      · simp
      · obtain ⟨a₀, x, ha, hx⟩ := hbefore (List.cons_ne_nil _ _)
        obtain ⟨hfeed, htext⟩ := hgap a₀ x p q ha hx (hafter (by simp))
        have hends (m : List (Leaf ι)) :
            (g :: before ++ m :: after.concat h).tail.dropLast = before ++ m :: after := by
          rw [List.concat_eq_append, List.cons_append, List.tail_cons, ← List.cons_append,
            ← List.append_assoc, List.dropLast_concat]
        simp only [hends, List.map_append, List.map_cons, hfeed, htext, and_self]
  rw [outline, outline, hcode, hcomments, hinner.1, hinner.2]

theorem SameGap.context {g g' : List (Leaf ι)} (h : SameGap g g') (p q : List (Leaf ι)) :
  SameGap (p ++ (g ++ q)) (p ++ (g' ++ q))
  := by
  constructor
  · rw [hasFeed_append, hasFeed_append, hasFeed_append, hasFeed_append, h.1]
  · rw [hasText_append, hasText_append, hasText_append, hasText_append, h.2]

theorem Leaf.isCode_of_whitespace {l : Leaf ι} (h : l.kind = .whitespace) :
  l.isCode = false
  := by
  simp [isCode, h]

theorem Leaf.isCode_of_isComment {l : Leaf ι} (h : l.kind.isComment = true) :
  l.isCode = false
  := by
  simp [isCode, h]

/-- Another leaf of white space or another comment in the place of one keeps the outline, if both
have line feeds or both have none. -/
theorem outline_replace {a b : List (Leaf ι)} {l l' : Leaf ι} (hl : l.isCode = false)
    (hl' : l'.isCode = false) (hcomment : l'.kind.isComment = l.kind.isComment)
    (hfeed : '\n' ∈ l'.text.toList ↔ '\n' ∈ l.text.toList)
    (hs : ∀ m ∈ a ++ l :: b, m.text ≠ "") (hs' : ∀ m ∈ a ++ l' :: b, m.text ≠ "") :
  outline (a ++ l' :: b) = outline (a ++ l :: b)
  := by
  change outline (a ++ ([l'] ++ b)) = outline (a ++ ([l] ++ b))
  apply outline_exchange
  · rwa [List.forall_mem_singleton]
  · rwa [List.forall_mem_singleton]
  · simp [commentCount, List.countP_cons, hcomment]
  · intro a₀ x p q _ _ _
    apply SameGap.context
    constructor
    · simp [hasFeed, hfeed]
    · have ht := hs l (by simp)
      have ht' := hs' l' (by simp)
      simp [hasText, bne, ht, ht']

end

/-! ### What the standard rules keep -/

theorem feed_notMem_asEolComment {s : List Char} (h : '\n' ∉ s) :
  '\n' ∉ (CommentWrapping.asEolComment s).toList
  := by
  have hcontent {c : List Char} (hc : '\n' ∉ c) :
      '\n' ∉ '/' :: '/' :: ' ' :: Text.trim c := by
    simp only [List.mem_cons, not_or]
    refine ⟨by decide, by decide, by decide, ?_⟩
    intro hmem
    apply hc (Text.mem_of_mem_trim hmem)
  rw [CommentWrapping.asEolComment, String.toList_ofList]
  apply hcontent
  cases hbody : (Text.dropLead? ['/', '*'] s).bind (Text.dropTail? ['*', '/']) with
  | none => exact h
  | some body =>
    obtain ⟨rest, hlead, htail⟩ := Option.bind_eq_some_iff.mp hbody
    rw [Text.dropLead?_eq_some_iff] at hlead
    rw [Text.dropTail?_eq_some_iff] at htail
    intro hmem
    apply h
    rw [hlead, htail]
    simp only [Option.getD_some] at hmem
    simp [hmem]

/-- Where a line starts after code, a line feed is between. -/
theorem hasFeed_of_startsLine {a p : List (Leaf NodeId)} {x : Leaf NodeId}
    (h : StartsLine (a ++ x :: p)) (hx : x.isCode = true) :
  hasFeed p = true
  := by
  have hspace {l : Leaf NodeId} (hl : l.kind = .whitespace) : x ≠ l := by
    rintro rfl
    rw [Leaf.isCode_of_whitespace hl] at hx
    cases hx
  have hbreak : ¬ x.breaksLine = true := by
    rw [Leaf.breaksLine_iff]
    rintro ⟨hkind, -⟩
    exact hspace hkind rfl
  have hinline : ¬ x.isInlineSpace = true := by
    rw [Leaf.isInlineSpace_iff]
    rintro ⟨hkind, -⟩
    exact hspace hkind rfl
  have hfeed {l : Leaf NodeId} {p₀ : List (Leaf NodeId)} (hl : l.breaksLine = true)
      (hmem : l ∈ p₀) : hasFeed p₀ = true := by
    rw [Leaf.breaksLine_iff] at hl
    rw [hasFeed, List.any_eq_true]
    use l, hmem
    simpa using hl.2
  rw [StartsLine, List.reverse_append, List.reverse_cons, List.append_assoc] at h
  rcases p.eq_nil_or_concat with rfl | ⟨p, l, rfl⟩
  · rw [List.reverse_nil, List.nil_append, List.singleton_append,
      CommentWrapping.neighbour?_cons, if_neg hinline] at h
    exact absurd (h x rfl) hbreak
  · rw [List.concat_eq_append, List.reverse_append, List.reverse_singleton,
      List.singleton_append, List.cons_append, CommentWrapping.neighbour?_cons] at h
    split at h
    · rcases p.eq_nil_or_concat with rfl | ⟨p, m, rfl⟩
      · exact absurd (h x rfl) hbreak
      · rw [List.concat_eq_append, List.reverse_append] at h
        apply hfeed (h m rfl)
        simp
    · apply hfeed (h l rfl)
      simp

section

variable {g : List (Leaf NodeId)} (hg : ∀ w ∈ g, w.isInlineSpace = true)

include hg

theorem isCode_of_inline :
  ∀ w ∈ g, w.isCode = false
  := by
  intro w hw
  apply Leaf.isCode_of_whitespace (Leaf.isInlineSpace_iff.mp (hg w hw)).1

theorem commentCount_of_inline :
  commentCount g = 0
  := by
  rw [commentCount, List.countP_eq_zero]
  intro w hw
  rw [(Leaf.isInlineSpace_iff.mp (hg w hw)).1]
  decide

theorem hasFeed_of_inline :
  hasFeed g = false
  := by
  rw [hasFeed, List.any_eq_false]
  intro w hw
  simpa using (Leaf.isInlineSpace_iff.mp (hg w hw)).2

end

/-- An end-of-line comment after a space in the place of a block comment keeps the outline. -/
theorem outline_attach {a old b : List (Leaf NodeId)} {c : Leaf NodeId} (j i : NodeId)
    (kind : c.kind = .blockComment) (short : '\n' ∉ c.text.toList) (filled : c.text ≠ "")
    (inline : ∀ w ∈ old, w.isInlineSpace = true) :
  outline (a ++ ⟨j, .whitespace, " "⟩
      :: ⟨i, .eolComment, CommentWrapping.asEolComment c.text.toList⟩ :: b)
    = outline (a ++ old ++ c :: b)
  := by
  rw [List.append_assoc, List.append_cons old c b]
  change outline (a ++ ([⟨j, .whitespace, " "⟩,
    ⟨i, .eolComment, CommentWrapping.asEolComment c.text.toList⟩] ++ b)) = _
  apply outline_exchange
  · rw [List.forall_mem_append, List.forall_mem_singleton]
    use isCode_of_inline inline
    simp [Leaf.isCode, kind, Kind.isComment]
  · simp [Leaf.isCode, Kind.isComment]
  · rw [commentCount_append, commentCount_of_inline inline]
    simp [commentCount, kind, Kind.isComment]
  · intro a₀ x p q _ _ _
    apply SameGap.context
    constructor
    · rw [hasFeed_append, hasFeed_of_inline inline]
      simp [hasFeed, short, feed_notMem_asEolComment short]
    · simp [hasText, bne, filled]

/-- A line break after a block comment that begins its line keeps the outline. -/
theorem outline_separate {a gap b : List (Leaf NodeId)} {c : Leaf NodeId} (j : NodeId)
    (kind : c.kind = .blockComment) (starts : StartsLine a) (filled : c.text ≠ "")
    (inline : ∀ w ∈ gap, w.isInlineSpace = true) :
  outline (a ++ c :: ⟨j, .whitespace, indentAfter a⟩ :: b) = outline (a ++ c :: (gap ++ b))
  := by
  have hcode : c.isCode = false := by
    simp [Leaf.isCode, kind, Kind.isComment]
  have htext (ls : List (Leaf NodeId)) : hasText (c :: ls) = true := by
    simp [hasText, bne, filled]
  change outline (a ++ ([c, ⟨j, .whitespace, indentAfter a⟩] ++ b))
    = outline (a ++ ([c] ++ gap ++ b))
  apply outline_exchange
  · rw [List.forall_mem_append, List.forall_mem_singleton]
    exact ⟨hcode, isCode_of_inline inline⟩
  · simp [Leaf.isCode, kind, Kind.isComment]
  · rw [commentCount_append, commentCount_of_inline inline]
    simp [commentCount, kind, Kind.isComment]
  · -- the line of the comment starts after a line feed in the same gap
    rintro a₀ x p q rfl hx _
    have hp := hasFeed_of_startsLine starts hx
    constructor
    · rw [hasFeed_append p, hasFeed_append p, hp, Bool.true_or, Bool.true_or]
    · rw [hasText_append, hasText_append p, List.cons_append, htext, List.append_assoc,
        List.singleton_append, htext]

/-- Each rewriting of leaves with text keeps the outline. -/
theorem Rewrite.outline_eq {ls ls' : List (Leaf NodeId)} (h : Rewrite ls ls')
    (hs : ∀ l ∈ ls, l.text ≠ "") (hs' : ∀ l ∈ ls', l.text ≠ "") :
  outline ls' = outline ls
  := by
  have hinline {w : Leaf NodeId} (hw : w.isInlineSpace = true) :
      ∀ v ∈ [w], v.isInlineSpace = true := by
    rwa [List.forall_mem_singleton]
  cases h with
  | @convert a b c i kind short _ _ _ =>
    apply outline_replace _ _ _ _ hs hs'
    · simp [Leaf.isCode, kind, Kind.isComment]
    · rfl
    · rw [kind]
      rfl
    · simp [short, feed_notMem_asEolComment short]
  | @attach a old b c j i kind short _ _ space =>
    apply outline_attach j i kind short (hs c (by simp))
    rcases space with ⟨rfl, -⟩ | ⟨w, hw, rfl⟩
    · simp
    · apply hinline hw
  | @separate a gap b c n j kind starts next space =>
    apply outline_separate j kind starts (hs c (by simp))
    rcases space with ⟨rfl, -⟩ | ⟨w, hw, rfl⟩
    · simp
    · apply hinline hw
  | @single a b w i space long _ _ =>
    rw [Leaf.isInlineSpace_iff] at space
    apply outline_replace (Leaf.isCode_of_whitespace space.1) rfl _ _ hs hs'
    · rw [space.1]
    · simp [space.2]
  | @trimSpace a b w i kind _ _ =>
    apply outline_replace (Leaf.isCode_of_whitespace kind) rfl _ _ hs hs'
    · rw [kind]
    · rw [String.toList_ofList, ← List.count_pos_iff,
        NoTrailingSpaces.count_unlines_spaceKept, List.count_pos_iff]
  | @dropSpace a b w kind marked left =>
    obtain ⟨hend, -⟩ := NoTrailingSpaces.atEnd_of_unlines_spaceKept_eq_nil marked left
    rw [Option.isNone_iff_eq_none, List.head?_eq_none_iff] at hend
    change outline (a ++ ([] ++ b)) = outline (a ++ ([w] ++ b))
    apply outline_exchange
    · rw [List.forall_mem_singleton]
      apply Leaf.isCode_of_whitespace kind
    · simp
    · simp [commentCount, kind, Kind.isComment]
    · intro a₀ x p q _ _ hb
      exact absurd hend hb
  | @trimComment a b c i feed kind _ _ =>
    apply outline_replace (Leaf.isCode_of_isComment kind) _ _ _ hs hs'
    · apply Leaf.isCode_of_isComment
      exact kind
    · rfl
    · rw [String.toList_ofList, ← List.count_pos_iff,
        NoTrailingSpaces.count_unlines_commentKept, List.count_pos_iff]
  | @collapse a b w i kind _ many =>
    apply outline_replace (Leaf.isCode_of_whitespace kind) rfl _ _ hs hs'
    · rw [kind]
    · rw [String.toList_ofList, ← List.count_pos_iff, ← List.count_pos_iff,
        NoConsecutiveBlankLines.count_collapsed many]
      have hpos := NoConsecutiveBlankLines.allowed_pos b.head?.isNone
      omega

/-- Runs with the standard rules keep the outline of every tree that is built. -/
theorem outline_formatTimed {es : List Event} {t : Tree} (ht : Tree.ofEvents es = .ok t)
    (c : Config) (scope : Scope) (clock : Clock) :
  ∃ e, Kotlin.standardEngine c = .ok e
    ∧ outline (e.formatTimed clock t scope).2.leaves = outline t.leaves
  := by
  use ⟨standardOrder, max c.maxPasses 1, c.timeout⟩, standardEngine_eq c
  apply (standard_invariant (P := fun ls => outline ls = outline t.leaves) rfl _ clock
    (Tree.Sound.ofEvents ht) rfl).2
  intro u u' hu hu' hrewrite hP
  rw [hrewrite.outline_eq hu.text_ne_empty hu'.text_ne_empty, hP]

/-- A block comment after code, whose line gets a comment of the other kind, and two lines of
trailing spaces. -/
theorem outline_formatTimed_wrapped :
  let es : List Event := [.start .file none, .token .identifier "x", .token .blockComment "/* a */",
    .token .whitespace "  \n  \n", .token .identifier "y", .finish]
  let t : Tree := .ofRoot .file none (.leaf () .identifier "x" (.leaf () .blockComment "/* a */"
    (.leaf () .whitespace "  \n  \n" (.leaf () .identifier "y" .nil))))
  Tree.ofEvents es = .ok t ∧ ∃ e, Kotlin.standardEngine .empty = .ok e
    ∧ outline (e.formatTimed .stopped t .empty).2.leaves = outline t.leaves
  := by
  intro es t
  have ht : Tree.ofEvents es = .ok t := by
    rfl
  use ht
  apply outline_formatTimed ht .empty .empty .stopped

end Fettle
