import Fettle.Proofs.Rules.Outline
import Fettle.Proofs.Text.Thinned
import Mathlib.Data.List.Chain

/-!
# Orderly leaves

Leaves are `Orderly` if white space is never cut in two (`Spaced`), if nothing follows an
end-of-line comment on its line (`Enclosed`), and if comments begin as comments do (`Marked`).
Each of these a change of the standard rules preserves, the second one together with the first
(`Rewrite.spaced`, `Rewrite.enclosed`, `Rewrite.marked`), so a document with orderly leaves has
orderly leaves when it is formatted, and no code is in an end-of-line comment:
`orderly_formatTimed`.
-/

namespace Fettle

/-! ### White space -/

/-- White space does not follow white space. -/
def Spaced (ls : List (Leaf NodeId)) : Prop :=
  ls.IsChain fun l m => l.kind = .whitespace → m.kind ≠ .whitespace

namespace Spaced

variable {a b : List (Leaf NodeId)} {l l' : Leaf NodeId}

theorem append_cons_iff :
  Spaced (a ++ l :: b) ↔ Spaced a ∧ Spaced b
    ∧ (∀ p, a.getLast? = some p → p.kind = .whitespace → l.kind ≠ .whitespace)
    ∧ ∀ n, b.head? = some n → l.kind = .whitespace → n.kind ≠ .whitespace
  := by
  simp only [Spaced, List.isChain_append, List.isChain_cons, List.head?_cons, Option.mem_def,
    Option.some.injEq, forall_eq']
  tauto

theorem of_append_left (h : Spaced (a ++ b)) :
  Spaced a
  := List.IsChain.left_of_append h

theorem of_append_right (h : Spaced (a ++ b)) :
  Spaced b
  := List.IsChain.right_of_append h

/-- One leaf takes the place of another. -/
theorem exchange (h : Spaced (a ++ l :: b)) (hkind : l'.kind = .whitespace ↔ l.kind = .whitespace) :
  Spaced (a ++ l' :: b)
  := by
  rw [append_cons_iff] at h ⊢
  simpa only [ne_eq, hkind] using h

/-- White space is put between two leaves that are not white space. -/
theorem insert (h : Spaced (a ++ l :: b)) (hl : l.kind ≠ .whitespace)
    (ha : ∀ p, a.getLast? = some p → p.kind ≠ .whitespace) (w : Leaf NodeId) :
  Spaced (a ++ w :: l :: b)
  := by
  obtain ⟨hspaced, -⟩ := append_cons_iff.mp h
  rw [append_cons_iff]
  refine ⟨hspaced, h.of_append_right, ?_, ?_⟩
  · intro p hp hspace
    exact absurd hspace (ha p hp)
  · intro n hn _
    obtain rfl := Option.some.inj hn
    exact hl

theorem reverse (h : Spaced a) :
  Spaced a.reverse
  := by
  rw [Spaced, List.isChain_reverse]
  apply List.IsChain.imp _ h
  intro l m hlm hm hl
  exact hlm hl hm

/-- Only one leaf is passed over to the neighbour, for what follows white space is not white
space. -/
theorem neighbour?_eq (h : Spaced b) :
  CommentWrapping.neighbour? b = b.find? (!·.isInlineSpace)
  := by
  cases b with
  | nil => rfl
  | cons l b =>
    rw [CommentWrapping.neighbour?_cons]
    cases hspace : l.isInlineSpace with
    | false => simp [hspace]
    | true =>
      rw [List.find?_cons_of_neg (by simp [hspace])]
      cases b with
      | nil => rfl
      | cons m b =>
        have hm : m.isInlineSpace = false := by
          rw [← Bool.not_eq_true, Leaf.isInlineSpace_iff]
          rintro ⟨hkind, -⟩
          exact (List.isChain_cons_cons.mp h).1 (Leaf.isInlineSpace_iff.mp hspace).1 hkind
        simp [hm]

end Spaced

/-- White space is not cut in two by a change. -/
theorem Rewrite.spaced {ls ls' : List (Leaf NodeId)} (h : Rewrite ls ls') (hls : Spaced ls) :
  Spaced ls'
  := by
  cases h with
  | @convert a b c i kind => apply hls.exchange (by simp [kind])
  | @attach a old b c j i kind short starts ends space =>
    have hcomment : c.kind ≠ .whitespace := by
      simp [kind]
    rcases space with ⟨rfl, hlast⟩ | ⟨w, hw, rfl⟩
    · rw [List.append_nil] at hls
      apply Spaced.insert (hls.exchange (by simp [kind])) (by simp) hlast
    · rw [List.append_assoc, List.singleton_append] at hls
      have hspace : Spaced (a ++ ⟨j, .whitespace, " "⟩ :: c :: b) :=
        hls.exchange (by simp [(Leaf.isInlineSpace_iff.mp hw).1])
      rw [← List.singleton_append, ← List.append_assoc] at hspace ⊢
      apply hspace.exchange (by simp [kind])
  | @separate a gap b c n j kind starts next space =>
    rw [← List.singleton_append, ← List.append_assoc] at hls ⊢
    rcases space with ⟨rfl, hn⟩ | ⟨w, hw, rfl⟩
    · apply Spaced.insert hls hn
      intro p hp
      rw [List.getLast?_concat, Option.some.injEq] at hp
      simp [← hp, kind]
    · apply hls.exchange (by simp [(Leaf.isInlineSpace_iff.mp hw).1])
  | @single a b w i space => apply hls.exchange (by simp [(Leaf.isInlineSpace_iff.mp space).1])
  | @trimSpace a b w i kind => apply hls.exchange (by simp [kind])
  | @dropSpace a b w kind marked left =>
    have hend : b = [] := by
      simpa using (NoTrailingSpaces.atEnd_of_unlines_spaceKept_eq_nil marked left).1
    subst hend
    rw [List.append_nil]
    apply hls.of_append_left
  | @trimComment a b c i feed kind => exact hls.exchange Iff.rfl
  | @collapse a b w i kind => apply hls.exchange (by simp [kind])

/-! ### End-of-line comments -/

/-- A line ends before some leaves, white space on the line aside, or the document does. -/
def ClosesLine (after : List (Leaf NodeId)) : Prop :=
  ∀ n, after.find? (!·.isInlineSpace) = some n → n.breaksLine = true

/-- End-of-line comments are on one line, and nothing follows them on it. -/
def Enclosed (ls : List (Leaf NodeId)) : Prop :=
  ∀ a l b, ls = a ++ l :: b → l.kind = .eolComment → '\n' ∉ l.text.toList ∧ ClosesLine b

namespace ClosesLine

variable {a m m' : List (Leaf NodeId)} {l : Leaf NodeId}

theorem cons_of_isInlineSpace (hl : l.isInlineSpace = true) :
  ClosesLine (l :: m) ↔ ClosesLine m
  := by
  rw [ClosesLine, ClosesLine, List.find?_cons_of_neg (by simp [hl])]

theorem cons_of_breaksLine (hl : l.breaksLine = true) :
  ClosesLine (l :: m)
  := by
  have hspace : l.isInlineSpace = false := by
    rw [← Bool.not_eq_true]
    intro hspace
    rw [Leaf.breaksLine_of_isInlineSpace hspace] at hl
    cases hl
  intro n hn
  rw [List.find?_cons_of_pos (by simp [hspace])] at hn
  obtain rfl := Option.some.inj hn
  exact hl

theorem not_cons (hl : l.kind ≠ .whitespace) :
  ¬ ClosesLine (l :: m)
  := by
  intro h
  have hspace : l.isInlineSpace = false := by
    rw [← Bool.not_eq_true, Leaf.isInlineSpace_iff]
    rintro ⟨hkind, -⟩
    exact hl hkind
  have hbreaks := h l (List.find?_cons_of_pos (by simp [hspace]))
  rw [Leaf.breaksLine_of_ne_whitespace hl] at hbreaks
  cases hbreaks

/-- Whether a line ends depends on the rest of the leaves in one way only. -/
theorem append (a : List (Leaf NodeId)) (h : ClosesLine m → ClosesLine m')
    (ha : ClosesLine (a ++ m)) :
  ClosesLine (a ++ m')
  := by
  induction a with
  | nil => apply h ha
  | cons l a ih =>
    cases hl : l.isInlineSpace with
    | true =>
      rw [List.cons_append, cons_of_isInlineSpace hl] at ha ⊢
      apply ih ha
    | false =>
      intro n hn
      apply ha n
      rw [List.cons_append, List.find?_cons_of_pos (by simp [hl])] at hn ⊢
      exact hn

/-- A leaf that is not white space is on a later line. -/
theorem exists_breaksLine {m q : List (Leaf NodeId)} {n : Leaf NodeId}
    (h : ClosesLine (m ++ n :: q)) (hn : n.kind ≠ .whitespace) :
  ∃ w ∈ m, w.breaksLine = true
  := by
  induction m with
  | nil => exact absurd h (not_cons hn)
  | cons l m ih =>
    rw [List.cons_append] at h
    cases hl : l.isInlineSpace with
    | true =>
      rw [cons_of_isInlineSpace hl] at h
      obtain ⟨w, hw, hbreaks⟩ := ih h
      use w, List.mem_cons_of_mem _ hw
    | false => use l, List.mem_cons_self, h l (List.find?_cons_of_pos (by simp [hl]))

end ClosesLine

/-- Where white space is not cut in two, a line ends exactly if its neighbour ends it. -/
theorem closesLine_iff {b : List (Leaf NodeId)} (hb : Spaced b) :
  ClosesLine b ↔ EndsLine b
  := by
  rw [EndsLine, hb.neighbour?_eq]
  rfl

namespace Enclosed

variable {a b m m' : List (Leaf NodeId)} {l l' : Leaf NodeId}

theorem cons_iff :
  Enclosed (l :: b)
    ↔ (l.kind = .eolComment → '\n' ∉ l.text.toList ∧ ClosesLine b) ∧ Enclosed b
  := by
  constructor
  · intro h
    constructor
    · apply h [] l b rfl
    · rintro a m c rfl
      apply h (l :: a) m c rfl
  · rintro ⟨hl, hb⟩ a m c heq
    cases a with
    | nil =>
      obtain ⟨rfl, rfl⟩ := List.cons.inj heq
      exact hl
    | cons k a =>
      obtain ⟨rfl, rfl⟩ := List.cons.inj heq
      apply hb a m c rfl

theorem cons_of_ne (hl : l.kind ≠ .eolComment) :
  Enclosed (l :: b) ↔ Enclosed b
  := by
  rw [cons_iff, and_iff_right]
  intro hkind
  exact absurd hkind hl

theorem of_append (h : Enclosed (a ++ b)) :
  Enclosed b
  := by
  rintro c l d rfl
  apply h (a ++ c) l d (List.append_assoc a c _).symm

/-- What comes after some leaves is exchanged. -/
theorem append (a : List (Leaf NodeId)) (h : Enclosed (a ++ m)) (hm : Enclosed m')
    (hcloses : ClosesLine m → ClosesLine m') :
  Enclosed (a ++ m')
  := by
  induction a with
  | nil => exact hm
  | cons l a ih =>
    rw [List.cons_append, cons_iff] at h ⊢
    constructor
    · intro hkind
      obtain ⟨hfeed, hline⟩ := h.1 hkind
      exact ⟨hfeed, hline.append a hcloses⟩
    · apply ih h.2

/-- White space takes the place of other white space. -/
theorem exchange_space (h : Enclosed (a ++ l :: b)) (hl : l.kind = .whitespace)
    (hl' : l'.kind = .whitespace) (hfeed : '\n' ∈ l'.text.toList ↔ '\n' ∈ l.text.toList) :
  Enclosed (a ++ l' :: b)
  := by
  apply h.append a
  · rw [cons_of_ne (by simp [hl'])]
    apply (cons_of_ne (by simp [hl])).mp h.of_append
  · intro hline
    by_cases hbreaks : '\n' ∈ l.text.toList
    · apply ClosesLine.cons_of_breaksLine
      rw [Leaf.breaksLine_iff]
      exact ⟨hl', hfeed.mpr hbreaks⟩
    · rw [ClosesLine.cons_of_isInlineSpace (Leaf.isInlineSpace_iff.mpr ⟨hl, hbreaks⟩)] at hline
      rw [ClosesLine.cons_of_isInlineSpace]
      · exact hline
      · rw [Leaf.isInlineSpace_iff, hfeed]
        exact ⟨hl', hbreaks⟩

end Enclosed

/-- A block comment and white space before it are not at the end of a line that has ended. -/
theorem not_closesLine_of_space {old b : List (Leaf NodeId)} {c : Leaf NodeId}
    (hc : c.kind ≠ .whitespace)
    (hold : old = [] ∨ ∃ w : Leaf NodeId, w.isInlineSpace = true ∧ old = [w]) :
  ¬ ClosesLine (old ++ c :: b)
  := by
  rcases hold with rfl | ⟨w, hw, rfl⟩
  · apply ClosesLine.not_cons hc
  · rw [List.singleton_append, ClosesLine.cons_of_isInlineSpace hw]
    apply ClosesLine.not_cons hc

/-- A change puts nothing after an end-of-line comment, if white space is not cut in two. -/
theorem Rewrite.enclosed {ls ls' : List (Leaf NodeId)} (h : Rewrite ls ls') (hspaced : Spaced ls)
    (hls : Enclosed ls) :
  Enclosed ls'
  := by
  cases h with
  | @convert a b c i kind short unswitched starts ends =>
    have hcloses : ClosesLine b := (closesLine_iff (Spaced.append_cons_iff.mp hspaced).2.1).mpr ends
    apply hls.append a
    · rw [Enclosed.cons_iff]
      use fun _ => ⟨feed_notMem_asEolComment short, hcloses⟩
      exact (Enclosed.cons_iff.mp hls.of_append).2
    · intro hline
      exact absurd hline (ClosesLine.not_cons (by simp [kind]))
  | @attach a old b c j i kind short starts ends space =>
    have hcloses : ClosesLine b := (closesLine_iff (Spaced.append_cons_iff.mp hspaced).2.1).mpr ends
    have hrest : Enclosed b := (Enclosed.cons_iff.mp hls.of_append).2
    rw [List.append_assoc] at hls
    apply hls.append a
    · rw [Enclosed.cons_of_ne (by simp), Enclosed.cons_iff]
      exact ⟨fun _ => ⟨feed_notMem_asEolComment short, hcloses⟩, hrest⟩
    · intro hline
      apply absurd hline
      apply not_closesLine_of_space (by simp [kind]) (space.imp_left And.left)
  | @separate a gap b c n j kind starts next space =>
    apply hls.append a
    · have hrest : Enclosed (n :: b) := by
        rw [← List.cons_append, ← List.append_assoc] at hls
        apply hls.of_append
      rw [Enclosed.cons_of_ne (by simp [kind]), Enclosed.cons_of_ne (by simp)]
      exact hrest
    · intro hline
      exact absurd hline (ClosesLine.not_cons (by simp [kind]))
  | @single a b w i space =>
    obtain ⟨kind, hfeed⟩ := Leaf.isInlineSpace_iff.mp space
    apply hls.exchange_space kind rfl
    apply iff_of_false _ hfeed
    exact (by decide : '\n' ∉ " ".toList)
  | @trimSpace a b w i kind =>
    apply hls.exchange_space kind rfl
    rw [String.toList_ofList, ← List.count_pos_iff, ← List.count_pos_iff,
      NoTrailingSpaces.count_unlines_spaceKept]
  | @dropSpace a b w kind marked left =>
    have hend : b = [] := by
      simpa using (NoTrailingSpaces.atEnd_of_unlines_spaceKept_eq_nil marked left).1
    subst hend
    apply hls.append a
    · intro a l b heq
      simp at heq
    · intro _ n hn
      cases hn
  | @trimComment a b c i feed kind =>
    have hspace : c.kind ≠ .whitespace := by
      intro hspace
      rw [hspace] at kind
      cases kind
    obtain ⟨hc, hb⟩ := Enclosed.cons_iff.mp hls.of_append
    apply hls.append a
    · rw [Enclosed.cons_iff]
      refine ⟨?_, hb⟩
      intro hkind
      obtain ⟨hfeed, hline⟩ := hc hkind
      refine ⟨?_, hline⟩
      rwa [String.toList_ofList, ← List.count_eq_zero, NoTrailingSpaces.count_unlines_commentKept,
        List.count_eq_zero]
    · intro hline
      exact absurd hline (ClosesLine.not_cons hspace)
  | @collapse a b w i kind before many =>
    apply hls.exchange_space kind rfl
    rw [String.toList_ofList, ← List.count_pos_iff, ← List.count_pos_iff,
      NoConsecutiveBlankLines.count_collapsed many]
    have hpos := NoConsecutiveBlankLines.allowed_pos b.head?.isNone
    omega

/-! ### Comments -/

/-- All comments have a property. -/
def AllComments (P : List Char → Prop) (ls : List (Leaf NodeId)) : Prop :=
  ∀ l ∈ ls, l.kind.isComment = true → P l.text.toList

namespace AllComments

variable {P : List Char → Prop} {a b : List (Leaf NodeId)}

theorem append_iff :
  AllComments P (a ++ b) ↔ AllComments P a ∧ AllComments P b
  := List.forall_mem_append

theorem cons_iff {l : Leaf NodeId} :
  AllComments P (l :: b) ↔ (l.kind.isComment = true → P l.text.toList) ∧ AllComments P b
  := List.forall_mem_cons

end AllComments

/-- A change leaves comments with a property that comments without some of their blanks and
end-of-line comments have in their turn. -/
theorem Rewrite.allComments {ls ls' : List (Leaf NodeId)} (h : Rewrite ls ls')
    {P : List Char → Prop} (hthinned : ∀ s s', P s → Text.Thinned s s' → P s')
    (heol : ∀ s, P s → P (CommentWrapping.asEolComment s).toList) (hls : AllComments P ls) :
  AllComments P ls'
  := by
  have hspace {x : List Char} (hkind : Kind.whitespace.isComment = true) : P x := by
    cases hkind
  have hblock {c : Leaf NodeId} (hkind : c.kind = .blockComment) : c.kind.isComment = true := by
    rw [hkind]
    rfl
  cases h with
  | @convert a b c i kind =>
    simp only [AllComments.append_iff, AllComments.cons_iff] at hls ⊢
    exact ⟨hls.1, fun _ => heol _ (hls.2.1 (hblock kind)), hls.2.2⟩
  | @attach a old b c j i kind =>
    simp only [AllComments.append_iff, AllComments.cons_iff] at hls ⊢
    exact ⟨hls.1.1, hspace, fun _ => heol _ (hls.2.1 (hblock kind)), hls.2.2⟩
  | @separate a gap b c n j =>
    simp only [AllComments.append_iff, AllComments.cons_iff] at hls ⊢
    exact ⟨hls.1, hls.2.1, hspace, hls.2.2.2⟩
  | @single a b w i | @trimSpace a b w i | @collapse a b w i =>
    simp only [AllComments.append_iff, AllComments.cons_iff] at hls ⊢
    exact ⟨hls.1, hspace, hls.2.2⟩
  | @dropSpace a b w =>
    simp only [AllComments.append_iff, AllComments.cons_iff] at hls ⊢
    exact ⟨hls.1, hls.2.2⟩
  | @trimComment a b c i feed kind =>
    simp only [AllComments.append_iff, AllComments.cons_iff] at hls ⊢
    refine ⟨hls.1, ?_, hls.2.2⟩
    intro _
    have hkept := NoTrailingSpaces.thinned_commentKept feed (Text.lines c.text.toList)
    rw [Text.unlines_lines] at hkept
    rw [String.toList_ofList]
    apply hthinned _ _ (hls.2.1 kind) hkept

/-! ### Comment marks -/

/-- A comment begins with one of the two marks. -/
def BeginsComment (s : List Char) : Prop :=
  ∃ d rest, (d = '/' ∨ d = '*') ∧ s = '/' :: d :: rest

/-- Comments begin as comments do. -/
def Marked (ls : List (Leaf NodeId)) : Prop :=
  AllComments BeginsComment ls

theorem BeginsComment.thinned {s s' : List Char} (h : BeginsComment s) (hs : Text.Thinned s s') :
  BeginsComment s'
  := by
  obtain ⟨d, rest, hd, rfl⟩ := h
  have hblank : Text.isBlank d = false := by
    rcases hd with rfl | rfl <;> decide
  obtain ⟨u, rfl, hu⟩ := hs.exists_cons (by decide)
  obtain ⟨v, rfl, -⟩ := hu.exists_cons hblank
  exact ⟨d, v, hd, rfl⟩

theorem beginsComment_asEolComment (s : List Char) :
  BeginsComment (CommentWrapping.asEolComment s).toList
  := by
  rw [CommentWrapping.asEolComment, String.toList_ofList]
  exact ⟨'/', _, .inl rfl, rfl⟩

/-- Something is left of a comment. -/
theorem BeginsComment.exists_nonblank {s : List Char} (h : BeginsComment s) :
  ∃ c ∈ s, Text.isBlank c = false
  := by
  obtain ⟨d, rest, -, rfl⟩ := h
  exact ⟨'/', List.mem_cons_self, by decide⟩

/-- A change leaves comments that begin as comments do. -/
theorem Rewrite.marked {ls ls' : List (Leaf NodeId)} (h : Rewrite ls ls') (hls : Marked ls) :
  Marked ls'
  := h.allComments (fun _ _ => BeginsComment.thinned) (fun s _ => beginsComment_asEolComment s) hls

/-! ### Formatting -/

/-- White space is not cut in two, nothing follows an end-of-line comment on its line, and
comments begin as comments do. -/
structure Orderly (ls : List (Leaf NodeId)) : Prop where
  spaced : Spaced ls
  enclosed : Enclosed ls
  marked : Marked ls

theorem Rewrite.orderly {ls ls' : List (Leaf NodeId)} (h : Rewrite ls ls') (hls : Orderly ls) :
  Orderly ls'
  := ⟨h.spaced hls.spaced, h.enclosed hls.spaced hls.enclosed, h.marked hls.marked⟩

/-- No fix of a standard rule leaves its document out of order. -/
theorem Orderly.of_fix {s : Site} (hs : Orderly s.tree.leaves) {r : Rule}
    (hr : r ∈ Preset.standard.rules) (h : s.tree.Sound) (hn : s.tree.isAttached s.node = true)
    {t : Tree} (hfix : r.fix s = .ok t) :
  t.Sound ∧ Orderly t.leaves
  := by
  obtain ⟨hsound, hrewrite | ⟨rfl, -⟩⟩ := rewrite_of_fix hr h hn hfix
  · exact ⟨hsound, hrewrite.orderly hs⟩
  · exact ⟨hsound, hs⟩

/-- A document with orderly leaves still has orderly leaves when it has been formatted, however
many fix passes are allowed, so what follows an end-of-line comment and is not white space is on
a later line. -/
theorem orderly_formatTimed {t : Tree} (h : t.Sound) (ht : Orderly t.leaves) (config : Config)
    (scope : Scope) (clock : Clock) :
  ∃ e, Kotlin.standardEngine config = .ok e
    ∧ ∀ cap, ∃ r t', ({ e with maxPasses := cap } : Engine).formatTimed clock t scope = (r, t')
      ∧ Orderly t'.leaves
      ∧ ∀ p l m n q, t'.leaves = p ++ l :: (m ++ n :: q) → l.kind = .eolComment →
        n.kind ≠ .whitespace → ∃ w ∈ m, w.breaksLine = true
  := by
  use ⟨standardOrder, max config.maxPasses 1, config.timeout⟩, standardEngine_eq config
  intro cap
  let e : Engine := ⟨standardOrder, cap, config.timeout⟩
  use (e.formatTimed clock t scope).1, (e.formatTimed clock t scope).2, rfl
  have horderly : Orderly (e.formatTimed clock t scope).2.leaves := by
    apply And.right
    apply formatTimed_invariant (P := fun u => u.Sound ∧ Orderly u.leaves) _ clock ⟨h, ht⟩
    intro a ha u n u' hu hn hfix
    exact hu.2.of_fix (rule_mem_of_mem_active rfl a ha) hu.1 hn hfix
  use horderly
  intro p l m n q hsplit hkind hn
  obtain ⟨-, hcloses⟩ := horderly.enclosed p l (m ++ n :: q) hsplit hkind
  apply hcloses.exists_breaksLine hn

/-- A block comment between code and the end of its line becomes an end-of-line comment before
another one. -/
theorem orderly_formatTimed_attached :
  let t : Tree := .ofRoot .file none (.leaf () .identifier "x"
    (.leaf () .blockComment "/* a */" (.leaf () .whitespace "\n" (.leaf () .eolComment "// b "
      (.leaf () .whitespace "\n" (.leaf () .identifier "y" .nil))))))
  t.Sound ∧ Orderly t.leaves ∧ ∃ e, Kotlin.standardEngine .empty = .ok e
    ∧ ∀ cap, ∃ r t',
      ({ e with maxPasses := cap } : Engine).formatTimed .stopped t .empty = (r, t')
      ∧ Orderly t'.leaves
      ∧ ∀ p l m n q, t'.leaves = p ++ l :: (m ++ n :: q) → l.kind = .eolComment →
        n.kind ≠ .whitespace → ∃ w ∈ m, w.breaksLine = true
  := by
  intro t
  have h : t.Sound := by
    apply Tree.Sound.ofRoot
    · rfl
    · decide
  have hleaves : t.leaves = [⟨1, .identifier, "x"⟩, ⟨2, .blockComment, "/* a */"⟩,
      ⟨3, .whitespace, "\n"⟩, ⟨4, .eolComment, "// b "⟩, ⟨5, .whitespace, "\n"⟩,
      ⟨6, .identifier, "y"⟩] := rfl
  have ht : Orderly t.leaves := by
    rw [hleaves]
    constructor
    · simp [Spaced]
    · have hcloses : ClosesLine [⟨5, .whitespace, "\n"⟩, ⟨6, .identifier, "y"⟩] :=
        ClosesLine.cons_of_breaksLine (by decide)
      have hnil : Enclosed [] := by
        intro a l b heq
        simp at heq
      simp [Enclosed.cons_iff, hcloses, hnil]
    · simp [Marked, AllComments, Kind.isComment, BeginsComment]
  use h, ht
  apply orderly_formatTimed h ht

end Fettle
