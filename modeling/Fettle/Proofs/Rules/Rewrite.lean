import Fettle.Proofs.Text.Lines
import Fettle.Proofs.Tree.Leaves
import Fettle.Rules.Standard

/-!
# What the standard rules do to the leaves

`Rewrite` lists the changes that a fix of a standard rule can make to the list of leaves of a
tree.  Each is at one place: a comment becomes an end-of-line comment, a line break comes after
a comment, or a leaf of white space or a comment gets a shorter text or goes.

`Trim` lists those of the changes that move nothing from one line to another: they are all that
the rules about trailing spaces and blank lines make (`NoTrailingSpaces.trim_of_fix`,
`NoConsecutiveBlankLines.trim_of_fix`).

`rewrite_of_fix` says that a fix of a standard rule at a node of a sound tree yields a sound
tree; either its leaves are rewritten, or the rule finds nothing that it can correct at the node
and the tree is the same.  `fixAt_of_fix` says besides that the change is at the leaf of the node
(`EditedAt`), and `TrimAt` is `Trim` with this leaf.
-/

namespace Fettle

/-- Whether a line begins after some leaves, white space on the same line aside. -/
def StartsLine (before : List (Leaf NodeId)) : Prop :=
  ∀ p, CommentWrapping.neighbour? before.reverse = some p → p.breaksLine = true

/-- Whether a line ends before some leaves, white space on the same line aside. -/
def EndsLine (after : List (Leaf NodeId)) : Prop :=
  ∀ n, CommentWrapping.neighbour? after = some n → n.breaksLine = true

/-- A line feed and the indentation of the line that comes after some leaves. -/
def indentAfter (before : List (Leaf NodeId)) : String :=
  match before.reverse.find? Leaf.breaksLine with
  | some l => String.ofList ('\n' :: (Text.lines l.text.toList).getLast?.getD [])
  | none => "\n"

theorem feed_mem_indentAfter (a : List (Leaf NodeId)) :
  '\n' ∈ (indentAfter a).toList
  := by
  rw [indentAfter]
  split
  · rw [String.toList_ofList]
    apply List.mem_cons_self
  · decide

/-- The changes that the standard rules make to a list of leaves. -/
inductive Rewrite : List (Leaf NodeId) → List (Leaf NodeId) → Prop where
  /-- A block comment alone on its line becomes an end-of-line comment. -/
  | convert {a b : List (Leaf NodeId)} {c : Leaf NodeId} (i : NodeId)
      (kind : c.kind = .blockComment) (short : '\n' ∉ c.text.toList)
      (unswitched : CommentWrapping.isSwitch c.text.toList = false)
      (starts : StartsLine a) (ends : EndsLine b) :
      Rewrite (a ++ c :: b)
        (a ++ ⟨i, .eolComment, CommentWrapping.asEolComment c.text.toList⟩ :: b)
  /-- A block comment at the end of a line becomes an end-of-line comment after one space. -/
  | attach {a old b : List (Leaf NodeId)} {c : Leaf NodeId} (j i : NodeId)
      (kind : c.kind = .blockComment) (short : '\n' ∉ c.text.toList)
      (starts : ¬ StartsLine (a ++ old)) (ends : EndsLine b)
      (space : (old = [] ∧ ∀ p, a.getLast? = some p → p.kind ≠ .whitespace)
        ∨ ∃ w : Leaf NodeId, w.isInlineSpace = true ∧ old = [w]) :
      Rewrite (a ++ old ++ c :: b)
        (a ++ ⟨j, .whitespace, " "⟩
          :: ⟨i, .eolComment, CommentWrapping.asEolComment c.text.toList⟩ :: b)
  /-- What follows a block comment that begins its line moves to the next line. -/
  | separate {a gap b : List (Leaf NodeId)} {c n : Leaf NodeId} (j : NodeId)
      (kind : c.kind = .blockComment) (starts : StartsLine a) (next : n.breaksLine = false)
      (space : (gap = [] ∧ n.kind ≠ .whitespace)
        ∨ ∃ w : Leaf NodeId, w.isInlineSpace = true ∧ gap = [w]) :
      Rewrite (a ++ c :: (gap ++ n :: b))
        (a ++ c :: ⟨j, .whitespace, indentAfter a⟩ :: n :: b)
  /-- White space within a line becomes one space. -/
  | single {a b : List (Leaf NodeId)} {w : Leaf NodeId} (i : NodeId)
      (space : w.isInlineSpace = true) (long : 2 ≤ w.text.utf8ByteSize)
      (before : a ≠ []) (after : b ≠ []) :
      Rewrite (a ++ w :: b) (a ++ ⟨i, .whitespace, " "⟩ :: b)
  /-- White space loses what stands before its line feeds, and the white space at the end of
  the document all of its last line. -/
  | trimSpace {a b : List (Leaf NodeId)} {w : Leaf NodeId} (i : NodeId)
      (kind : w.kind = .whitespace)
      (marked : NoTrailingSpaces.spaceMarks b.head?.isNone 0 (Text.lines w.text.toList) ≠ [])
      (left : Text.unlines (NoTrailingSpaces.spaceKept b.head?.isNone
        (Text.lines w.text.toList)) ≠ []) :
      Rewrite (a ++ w :: b)
        (a ++ ⟨i, .whitespace, String.ofList (Text.unlines
          (NoTrailingSpaces.spaceKept b.head?.isNone (Text.lines w.text.toList)))⟩ :: b)
  /-- White space of which nothing is left goes. -/
  | dropSpace {a b : List (Leaf NodeId)} {w : Leaf NodeId} (kind : w.kind = .whitespace)
      (marked : NoTrailingSpaces.spaceMarks b.head?.isNone 0 (Text.lines w.text.toList) ≠ [])
      (left : Text.unlines (NoTrailingSpaces.spaceKept b.head?.isNone
        (Text.lines w.text.toList)) = []) :
      Rewrite (a ++ w :: b) (a ++ b)
  /-- A comment loses the blanks at the ends of its lines. -/
  | trimComment {a b : List (Leaf NodeId)} {c : Leaf NodeId} (i : NodeId) (feed : Bool)
      (kind : c.kind.isComment = true)
      (follows : feed = b.head?.any fun l => l.text.toList.head? == some '\n')
      (marked : NoTrailingSpaces.commentMarks feed 0 (Text.lines c.text.toList) ≠ []) :
      Rewrite (a ++ c :: b)
        (a ++ ⟨i, c.kind, String.ofList (Text.unlines
          (NoTrailingSpaces.commentKept feed (Text.lines c.text.toList)))⟩ :: b)
  /-- White space after an element has no more line breaks than are allowed. -/
  | collapse {a b : List (Leaf NodeId)} {w : Leaf NodeId} (i : NodeId)
      (kind : w.kind = .whitespace) (before : a ≠ [])
      (many : NoConsecutiveBlankLines.allowed b.head?.isNone < w.text.toList.count '\n') :
      Rewrite (a ++ w :: b)
        (a ++ ⟨i, .whitespace, String.ofList
          (NoConsecutiveBlankLines.collapsed b.head?.isNone w.text.toList)⟩ :: b)

/-- What is left of the text of a leaf, between others, from which trailing spaces or blank lines
go. -/
inductive Trimmed (a b : List (Leaf NodeId)) (l : Leaf NodeId) : List Char → Prop where
  | space (kind : l.kind = .whitespace)
      (marked : NoTrailingSpaces.spaceMarks b.head?.isNone 0 (Text.lines l.text.toList) ≠ []) :
      Trimmed a b l (Text.unlines
        (NoTrailingSpaces.spaceKept b.head?.isNone (Text.lines l.text.toList)))
  | comment (feed : Bool) (kind : l.kind.isComment = true)
      (follows : feed = b.head?.any fun n => n.text.toList.head? == some '\n')
      (marked : NoTrailingSpaces.commentMarks feed 0 (Text.lines l.text.toList) ≠ []) :
      Trimmed a b l (Text.unlines
        (NoTrailingSpaces.commentKept feed (Text.lines l.text.toList)))
  | collapsed (kind : l.kind = .whitespace) (before : a ≠ [])
      (many : NoConsecutiveBlankLines.allowed b.head?.isNone < l.text.toList.count '\n') :
      Trimmed a b l (NoConsecutiveBlankLines.collapsed b.head?.isNone l.text.toList)

/-- The changes in which nothing moves from one line to another: one leaf gets a shorter text,
or it is white space of which nothing is left, and goes. -/
inductive Trim : List (Leaf NodeId) → List (Leaf NodeId) → Prop where
  | shorten {a b : List (Leaf NodeId)} {l : Leaf NodeId} {x : List Char} (i : NodeId)
      (trimmed : Trimmed a b l x) (left : l.kind = .whitespace → x ≠ []) :
      Trim (a ++ l :: b) (a ++ ⟨i, l.kind, String.ofList x⟩ :: b)
  | drop {a b : List (Leaf NodeId)} {l : Leaf NodeId} (kind : l.kind = .whitespace)
      (trimmed : Trimmed a b l []) :
      Trim (a ++ l :: b) (a ++ b)

theorem Trim.rewrite {ls ls' : List (Leaf NodeId)} (h : Trim ls ls') :
  Rewrite ls ls'
  := by
  cases h with
  | @shorten a b l x i trimmed left =>
    cases trimmed with
    | space kind marked =>
      rw [kind]
      apply Rewrite.trimSpace i kind marked (left kind)
    | comment feed kind follows marked => apply Rewrite.trimComment i feed kind follows marked
    | collapsed kind before many =>
      rw [kind]
      apply Rewrite.collapse i kind before many
  | @drop a b l kind trimmed =>
    obtain ⟨x, hx⟩ : ∃ x, x = ([] : List Char) := ⟨_, rfl⟩
    rw [← hx] at trimmed
    cases trimmed with
    | space _ marked => apply Rewrite.dropSpace kind marked hx
    | comment feed hkind =>
      rw [kind] at hkind
      cases hkind
    | collapsed _ _ many => exact absurd hx (NoConsecutiveBlankLines.collapsed_ne_nil many)

/-- A change of `Trim` at the leaf with a given number, after which what is left of it has
another one. -/
inductive TrimAt (n i : NodeId) : List (Leaf NodeId) → List (Leaf NodeId) → Prop where
  | shorten {a b : List (Leaf NodeId)} {l : Leaf NodeId} {x : List Char} (node : l.id = n)
      (trimmed : Trimmed a b l x) (left : l.kind = .whitespace → x ≠ []) :
      TrimAt n i (a ++ l :: b) (a ++ ⟨i, l.kind, String.ofList x⟩ :: b)
  | drop {a b : List (Leaf NodeId)} {l : Leaf NodeId} (node : l.id = n)
      (kind : l.kind = .whitespace) (trimmed : Trimmed a b l []) :
      TrimAt n i (a ++ l :: b) (a ++ b)

/-- A change at the leaf with a given number, where of the other leaves only white space within a
line is touched, next to that leaf. -/
def EditedAt (n : NodeId) (ls ls' : List (Leaf NodeId)) : Prop :=
  ∃ p m m' q, ls = p ++ m ++ q ∧ ls' = p ++ m' ++ q ∧ (∃ l ∈ m, l.id = n)
    ∧ ∀ l ∈ m, l.id = n ∨ l.isInlineSpace = true

theorem EditedAt.of_leaf {n : NodeId} {a b : List (Leaf NodeId)} {l : Leaf NodeId}
    (h : l.id = n) (m' : List (Leaf NodeId)) :
  EditedAt n (a ++ l :: b) (a ++ (m' ++ b))
  := by
  use a, [l], m', b
  simp [h]

namespace TrimAt

variable {n i : NodeId} {ls ls' : List (Leaf NodeId)}

theorem trim (h : TrimAt n i ls ls') :
  Trim ls ls'
  := by
  cases h with
  | shorten _ trimmed left => apply Trim.shorten i trimmed left
  | drop _ kind trimmed => apply Trim.drop kind trimmed

theorem editedAt (h : TrimAt n i ls ls') :
  EditedAt n ls ls'
  := by
  cases h with
  | shorten node => exact EditedAt.of_leaf node [_]
  | drop node => exact EditedAt.of_leaf node []

end TrimAt

/-- What comes of a fix at a site: a sound tree with other leaves, or the same tree if nothing
that is found can be corrected. -/
structure FixSound (s : Site) (seen : Inspection) (t : Tree) : Prop where
  sound : t.Sound
  change : Rewrite s.tree.leaves t.leaves
    ∨ t = s.tree ∧ ∀ f ∈ seen.findings, f.correctable = false

/-- What comes of a fix at a site, where the change, if there is one, is at the leaf of the
site. -/
structure FixAt (s : Site) (seen : Inspection) (t : Tree) : Prop extends FixSound s seen t where
  place : t = s.tree ∨ EditedAt s.node s.tree.leaves t.leaves

/-! ### Sites at leaves -/

namespace Site

variable {s : Site} {l : Leaf NodeId} {a b : List (Leaf NodeId)} (h : s.tree.Sound)

include h

/-- A site of a kind that holds no children is at a leaf. -/
theorem exists_leaf (hn : s.tree.isAttached s.node = true) (hk : s.kind.isComposite = false) :
  ∃ a l b, s.tree.leaves = a ++ l :: b ∧ l.id = s.node
  := h.exists_leaf hn hk

variable (hl : s.tree.leaves = a ++ l :: b) (hs : l.id = s.node)

include hl hs

theorem kind_leaf :
  s.kind = l.kind
  := by
  rw [Site.kind, ← hs]
  apply h.kind_leaf hl

theorem text_leaf :
  s.text = l.text.toList
  := by
  rw [Site.text, ← hs, h.leafText?_leaf hl]
  rfl

theorem nextLeaf?_leaf :
  s.tree.nextLeaf? s.node = b.head?
  := by
  rw [← hs]
  apply h.nextLeaf?_leaf hl

theorem prevLeaf?_leaf :
  s.tree.prevLeaf? s.node = a.getLast?
  := by
  rw [← hs]
  apply h.prevLeaf?_leaf hl

end Site

namespace FixAt

variable {s : Site} {seen : Inspection} (h : s.tree.Sound)

include h

/-- A fix that does nothing where nothing can be corrected. -/
theorem of_uncorrectable (hseen : ∀ f ∈ seen.findings, f.correctable = false) :
  FixAt s seen s.tree
  := ⟨⟨h, .inr ⟨rfl, hseen⟩⟩, .inl rfl⟩

theorem of_clean :
  FixAt s .clean s.tree
  := by
  apply of_uncorrectable h
  intro f hf
  cases hf

/-- A fix that replaces the leaf of its site. -/
theorem of_replace {t : Tree} {a b : List (Leaf NodeId)} {l : Leaf NodeId} {i : NodeId} {k : Kind}
    {x : String} (hl : s.tree.leaves = a ++ l :: b) (hs : l.id = s.node)
    (hu : s.tree.replace l.id (.ofLeaf k x) = .ok (i, t))
    (hr : Rewrite (a ++ l :: b) (a ++ ⟨i, k, x⟩ :: b)) :
  FixAt s seen t
  := by
  have hleaves := h.leaves_replace hl hu
  rw [← hl, ← hleaves] at hr
  refine ⟨⟨h.replace hu, .inl hr⟩, .inr ?_⟩
  rw [hleaves, hl]
  exact EditedAt.of_leaf hs [_]

end FixAt

/-- A fix that shortens the leaf of its site. -/
theorem TrimAt.of_replace {s : Site} (h : s.tree.Sound) {t : Tree} {a b : List (Leaf NodeId)}
    {l : Leaf NodeId} {i : NodeId} {x : List Char} (hl : s.tree.leaves = a ++ l :: b)
    (hs : l.id = s.node)
    (hu : s.tree.replace l.id (.ofLeaf l.kind (String.ofList x)) = .ok (i, t))
    (hx : Trimmed a b l x) (left : l.kind = .whitespace → x ≠ []) :
  t.Sound ∧ TrimAt s.node s.tree.size s.tree.leaves t.leaves
  := by
  use h.replace hu
  rw [h.leaves_replace hl hu, hl, Tree.fst_replace hu]
  apply TrimAt.shorten hs hx left

theorem Leaf.isInlineSpace_iff {l : Leaf NodeId} :
  l.isInlineSpace = true ↔ l.kind = .whitespace ∧ '\n' ∉ l.text.toList
  := by
  simp [isInlineSpace]

theorem Leaf.breaksLine_iff {l : Leaf NodeId} :
  l.breaksLine = true ↔ l.kind = .whitespace ∧ '\n' ∈ l.text.toList
  := by
  simp [breaksLine]

theorem Leaf.breaksLine_of_ne_whitespace {l : Leaf NodeId} (h : l.kind ≠ .whitespace) :
  l.breaksLine = false
  := by
  rw [← Bool.not_eq_true, Leaf.breaksLine_iff]
  rintro ⟨hkind, -⟩
  exact h hkind

theorem Leaf.breaksLine_of_isInlineSpace {l : Leaf NodeId} (h : l.isInlineSpace = true) :
  l.breaksLine = false
  := by
  rw [Leaf.isInlineSpace_iff] at h
  rw [← Bool.not_eq_true, Leaf.breaksLine_iff]
  rintro ⟨-, hfeed⟩
  exact h.2 hfeed

/-! ### White space within a line -/

theorem NoMultiSpaces.fixAt {s : Site} {t : Tree} (h : s.tree.Sound)
    (hn : s.tree.isAttached s.node = true) (he : NoMultiSpaces.fix s = .ok t) :
  FixAt s (NoMultiSpaces.inspect s) t
  := by
  rw [NoMultiSpaces.fix] at he
  rw [NoMultiSpaces.inspect]
  split at he
  · rename_i hlong
    simp only [isLong, Bool.and_eq_true, beq_iff_eq, Bool.not_eq_true',
      decide_eq_true_eq] at hlong
    obtain ⟨⟨⟨⟨hkind, hfeed⟩, hlength⟩, hprev⟩, hnext⟩ := hlong
    have hleaf : s.kind.isComposite = false := by
      rw [hkind]
      rfl
    obtain ⟨a, l, b, hl, hid⟩ := Site.exists_leaf h hn hleaf
    obtain ⟨⟨i, u⟩, hu, rfl⟩ := Except.map_eq_ok_iff.mp he
    rw [Site.kind_leaf h hl hid] at hkind
    rw [Site.text_leaf h hl hid] at hfeed
    rw [Site.prevLeaf?_leaf h hl hid] at hprev
    rw [Site.nextLeaf?_leaf h hl hid] at hnext
    rw [← hid] at hu
    rw [← hid, h.textLengthOf_leaf hl] at hlength
    apply FixAt.of_replace h hl hid hu
    apply Rewrite.single i _ hlength
    · rintro rfl
      simp at hprev
    · rintro rfl
      simp at hnext
    · rw [Leaf.isInlineSpace_iff]
      exact ⟨hkind, by simpa using hfeed⟩
  · obtain rfl := Except.ok.inj he
    rename_i hlong
    rw [if_neg hlong]
    apply FixAt.of_clean h

/-! ### Blank lines -/

/-- Blank lines are dropped from a leaf, or there are none too many and the tree is the same. -/
theorem NoConsecutiveBlankLines.trimAt_of_fix {s : Site} {t : Tree} (h : s.tree.Sound)
    (hn : s.tree.isAttached s.node = true) (he : NoConsecutiveBlankLines.fix s = .ok t) :
  t = s.tree ∧ isExcessive s = false
    ∨ t.Sound ∧ TrimAt s.node s.tree.size s.tree.leaves t.leaves
  := by
  rw [NoConsecutiveBlankLines.fix] at he
  split at he
  · rename_i hmany
    right
    simp only [isExcessive, Bool.and_eq_true, beq_iff_eq, decide_eq_true_eq] at hmany
    obtain ⟨⟨hkind, hprev⟩, hcount⟩ := hmany
    have hleaf : s.kind.isComposite = false := by
      rw [hkind]
      rfl
    obtain ⟨a, l, b, hl, hid⟩ := Site.exists_leaf h hn hleaf
    obtain ⟨⟨i, u⟩, hu, rfl⟩ := Except.map_eq_ok_iff.mp he
    rw [Site.kind_leaf h hl hid] at hkind
    rw [isLast, Site.text_leaf h hl hid, Site.nextLeaf?_leaf h hl hid] at hcount
    rw [Site.prevLeaf?_leaf h hl hid] at hprev
    rw [isLast, Site.text_leaf h hl hid, Site.nextLeaf?_leaf h hl hid, ← hid,
      NewNode.whitespace, ← hkind] at hu
    apply TrimAt.of_replace h hl hid hu
    · apply Trimmed.collapsed hkind _ hcount
      rintro rfl
      simp at hprev
    · intro _
      apply collapsed_ne_nil hcount
  · rename_i hmany
    left
    exact ⟨(Except.ok.inj he).symm, eq_false_of_ne_true hmany⟩

theorem NoConsecutiveBlankLines.trim_of_fix {s : Site} {t : Tree} (h : s.tree.Sound)
    (hn : s.tree.isAttached s.node = true) (he : NoConsecutiveBlankLines.fix s = .ok t) :
  t = s.tree ∧ isExcessive s = false ∨ t.Sound ∧ Trim s.tree.leaves t.leaves
  := (trimAt_of_fix h hn he).imp_right (And.imp_right TrimAt.trim)

theorem NoConsecutiveBlankLines.fixAt {s : Site} {t : Tree} (h : s.tree.Sound)
    (hn : s.tree.isAttached s.node = true) (he : NoConsecutiveBlankLines.fix s = .ok t) :
  FixAt s (NoConsecutiveBlankLines.inspect s) t
  := by
  rcases trimAt_of_fix h hn he with ⟨rfl, hfew⟩ | ⟨hsound, htrim⟩
  · rw [NoConsecutiveBlankLines.inspect, hfew]
    apply FixAt.of_clean h
  · exact ⟨⟨hsound, .inl htrim.trim.rewrite⟩, .inr htrim.editedAt⟩

/-! ### Trailing spaces -/

/-- Trailing spaces are looked for in leaves only. -/
theorem NoTrailingSpaces.isComposite_of_marks {s : Site} (h : NoTrailingSpaces.marks s ≠ []) :
  s.kind.isComposite = false
  := by
  rw [NoTrailingSpaces.marks] at h
  split at h
  · rename_i hkind
    rw [hkind]
    rfl
  · split at h
    · rename_i hkind
      apply Kind.not_isComposite_of_isComment hkind
    · simp at h

/-- Trailing spaces are dropped from a leaf, or there are none and the tree is the same. -/
theorem NoTrailingSpaces.trimAt_of_fix {s : Site} {t : Tree} (h : s.tree.Sound)
    (hn : s.tree.isAttached s.node = true) (he : NoTrailingSpaces.fix s = .ok t) :
  t = s.tree ∧ marks s = [] ∨ t.Sound ∧ TrimAt s.node s.tree.size s.tree.leaves t.leaves
  := by
  rw [NoTrailingSpaces.fix] at he
  split at he
  · rename_i hmarks
    left
    exact ⟨(Except.ok.inj he).symm, List.isEmpty_iff.mp hmarks⟩
  · rename_i hmarks
    right
    rw [List.isEmpty_iff] at hmarks
    obtain ⟨a, l, b, hl, hid⟩ := Site.exists_leaf h hn (NoTrailingSpaces.isComposite_of_marks hmarks)
    rw [NoTrailingSpaces.marks, atEnd, feedFollows, Site.kind_leaf h hl hid,
      Site.text_leaf h hl hid, Site.nextLeaf?_leaf h hl hid] at hmarks
    have hkept := NoTrailingSpaces.kept.eq_1 s
    rw [atEnd, feedFollows, Site.kind_leaf h hl hid, Site.text_leaf h hl hid,
      Site.nextLeaf?_leaf h hl hid] at hkept
    rw [Site.kind_leaf h hl hid, hkept, ← hid] at he
    by_cases hkind : l.kind = .whitespace
    · rw [if_pos hkind] at hmarks
      rw [if_pos hkind] at he
      have htrimmed := Trimmed.space (a := a) hkind hmarks
      split at he
      · rename_i hnone
        use h.remove he
        rw [h.leaves_remove hl he, hl]
        rw [hnone.2] at htrimmed
        apply TrimAt.drop hid hkind htrimmed
      · rename_i hsome
        rw [not_and] at hsome
        obtain ⟨⟨i, u⟩, hu, rfl⟩ := Except.map_eq_ok_iff.mp he
        apply TrimAt.of_replace h hl hid hu htrimmed hsome
    · rw [if_neg hkind] at hmarks
      rw [if_neg hkind, if_neg (by simp [hkind])] at he
      split at hmarks
      · rename_i hcomment
        obtain ⟨⟨i, u⟩, hu, rfl⟩ := Except.map_eq_ok_iff.mp he
        apply TrimAt.of_replace h hl hid hu (Trimmed.comment _ hcomment rfl hmarks)
        intro hspace
        exact absurd hspace hkind
      · simp at hmarks

theorem NoTrailingSpaces.trim_of_fix {s : Site} {t : Tree} (h : s.tree.Sound)
    (hn : s.tree.isAttached s.node = true) (he : NoTrailingSpaces.fix s = .ok t) :
  t = s.tree ∧ marks s = [] ∨ t.Sound ∧ Trim s.tree.leaves t.leaves
  := (trimAt_of_fix h hn he).imp_right (And.imp_right TrimAt.trim)

theorem NoTrailingSpaces.fixAt {s : Site} {t : Tree} (h : s.tree.Sound)
    (hn : s.tree.isAttached s.node = true) (he : NoTrailingSpaces.fix s = .ok t) :
  FixAt s (NoTrailingSpaces.inspect s) t
  := by
  rcases trimAt_of_fix h hn he with ⟨rfl, hnone⟩ | ⟨hsound, htrim⟩
  · apply FixAt.of_uncorrectable h
    simp [NoTrailingSpaces.inspect, Inspection.found, hnone]
  · exact ⟨⟨hsound, .inl htrim.trim.rewrite⟩, .inr htrim.editedAt⟩

/-! ### Comments -/

namespace CommentWrapping

theorem neighbour?_cons {l : Leaf NodeId} {ls : List (Leaf NodeId)} :
  neighbour? (l :: ls) = if l.isInlineSpace then ls.head? else some l
  := rfl

/-- The leaves up to the neighbour. -/
theorem exists_gap_of_neighbour? {ls : List (Leaf NodeId)} {n : Leaf NodeId}
    (h : neighbour? ls = some n) (hn : n.breaksLine = false) :
  ∃ gap rest, ls = gap ++ n :: rest ∧ ((gap = [] ∧ n.kind ≠ .whitespace)
    ∨ ∃ w : Leaf NodeId, w.isInlineSpace = true ∧ gap = [w])
  := by
  cases ls with
  | nil => simp [neighbour?] at h
  | cons l ls =>
    rw [neighbour?_cons] at h
    split at h
    · rename_i hspace
      obtain ⟨rest, rfl⟩ := List.head?_eq_some_iff.mp h
      use [l], rest, rfl
      right
      use l, hspace
    · rename_i hspace
      obtain rfl := Option.some.inj h
      use [], ls, rfl
      left
      use rfl
      intro hkind
      simp only [Leaf.isInlineSpace, Leaf.breaksLine, hkind] at hspace hn
      simp_all

/-- White space before a comment that does not begin its line has no line feed. -/
theorem isInlineSpace_of_not_startsLine {a : List (Leaf NodeId)} {w : Leaf NodeId}
    (h : ¬ StartsLine (a ++ [w])) (hw : w.kind = .whitespace) :
  w.isInlineSpace = true
  := by
  rw [Leaf.isInlineSpace_iff]
  use hw
  intro hfeed
  apply h
  intro p hp
  have hspace : w.isInlineSpace = false := by
    simp [Leaf.isInlineSpace, hw, hfeed]
  rw [List.reverse_append, List.reverse_singleton, List.singleton_append, neighbour?_cons,
    hspace] at hp
  obtain rfl := Option.some.inj hp
  rw [Leaf.breaksLine_iff]
  exact ⟨hw, hfeed⟩

section

variable {comment : List Char} {prev next : Option (Leaf NodeId)}

theorem Layout.of_eq_alone (h : of comment prev next = alone) :
  '\n' ∉ comment ∧ isSwitch comment = false ∧ (∀ p, prev = some p → p.breaksLine = true)
    ∧ ∀ n, next = some n → n.breaksLine = true
  := by
  rw [of] at h
  split at h
  · rename_i hprev hnext
    split at h
    · cases h
    · rename_i hfine
      simp only [Bool.or_eq_true, not_or, Bool.not_eq_true, List.contains_eq_mem,
        decide_eq_false_iff_not] at hfine
      rw [Option.filter_eq_none_iff] at hprev hnext
      exact ⟨hfine.1, hfine.2, by simpa using hprev, by simpa using hnext⟩
  · split at h
    · cases h
    · split at h
      · cases h
      · cases h
  · split at h
    · cases h
    · cases h
  · cases h

theorem Layout.of_eq_shortAfter (h : of comment prev next = shortAfter) :
  '\n' ∉ comment ∧ (∃ p, prev = some p ∧ p.breaksLine = false)
    ∧ ∀ n, next = some n → n.breaksLine = true
  := by
  rw [of] at h
  split at h
  · split at h
    · cases h
    · cases h
  · split at h
    · cases h
    · split at h
      · cases h
      · cases h
  · rename_i p hprev hnext
    split at h
    · cases h
    · rename_i hshort
      rw [Option.filter_eq_some_iff] at hprev
      rw [Option.filter_eq_none_iff] at hnext
      constructor
      · simpa using hshort
      · constructor
        · use p, hprev.1
          simpa using hprev.2
        · simpa using hnext
  · cases h

theorem Layout.of_eq_followed {id : NodeId} (h : of comment prev next = followed id) :
  (∀ p, prev = some p → p.breaksLine = true)
    ∧ ∃ n, next = some n ∧ n.id = id ∧ n.breaksLine = false
  := by
  rw [of] at h
  split at h
  · split at h
    · cases h
    · cases h
  · split at h
    · cases h
    · split at h
      · cases h
      · cases h
  · split at h
    · cases h
    · cases h
  · rename_i n hprev hnext
    rw [Option.filter_eq_none_iff] at hprev
    rw [Option.filter_eq_some_iff] at hnext
    constructor
    · simpa using hprev
    · use n, hnext.1, Layout.followed.inj h
      simpa using hnext.2

end

variable {s : Site} {t : Tree} {a b : List (Leaf NodeId)} {c : Leaf NodeId}

/-- What is corrected of a comment alone on its line. -/
theorem fixAt_alone (h : s.tree.Sound) (hl : s.tree.leaves = a ++ c :: b)
    (hc : c.id = s.node) (hkind : c.kind = .blockComment) (hshort : '\n' ∉ c.text.toList)
    (hswitch : isSwitch c.text.toList = false) (hstarts : StartsLine a) (hends : EndsLine b)
    (seen : Inspection) (he : corrected s .alone = .ok t) :
  FixAt s seen t
  := by
  rw [corrected, Site.text_leaf h hl hc, ← hc] at he
  obtain ⟨⟨i, u⟩, hu, rfl⟩ := Except.map_eq_ok_iff.mp he
  apply FixAt.of_replace h hl hc hu
  apply Rewrite.convert i hkind hshort hswitch hstarts hends

/-- What is corrected of a comment at the end of a line. -/
theorem fixAt_shortAfter (h : s.tree.Sound) (hl : s.tree.leaves = a ++ c :: b)
    (hc : c.id = s.node) (hkind : c.kind = .blockComment) (hshort : '\n' ∉ c.text.toList)
    (hstarts : ¬ StartsLine a) (hends : EndsLine b)
    (seen : Inspection) (he : corrected s .shortAfter = .ok t) :
  FixAt s seen t
  := by
  rw [corrected, Site.text_leaf h hl hc, ← hc] at he
  split at he
  · cases he
  · rename_i o u hu
    have hsound := h.setSpaceBefore hu
    obtain ⟨j, a₀, old, hleaves, rfl, hold⟩ := h.leaves_setSpaceBefore hl (by decide) hu
    rw [← List.singleton_append, ← List.append_assoc] at hleaves
    obtain ⟨⟨i, v⟩, hv, rfl⟩ := Except.map_eq_ok_iff.mp he
    have hleaves' := hsound.leaves_replace hleaves hv
    rw [List.append_assoc a₀ [_], List.singleton_append] at hleaves'
    have hspace : (old = [] ∧ ∀ p, a₀.getLast? = some p → p.kind ≠ .whitespace)
        ∨ ∃ w : Leaf NodeId, w.isInlineSpace = true ∧ old = [w] := by
      rcases hold with ⟨rfl, hlast⟩ | ⟨w, hw, rfl⟩
      · rw [List.append_nil] at hlast
        exact .inl ⟨rfl, hlast⟩
      · exact .inr ⟨w, isInlineSpace_of_not_startsLine hstarts hw, rfl⟩
    refine ⟨⟨hsound.replace hv, .inl ?_⟩, .inr ?_⟩
    · rw [hleaves', hl]
      apply Rewrite.attach j i hkind hshort hstarts hends hspace
    · use a₀, old ++ [c], [⟨j, .whitespace, " "⟩, ⟨i, .eolComment, asEolComment c.text.toList⟩], b
      rw [hleaves', hl]
      refine ⟨by simp, by simp, ⟨c, by simp, hc⟩, ?_⟩
      intro l hmem
      rcases hspace with ⟨rfl, -⟩ | ⟨w, hw, rfl⟩
      · obtain rfl := List.mem_singleton.mp hmem
        exact .inl hc
      · rcases List.mem_pair.mp hmem with rfl | rfl
        · exact .inr hw
        · exact .inl hc

/-- What is corrected after a comment that begins its line. -/
theorem fixAt_followed (h : s.tree.Sound) (hl : s.tree.leaves = a ++ c :: b)
    (hc : c.id = s.node) (hkind : c.kind = .blockComment) {n : Leaf NodeId}
    (hn : neighbour? b = some n) (hbreak : n.breaksLine = false) (hstarts : StartsLine a)
    (seen : Inspection) (he : corrected s (.followed n.id) = .ok t) :
  FixAt s seen t
  := by
  obtain ⟨gap, rest, rfl, hgap⟩ := exists_gap_of_neighbour? hn hbreak
  have hindent : s.tree.indent s.node = indentAfter a := by
    rw [Tree.indent, ← hc, h.leavesBefore_leaf hl]
    rfl
  have hne : indentAfter a ≠ "" := by
    rw [indentAfter]
    split
    · simp
    · decide
  rw [corrected, hindent] at he
  obtain ⟨⟨o, u⟩, hu, rfl⟩ := Except.map_eq_ok_iff.mp he
  have hl' : s.tree.leaves = (a ++ c :: gap) ++ n :: rest := by
    rw [hl, List.append_assoc, List.cons_append]
  obtain ⟨j, a₀, old, hleaves, hsplit, hold⟩ := h.leaves_setSpaceBefore hl' hne hu
  have hfront : a₀ = a ++ [c] := by
    rcases hgap with ⟨rfl, -⟩ | ⟨w, hw, rfl⟩
    · rcases hold with ⟨rfl, -⟩ | ⟨w, hw, rfl⟩
      · rw [hsplit, List.append_nil]
      · obtain ⟨-, hcw⟩ := List.append_inj' hsplit rfl
        rw [← List.singleton_inj.mp hcw, hkind] at hw
        cases hw
    · rw [Leaf.isInlineSpace_iff] at hw
      rw [List.append_cons] at hsplit hold
      rcases hold with ⟨rfl, hlast⟩ | ⟨w', -, rfl⟩
      · apply absurd hw.1
        apply hlast w
        rw [List.getLast?_append, List.getLast?_singleton]
        rfl
      · exact (List.append_inj' hsplit rfl).1.symm
  rw [hfront, List.append_assoc, List.singleton_append] at hleaves
  refine ⟨⟨h.setSpaceBefore hu, .inl ?_⟩, .inr ?_⟩
  · rw [hleaves, hl]
    apply Rewrite.separate j hkind hstarts hbreak hgap
  · use a, c :: gap, [c, ⟨j, .whitespace, indentAfter a⟩], n :: rest
    rw [hleaves, hl]
    refine ⟨by simp, by simp, ⟨c, by simp, hc⟩, ?_⟩
    intro l hmem
    rcases List.mem_cons.mp hmem with rfl | hmem
    · exact .inl hc
    · rcases hgap with ⟨rfl, -⟩ | ⟨w, hw, rfl⟩
      · cases hmem
      · rw [List.mem_singleton.mp hmem]
        exact .inr hw

theorem fixAt (h : s.tree.Sound) (hn : s.tree.isAttached s.node = true)
    (he : fix s = .ok t) :
  FixAt s (inspect s) t
  := by
  rw [fix] at he
  rw [inspect]
  split at he
  · rename_i hkind
    rw [if_pos hkind]
    have hleaf : s.kind.isComposite = false := by
      rw [hkind]
      rfl
    obtain ⟨a, c, b, hl, hc⟩ := Site.exists_leaf h hn hleaf
    rw [Site.kind_leaf h hl hc] at hkind
    have hlayout : layout s
        = .of c.text.toList (neighbour? a.reverse) (neighbour? b) := by
      rw [layout, Site.text_leaf h hl hc, ← hc, h.leavesBefore_leaf hl, h.leavesAfter_leaf hl]
    cases hcase : layout s with
    | fine | spanning | between | longAfter =>
      rw [hcase] at he
      obtain rfl := Except.ok.inj he
      apply FixAt.of_uncorrectable h
      simp [findings, Site.finding, Inspection.found]
    | alone =>
      rw [hcase] at he hlayout
      obtain ⟨hshort, hswitch, hstarts, hends⟩ := Layout.of_eq_alone hlayout.symm
      apply fixAt_alone h hl hc hkind hshort hswitch hstarts hends _ he
    | shortAfter =>
      rw [hcase] at he hlayout
      obtain ⟨hshort, ⟨p, hp, hbreak⟩, hends⟩ := Layout.of_eq_shortAfter hlayout.symm
      apply fixAt_shortAfter h hl hc hkind hshort _ hends _ he
      intro hstarts
      rw [hstarts p hp] at hbreak
      cases hbreak
    | followed n =>
      rw [hcase] at he hlayout
      obtain ⟨hstarts, n, hn, rfl, hbreak⟩ := Layout.of_eq_followed hlayout.symm
      apply fixAt_followed h hl hc hkind hn hbreak hstarts _ he
  · rename_i hkind
    obtain rfl := Except.ok.inj he
    rw [if_neg hkind]
    apply FixAt.of_clean h

end CommentWrapping

/-- A fix of a standard rule at a node of a sound tree rewrites the leaves at the node, or there is
nothing to correct and the tree is the same. -/
theorem fixAt_of_fix {r : Rule} (hr : r ∈ Preset.standard.rules) {s : Site} {t : Tree}
    (h : s.tree.Sound) (hn : s.tree.isAttached s.node = true) (he : r.fix s = .ok t) :
  FixAt s (r.inspect s) t
  := by
  simp only [Preset.rules, List.mem_cons, List.not_mem_nil, or_false] at hr
  rcases hr with rfl | rfl | rfl | rfl
  · apply CommentWrapping.fixAt h hn he
  · apply NoTrailingSpaces.fixAt h hn he
  · apply NoMultiSpaces.fixAt h hn he
  · apply NoConsecutiveBlankLines.fixAt h hn he

theorem rewrite_of_fix {r : Rule} (hr : r ∈ Preset.standard.rules) {s : Site} {t : Tree}
    (h : s.tree.Sound) (hn : s.tree.isAttached s.node = true) (he : r.fix s = .ok t) :
  FixSound s (r.inspect s) t
  := (fixAt_of_fix hr h hn he).toFixSound

end Fettle
