import Fettle.Proofs.Engine.Switching
import Fettle.Proofs.Rules.Reach
import Mathlib.Data.List.Induction

/-!
# Lines on which all rules are off

A `SilentLine` is a line that ends with an end-of-line comment that switches all rules off.  Its
`front` is the end of an earlier leaf, in which the line begins; its `leaves` are those that begin
on it.  `SilentLine.In` says that it stands in a document between other leaves.

There is such a line for every comment of this kind in a tree whose comments end as they should
(`SilentLine.exists_in`).  The text of the line is one of the lines of the document
(`In.getElem?_lines`), and nothing is reported on it: what a rule finds at its leaves is
suppressed, and so is what comment wrapping finds at the leaf in which the line begins
(`In.isSuppressed_of_mem_findings`, `In.isSuppressed_of_wrapping`).
-/

namespace Fettle

open Kotlin Text

/-! ### Comments that end with their line -/

namespace Suppression

/-- Every leaf is placed at the width of those before it. -/
theorem mem_placed (q : Nat) (a : List (Leaf NodeId)) (l : Leaf NodeId) (b : List (Leaf NodeId)) :
  (q + width a, l) ∈ placed q (a ++ l :: b)
  := by
  induction a generalizing q with
  | nil => apply List.mem_cons_self
  | cons m a ih =>
    rw [width, ← Nat.add_assoc]
    apply List.mem_cons_of_mem _ (ih _)

/-- A comment that switches a rule off suppresses it on its line. -/
theorem isSuppressed_of_offOnLine {t : Tree} {o : Nat} (ho : o ≤ t.text.utf8ByteSize) {r : RuleId}
    {p : Nat × Leaf NodeId} (hp : p ∈ placed 0 t.leaves) (hoff : OffOnLine t.text o r p) :
  isSuppressed (spans t) o r = true
  := by
  have hend : o ≤ 0 + width t.leaves := by
    rwa [Nat.zero_add, ← Tree.utf8ByteSize_text]
  have hscan : (scan t.text 0 [] t.leaves).any (·.covers o r) = true := by
    rw [any_covers_scan ho (by simp) hend]
    exact .inl ⟨p, hp, hoff⟩
  obtain ⟨s, hs, hcovers⟩ := List.any_eq_true.mp hscan
  rw [isSuppressed, List.any_eq_true]
  refine ⟨s, List.mem_filter.mpr ⟨hs, ?_⟩, hcovers⟩
  -- a span that covers an offset is not empty
  simp only [Span.covers, Bool.and_eq_true, decide_eq_true_eq] at hcovers
  rw [decide_eq_true_eq]
  omega

end Suppression

/-! ### Comments and their ends -/

/-- The document ends before some leaves, or the line does. -/
def Closes (c : List (Leaf NodeId)) : Prop :=
  ∀ w, c.head? = some w → w.kind = .whitespace ∧ w.text.toList.head? = some '\n'

/-- The comments of a tree end as those of a text do: an end-of-line comment with its line, and
the others with their closing mark. -/
structure Tree.CommentsEnd (t : Tree) : Prop where
  line : ∀ l c, l :: c <:+ t.leaves → l.kind = .eolComment → '\n' ∉ l.text.toList ∧ Closes c
  block : ∀ l ∈ t.leaves, l.kind = .blockComment ∨ l.kind = .kdoc →
    ['*', '/'] <:+ l.text.toList

/-- The line on which a node of a tree starts. -/
def Tree.lineAt? (t : Tree) (id : NodeId) : Option (List Char) :=
  (lines t.text.toList)[lineOf t.text (t.startOffset id)]?

namespace Closes

variable {c : List (Leaf NodeId)} (h : Closes c)

include h

theorem feed_mem {w : Leaf NodeId} (hw : c.head? = some w) :
  '\n' ∈ w.text.toList
  := List.mem_of_head? (h w hw).2

theorem chars_eq :
  chars c = [] ∨ ∃ r, chars c = '\n' :: r
  := by
  cases c with
  | nil => exact .inl rfl
  | cons w c =>
    obtain ⟨r, hr⟩ := List.head?_eq_some_iff.mp (h w rfl).2
    right
    use r ++ chars c
    rw [chars_cons, hr, List.cons_append]

/-- No element on the line comes after the leaves at its end. -/
theorem width_le_of_follows {a b : List (Leaf NodeId)} {o : Nat} (ho : Follows a (b ++ c) o) :
  width a ≤ o ∧ o ≤ width a + width b
  := by
  obtain ⟨gap, n, rest, hgap, hspace, rfl⟩ := ho
  rw [width_append]
  rcases List.append_eq_append_iff.mp hgap with ⟨x, rfl, hx⟩ | ⟨x, rfl, -⟩
  · cases x with
    | nil =>
      rw [List.append_nil]
      omega
    | cons w x =>
      -- the line feed after the line is not white space within it
      have hinline := hspace w (by simp)
      rw [Leaf.isInlineSpace_iff] at hinline
      apply absurd _ hinline.2
      apply h.feed_mem
      rw [hx]
      rfl
  · rw [width_append]
    omega

end Closes

/-! ### Lines -/

/-- A line begins after some leaves, and the last of them, if there is one, ends in the front of
the line.  That front does not end in blanks if the leaf is a comment. -/
inductive Opens (front : List Char) : List (Leaf NodeId) → Prop where
  | start (nothing : front = []) : Opens front []
  | after {a : List (Leaf NodeId)} {z : Leaf NodeId} {u : List Char}
      (text : z.text.toList = u ++ '\n' :: front)
      (kept : z.kind.isComment = true → trimEnd front = front) : Opens front (a ++ [z])

/-- The leaf in which a line begins ends in the front of the line. -/
theorem Opens.exists_text {front : List Char} {a : List (Leaf NodeId)} (h : Opens front a)
    {z : Leaf NodeId} (hz : a.getLast? = some z) :
  ∃ u, z.text.toList = u ++ '\n' :: front ∧ (z.kind.isComment = true → trimEnd front = front)
  := by
  cases h with
  | start => cases hz
  | after text kept =>
    rw [List.getLast?_concat] at hz
    obtain rfl := Option.some.inj hz
    exact ⟨_, text, kept⟩

/-- A line that ends with a comment that switches all rules off. -/
structure SilentLine where
  front : List Char
  before : List (Leaf NodeId)
  comment : Leaf NodeId
  inline : '\n' ∉ front ++ chars (before ++ [comment])
  kind : comment.kind = .eolComment
  silent : Directive.parse? comment.text = some ⟨.disable, .all⟩

namespace SilentLine

/-- The leaves that begin on the line. -/
def leaves (line : SilentLine) : List (Leaf NodeId) :=
  line.before ++ [line.comment]

/-- The text of the line. -/
def text (line : SilentLine) : List Char :=
  line.front ++ chars line.leaves

theorem leaves_ne_nil (line : SilentLine) :
  line.leaves ≠ []
  := List.append_ne_nil_of_right_ne_nil _ (List.cons_ne_nil _ _)

theorem feed_notMem_front (line : SilentLine) :
  '\n' ∉ line.front
  := by
  intro hmem
  apply line.inline (List.mem_append_left _ hmem)

theorem feed_notMem_leaves (line : SilentLine) :
  '\n' ∉ chars line.leaves
  := by
  intro hmem
  apply line.inline (List.mem_append_right _ hmem)

/-- The line is between other leaves of a document. -/
structure In (line : SilentLine) (a c ls : List (Leaf NodeId)) : Prop where
  leaves : ls = a ++ (line.leaves ++ c)
  opens : Opens line.front a
  closes : Closes c

/-- A line begins at the start of a document or after its last line feed. -/
theorem exists_opens (ls : List (Leaf NodeId))
    (h : ∀ l ∈ ls, l.kind.isComment = true → '\n' ∈ l.text.toList →
      ['*', '/'] <:+ l.text.toList) :
  ∃ front a before, ls = a ++ before ∧ '\n' ∉ front ++ chars before ∧ Opens front a
  := by
  induction ls using List.reverseRecOn with
  | nil => exact ⟨[], [], [], rfl, List.not_mem_nil, .start rfl⟩
  | append_singleton ls l ih =>
    have hl := h l (by simp)
    by_cases hfeed : '\n' ∈ l.text.toList
    · obtain ⟨u, front, htext, hfront⟩ := exists_last_line hfeed
      use front, ls ++ [l], [], (List.append_nil _).symm
      constructor
      · rwa [chars_nil, List.append_nil]
      · apply Opens.after htext
        intro hcomment
        have hsuffix := hl hcomment hfeed
        rw [htext] at hsuffix
        apply trimEnd_of_suffix hsuffix
    · obtain ⟨front, a, before, rfl, hnone, hopens⟩ := ih fun m hm => h m (by simp [hm])
      use front, a, before ++ [l], List.append_assoc a before [l]
      refine ⟨?_, hopens⟩
      rw [chars_append, ← List.append_assoc, List.mem_append, not_or]
      use hnone
      simpa using hfeed

/-- Every comment that switches all rules off on its line is at the end of a silent line. -/
theorem exists_in {t : Tree} (h : t.CommentsEnd) {a c : List (Leaf NodeId)}
    {comment : Leaf NodeId} (hl : t.leaves = a ++ comment :: c)
    (hkind : comment.kind = .eolComment)
    (hsilent : Directive.parse? comment.text = some ⟨.disable, .all⟩) :
  ∃ line : SilentLine, line.comment = comment ∧ ∃ a, line.In a c t.leaves
  := by
  have hmarks : ∀ l ∈ a, l.kind.isComment = true → '\n' ∈ l.text.toList →
      ['*', '/'] <:+ l.text.toList := by
    intro l hmem hcomment hfeed
    obtain ⟨a₁, a₂, rfl⟩ := List.append_of_mem hmem
    rw [List.append_assoc, List.cons_append] at hl
    apply h.block l (by rw [hl]; simp)
    cases hk : l.kind with
    | eolComment => exact absurd hfeed (h.line _ _ ⟨_, hl.symm⟩ hk).1
    | blockComment => exact .inl rfl
    | kdoc => exact .inr rfl
    | _ =>
      rw [hk] at hcomment
      cases hcomment
  obtain ⟨front, a, before, rfl, hnone, hopens⟩ := exists_opens a hmarks
  obtain ⟨hinline, hcloses⟩ := h.line _ _ ⟨_, hl.symm⟩ hkind
  have hline : '\n' ∉ front ++ chars (before ++ [comment]) := by
    rw [chars_append, ← List.append_assoc, List.mem_append, not_or]
    use hnone
    simpa using hinline
  use ⟨front, before, comment, hline, hkind, hsilent⟩, rfl, a
  refine ⟨?_, hopens, hcloses⟩
  rw [hl, leaves, List.append_assoc, List.append_assoc, List.singleton_append]

namespace In

variable {line : SilentLine} {a c : List (Leaf NodeId)}

/-! ### Leaves at the line -/

section

variable {ls : List (Leaf NodeId)} (h : line.In a c ls)

include h

theorem comment_split :
  ls = (a ++ line.before) ++ line.comment :: c
  := by
  rw [h.leaves, SilentLine.leaves]
  simp

/-- The leaf in which the line begins. -/
theorem exists_first_split {z : Leaf NodeId} (hz : a.getLast? = some z) :
  ∃ p, a = p ++ [z] ∧ ls = p ++ z :: (line.leaves ++ c)
  := by
  obtain ⟨p, rfl⟩ := List.getLast?_eq_some_iff.mp hz
  use p, rfl
  rw [h.leaves, List.append_assoc, List.singleton_append]

/-- The leaf after the line. -/
theorem exists_next_split {w : Leaf NodeId} (hw : c.head? = some w) :
  ∃ q, c = w :: q ∧ ls = (a ++ line.leaves) ++ w :: q
  := by
  obtain ⟨q, rfl⟩ := List.head?_eq_some_iff.mp hw
  use q, rfl
  rw [h.leaves, List.append_assoc]

end

/-! ### Where the line is -/

section

variable {t : Tree} (h : line.In a c t.leaves)

include h

theorem text_eq :
  t.text.toList = chars a ++ (chars line.leaves ++ chars c)
  := by
  rw [← chars_leaves, h.leaves, chars_append, chars_append]

/-- The line of the offsets from the first leaf of the line to its end. -/
theorem lineOf_eq {o : Nat} (hle : width a ≤ o) (hlt : o ≤ width a + width line.leaves) :
  lineOf t.text o = (chars a).count '\n'
  := by
  rw [width_eq_byteLength] at hle hlt
  rw [width_eq_byteLength] at hlt
  apply Fettle.lineOf_eq h.text_eq line.feed_notMem_leaves hle hlt

theorem lineOf_comment :
  lineOf t.text (width (a ++ line.before)) = (chars a).count '\n'
  := by
  apply h.lineOf_eq
  · rw [width_append]
    omega
  · rw [SilentLine.leaves, width_append, width_append]
    omega

/-- The text of the line is a line of the document. -/
theorem getElem?_lines :
  (lines t.text.toList)[(chars a).count '\n']? = some line.text
  := by
  have htext := h.text_eq
  cases h.opens with
  | start nothing =>
    rw [htext, SilentLine.text, nothing, List.nil_append]
    apply Text.getElem?_lines line.feed_notMem_leaves (.inl rfl) h.closes.chars_eq
  | @after a z u text kept =>
    have hfront := line.feed_notMem_front
    have hchars : chars (a ++ [z]) = (chars a ++ u ++ ['\n']) ++ line.front := by
      rw [chars_append, chars_cons, text, chars_nil]
      simp
    rw [htext, hchars, List.count_append, List.count_eq_zero.mpr hfront, Nat.add_zero,
      List.append_assoc, ← List.append_assoc line.front]
    apply Text.getElem?_lines line.inline (.inr ⟨_, rfl⟩) h.closes.chars_eq

/-- The line is that on which its comment starts. -/
theorem lineAt?_comment (ht : t.Sound) :
  t.lineAt? line.comment.id = some line.text
  := by
  rw [Tree.lineAt?, ht.startOffset_leaf h.comment_split, h.lineOf_comment]
  apply h.getElem?_lines

/-! ### What is suppressed -/

/-- All rules are suppressed on the line. -/
theorem isSuppressed {o : Nat} (hle : width a ≤ o) (hlt : o ≤ width a + width line.leaves)
    (r : RuleId) :
  Suppression.isSuppressed (Suppression.spans t) o r = true
  := by
  have hwidth : width t.leaves = width a + (width line.leaves + width c) := by
    rw [h.leaves, width_append, width_append]
  have hoff : Suppression.OffOnLine t.text o r (width (a ++ line.before), line.comment) := by
    refine ⟨line.kind, ?_, _, line.silent, rfl, rfl⟩
    rw [h.lineOf_comment, h.lineOf_eq hle hlt]
  apply Suppression.isSuppressed_of_offOnLine _ _ hoff
  · rw [Tree.utf8ByteSize_text]
    omega
  · rw [h.comment_split, ← Nat.zero_add (width _)]
    apply Suppression.mem_placed

end

section

variable {s : Site} (h : line.In a c s.tree.leaves) (hs : s.tree.Sound) {f : Finding}

include h hs

/-- What a standard rule finds at a leaf of the line is suppressed. -/
theorem isSuppressed_of_mem_findings {r : Rule} (hr : r ∈ Preset.standard.rules)
    {l : Leaf NodeId} (hl : l ∈ line.leaves) (hid : l.id = s.node)
    (hf : f ∈ (r.inspect s).findings) (id : RuleId) :
  Suppression.isSuppressed (Suppression.spans s.tree) f.offset id = true
  := by
  obtain ⟨b₁, b₂, hb⟩ := List.append_of_mem hl
  have hat : s.At (a ++ b₁) l (b₂ ++ c) := by
    refine ⟨hs, ?_, hid⟩
    rw [h.leaves, hb]
    simp
  have hwidth : width line.leaves = width b₁ + (byteLength l.text.toList + width b₂) := by
    rw [hb, width_append, width, utf8ByteSize_eq_byteLength]
  rcases within_or_follows hat hr hf with ⟨hle, hlt⟩ | hnext
  · rw [width_concat] at hlt
    rw [width_append] at hle hlt
    apply h.isSuppressed (by omega) (by omega)
  · obtain ⟨hle, hlt⟩ := h.closes.width_le_of_follows hnext
    rw [width_concat, width_append] at hle hlt
    apply h.isSuppressed (by omega) (by omega)

/-- What can be wrapped at the leaf in which the line begins is suppressed. -/
theorem isSuppressed_of_wrapping {z : Leaf NodeId} (hz : a.getLast? = some z)
    (hid : z.id = s.node) (hf : f ∈ (CommentWrapping.inspect s).findings)
    (hcorrectable : f.correctable = true) (id : RuleId) :
  Suppression.isSuppressed (Suppression.spans s.tree) f.offset id = true
  := by
  obtain ⟨p, rfl, hsplit⟩ := h.exists_first_split hz
  have hat : s.At p z (line.leaves ++ c) := ⟨hs, hsplit, hid⟩
  rcases CommentWrapping.place_of_mem_findings hat hf with ⟨-, hshort⟩ | hnext
  · obtain ⟨u, htext, -⟩ := h.opens.exists_text hz
    apply absurd _ (hshort hcorrectable)
    rw [htext]
    simp
  · obtain ⟨hle, hlt⟩ := h.closes.width_le_of_follows hnext
    apply h.isSuppressed hle hlt

end

end In

end SilentLine

end Fettle
