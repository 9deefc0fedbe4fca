import Fettle.Proofs.Rules.SilentLine

/-!
# Lines that formatting spares

A line on which all rules are off stays as it is when the document is formatted, though a leaf in
which it begins or ends may reach over other lines and be changed there.

`SilentLine.In.of_fix` says it of one fix: a fix at no leaf of the line leaves the line in place,
unless it wraps the comment in which the line begins.  The fixes of a pass are all of this kind
(`id_ne_of_mem_fixes`, `not_wrapping_of_mem_fixes`), since the others are for findings on the
line, which are suppressed, and a leaf that replaces the one in which the line begins has a number
that the pass does not know (`Held`).  So the line stays in each pass (`SilentLine.In.of_correct`),
and in a run (`lineAt?_formatTimed`).
-/

namespace Fettle

open Kotlin Text

/-- A leaf stands at one place among the leaves. -/
theorem Tree.Sound.split_unique {t : Tree} (h : t.Sound) {a b a' b' : List (Leaf NodeId)}
    {l l' : Leaf NodeId} (hl : t.leaves = a ++ l :: b) (hl' : t.leaves = a' ++ l' :: b')
    (hid : l.id = l'.id) :
  a = a' ∧ l = l' ∧ b = b'
  := by
  have ha : a = a' := by
    rw [← h.leavesBefore_leaf hl, hid, h.leavesBefore_leaf hl']
  rw [hl, ha] at hl'
  obtain ⟨rfl, rfl⟩ := List.cons.inj (List.append_cancel_left hl')
  exact ⟨ha, rfl, rfl⟩

/-! ### Edits at other leaves -/

section

variable {n : NodeId} {ls' : List (Leaf NodeId)}

/-- An edit at another leaf before a line leaves the one in which the line begins. -/
theorem Opens.of_editedAt {front : List Char} {a b : List (Leaf NodeId)} (h : Opens front a)
    (he : EditedAt n (a ++ b) ls') (hfirst : ∀ z, a.getLast? = some z → z.id ≠ n)
    (hb : ∀ l ∈ b, l.id ≠ n) :
  ∃ a', ls' = a' ++ b ∧ Opens front a' ∧ a'.getLast? = a.getLast?
  := by
  have hnot {b' : List (Leaf NodeId)} (hb' : EditedAt n b b') : False := by
    obtain ⟨l, hl, hid⟩ := hb'.exists_mem
    exact hb l hl hid
  cases h with
  | start => exact absurd he hnot
  | @after p z u text kept =>
    have hspace : z.isInlineSpace = false := by
      simp [Leaf.isInlineSpace, text]
    rw [List.append_assoc, List.singleton_append] at he
    rcases he.of_append_cons (hfirst z List.getLast?_concat) hspace with
      ⟨p', -, rfl⟩ | ⟨b', hb', -⟩
    · use p' ++ [z]
      rw [List.append_assoc, List.getLast?_concat, List.getLast?_concat]
      exact ⟨rfl, .after text kept, rfl⟩
    · exact absurd hb' hnot

/-- An edit at another leaf after a line leaves the one at the end of the line. -/
theorem Closes.of_editedAt {c : List (Leaf NodeId)} (h : Closes c) (he : EditedAt n c ls')
    (hnext : ∀ w, c.head? = some w → w.id ≠ n) :
  Closes ls'
  := by
  have hnil {x : List (Leaf NodeId)} (hx : EditedAt n [] x) : False := by
    obtain ⟨l, hl, -⟩ := hx.exists_mem
    cases hl
  cases c with
  | nil => exact absurd he hnil
  | cons w c =>
    have hfeed := h.feed_mem (w := w) rfl
    have hspace : w.isInlineSpace = false := by
      simp [Leaf.isInlineSpace, hfeed]
    rw [← List.nil_append (w :: c)] at he
    rcases he.of_append_cons (hnext w rfl) hspace with ⟨x, hx, -⟩ | ⟨c', -, rfl⟩
    · exact absurd hx hnil
    · intro v hv
      apply h v hv

end

namespace SilentLine.In

variable {line : SilentLine} {a c : List (Leaf NodeId)}

/-- An edit at a leaf that is not at the line leaves the line in place. -/
theorem of_editedAt {n : NodeId} {ls ls' : List (Leaf NodeId)} (h : line.In a c ls)
    (he : EditedAt n ls ls') (hline : ∀ l ∈ line.leaves, l.id ≠ n)
    (hfirst : ∀ z, a.getLast? = some z → z.id ≠ n) (hnext : ∀ w, c.head? = some w → w.id ≠ n) :
  ∃ a' c', line.In a' c' ls' ∧ a'.getLast? = a.getLast?
  := by
  have hcomment : line.comment.isInlineSpace = false := by
    simp [Leaf.isInlineSpace, line.kind]
  rw [h.comment_split] at he
  rcases he.of_append_cons (hline _ List.mem_concat_self) hcomment with
    ⟨x, hx, rfl⟩ | ⟨c', hc', rfl⟩
  · obtain ⟨a', rfl, hopens, hlast⟩ := h.opens.of_editedAt hx hfirst
      fun l hl => hline l (List.mem_append_left _ hl)
    refine ⟨a', c, ⟨?_, hopens, h.closes⟩, hlast⟩
    simp [SilentLine.leaves]
  · refine ⟨a, c', ⟨?_, h.opens, h.closes.of_editedAt hc' hnext⟩, rfl⟩
    simp [SilentLine.leaves]

/-! ### Trimmed leaves at the line -/

section

variable {t t' : Tree} (ht : t.Sound) (h : line.In a c t.leaves) {n i : NodeId}
  (he : TrimAt n i t.leaves t'.leaves)

include ht h he

/-- The leaf in which the line begins keeps its last line when it is trimmed. -/
theorem of_trimAt_first {z : Leaf NodeId} (hz : a.getLast? = some z) (hid : z.id = n) :
  ∃ a', line.In a' c t'.leaves ∧ ∀ z', a'.getLast? = some z' → z'.id = i
  := by
  obtain ⟨u, htext, hkept⟩ := h.opens.exists_text hz
  obtain ⟨p, rfl, hsplit⟩ := h.exists_first_split hz
  obtain ⟨m, ms, hline⟩ := List.exists_cons_of_ne_nil line.leaves_ne_nil
  have hm : '\n' ∉ m.text.toList := by
    intro hmem
    apply line.feed_notMem_leaves
    rw [hline, chars_cons]
    apply List.mem_append_left _ hmem
  have hhead : (line.leaves ++ c).head? = some m := by
    rw [hline]
    rfl
  generalize hls : t.leaves = ls at he
  generalize hls' : t'.leaves = ls' at he
  cases he with
  | shorten node trimmed =>
    obtain ⟨rfl, rfl, rfl⟩ := ht.split_unique hsplit hls (hid.trans node.symm)
    obtain ⟨w, rfl⟩ := trimmed.exists_last_line hhead hm htext line.feed_notMem_front hkept
    use p ++ [⟨i, z.kind, String.ofList (w ++ '\n' :: line.front)⟩]
    constructor
    · exact ⟨by simp, .after String.toList_ofList hkept, h.closes⟩
    · intro z' hz'
      rw [List.getLast?_concat] at hz'
      rw [← Option.some.inj hz']
  | drop node kind trimmed =>
    obtain ⟨rfl, rfl, rfl⟩ := ht.split_unique hsplit hls (hid.trans node.symm)
    obtain ⟨w, hw⟩ := trimmed.exists_last_line hhead hm htext line.feed_notMem_front hkept
    simp at hw

/-- The white space after the line keeps its line feed when it is trimmed. -/
theorem of_trimAt_next {w : Leaf NodeId} (hw : c.head? = some w) (hid : w.id = n) :
  ∃ c', line.In a c' t'.leaves
  := by
  obtain ⟨hkind, hfeed⟩ := h.closes w hw
  obtain ⟨q, rfl, hsplit⟩ := h.exists_next_split hw
  generalize hls : t.leaves = ls at he
  generalize hls' : t'.leaves = ls' at he
  cases he with
  | @shorten _ _ _ x node trimmed =>
    obtain ⟨rfl, rfl, rfl⟩ := ht.split_unique hsplit hls (hid.trans node.symm)
    refine ⟨⟨i, w.kind, String.ofList x⟩ :: q, List.append_assoc _ _ _, h.opens, ?_⟩
    intro v hv
    obtain rfl := Option.some.inj hv
    rw [String.toList_ofList]
    exact ⟨hkind, trimmed.head?_feed hkind hfeed⟩
  | drop node kind trimmed =>
    obtain ⟨rfl, rfl, rfl⟩ := ht.split_unique hsplit hls (hid.trans node.symm)
    cases trimmed.head?_feed hkind hfeed

end

/-! ### Fixes -/

section

variable {r : Rule} (hr : r ∈ Preset.standard.rules) {s : Site} {t : Tree}
  (hs : s.tree.Sound) (hn : s.tree.isAttached s.node = true) (he : r.fix s = .ok t)
  (h : line.In a c s.tree.leaves)

include hr hs hn he h

/-- A fix at the leaf in which the line begins that does not wrap it. -/
theorem of_fix_first {z : Leaf NodeId} (hz : a.getLast? = some z) (hid : z.id = s.node)
    (hwrap : r.id ≠ CommentWrapping.rule.id) :
  ∃ a', line.In a' c t.leaves
    ∧ ∀ z, a'.getLast? = some z → a.getLast? = some z ∨ z.id = s.tree.size
  := by
  obtain ⟨u, htext, -⟩ := h.opens.exists_text hz
  obtain ⟨p, -, hsplit⟩ := h.exists_first_split hz
  have hfeed : '\n' ∈ s.text := by
    rw [Site.text_leaf hs hsplit hid, htext]
    simp
  rcases trimAt_of_fix hr hs hn hfeed (fun _ => hwrap) he with rfl | htrim
  · exact ⟨a, h, fun z hz => .inl hz⟩
  · obtain ⟨a', ha', hnew⟩ := of_trimAt_first hs h htrim hz hid
    exact ⟨a', ha', fun z hz => .inr (hnew z hz)⟩

/-- A fix at the white space after the line. -/
theorem of_fix_next {w : Leaf NodeId} (hw : c.head? = some w) (hid : w.id = s.node) :
  ∃ c', line.In a c' t.leaves
  := by
  obtain ⟨q, -, hsplit⟩ := h.exists_next_split hw
  have hfeed : '\n' ∈ s.text := by
    rw [Site.text_leaf hs hsplit hid]
    apply h.closes.feed_mem hw
  have hkind : s.kind ≠ .blockComment := by
    rw [Site.kind_leaf hs hsplit hid, (h.closes w hw).1]
    decide
  rcases trimAt_of_fix hr hs hn hfeed (fun hblock => absurd hblock hkind) he with rfl | htrim
  · exact ⟨c, h⟩
  · apply of_trimAt_next hs h htrim hw hid

/-- A fix at no leaf of the line leaves the line in place, if it does not wrap a comment in which
the line begins.  The leaf in which it begins then is the same or a new one. -/
theorem of_fix (hline : ∀ l ∈ line.leaves, l.id ≠ s.node)
    (hwrap : ∀ z, a.getLast? = some z → z.id = s.node → r.id ≠ CommentWrapping.rule.id) :
  ∃ a' c', line.In a' c' t.leaves
    ∧ ∀ z, a'.getLast? = some z → a.getLast? = some z ∨ z.id = s.tree.size
  := by
  -- the leaves at both ends of the line are trimmed at most, and edits at others stay outside
  by_cases hfirst : ∃ z, a.getLast? = some z ∧ z.id = s.node
  · obtain ⟨z, hz, hid⟩ := hfirst
    obtain ⟨a', ha'⟩ := of_fix_first hr hs hn he h hz hid (hwrap z hz hid)
    exact ⟨a', c, ha'⟩
  · by_cases hnext : ∃ w, c.head? = some w ∧ w.id = s.node
    · obtain ⟨w, hw, hid⟩ := hnext
      obtain ⟨c', hc'⟩ := of_fix_next hr hs hn he h hw hid
      exact ⟨a, c', hc', fun z hz => .inl hz⟩
    · simp only [not_exists, not_and] at hfirst hnext
      rcases (fixAt_of_fix hr hs hn he).place with rfl | hedit
      · exact ⟨a, c, h, fun z hz => .inl hz⟩
      · obtain ⟨a', c', hin, hlast⟩ := h.of_editedAt hedit hline hfirst hnext
        use a', c', hin
        rw [hlast]
        exact fun z hz => .inl hz

end

/-! ### Fix passes -/

section

variable {e : Engine} {scope : Scope} (he : e.rules = standardOrder) {t : Tree}
  (ht : t.Sound) (h : line.In a c t.leaves) {fix : NodeId × RuleId}
  (hfix : fix ∈ (detect (e.activate scope).1 t).fixes)

include he ht h hfix

/-- A fix pass fixes nothing at the leaves of the line. -/
theorem id_ne_of_mem_fixes :
  ∀ l ∈ line.leaves, l.id ≠ fix.1
  := by
  intro l hl hid
  obtain ⟨-, b, hb, -, f, hf, -, hshown⟩ := exists_found_of_mem_fixes hfix
  have hoff := isSuppressed_of_mem_findings (s := b.site t fix.1) h ht
    (rule_mem_of_mem_active he b hb) hl hid hf fix.2
  exact absurd (hshown.symm.trans hoff) (by decide)

/-- A fix pass does not wrap the comment in which the line begins. -/
theorem not_wrapping_of_mem_fixes {b : Active} (hb : b ∈ (e.activate scope).1)
    (hid : b.id = fix.2) {z : Leaf NodeId} (hz : a.getLast? = some z) (hzid : z.id = fix.1) :
  b.rule.rule.id ≠ CommentWrapping.rule.id
  := by
  intro hwrap
  obtain ⟨-, b', hb', hid', f, hf, hcorrectable, hshown⟩ := exists_found_of_mem_fixes hfix
  obtain rfl : b' = b := by
    have hfind := find?_active he hb'
    rw [hid', ← hid, find?_active he hb] at hfind
    exact (Option.some.inj hfind).symm
  rw [Active.inspect,
    CommentWrapping.eq_rule_of_id (rule_mem_of_mem_active he b' hb) hwrap] at hf
  have hoff := isSuppressed_of_wrapping (s := b'.site t fix.1) h ht hz hzid hf hcorrectable fix.2
  exact absurd (hshown.symm.trans hoff) (by decide)

end

/-- What a tree is during a pass that began with nodes up to a number: the line is in place, and
the leaf in which it begins is the one from the start of the pass or a new one. -/
structure Held (line : SilentLine) (a : List (Leaf NodeId)) (size : Nat) (u : Tree) : Prop where
  sound : u.Sound
  grown : size ≤ u.size
  place : ∃ a' c', line.In a' c' u.leaves
    ∧ ∀ z, a'.getLast? = some z → a.getLast? = some z ∨ size ≤ z.id

section

variable {e : Engine} {scope : Scope} (he : e.rules = standardOrder) {t t' : Tree}
  (ht : t.Sound) (h : line.In a c t.leaves)

include he ht h

/-- A fix of a pass leaves the line in place. -/
theorem held_of_fix {fix : NodeId × RuleId} (hfix : fix ∈ (detect (e.activate scope).1 t).fixes)
    {b : Active} (hb : b ∈ (e.activate scope).1) (hid : b.id = fix.2) {u u' : Tree}
    (hu : Held line a t.size u) (hn : u.isAttached fix.1 = true)
    (hu' : b.fix u fix.1 = .ok u') :
  Held line a t.size u'
  := by
  obtain ⟨hsound, hgrown, a', c', hin, hlast⟩ := hu
  have hrule := rule_mem_of_mem_active he b hb
  have hold : fix.1 < t.size :=
    ht.lt_size (Tree.isAttached_iff.mp (exists_found_of_mem_fixes hfix).1)
  have hwrap : ∀ z, a'.getLast? = some z → z.id = fix.1 →
      b.rule.rule.id ≠ CommentWrapping.rule.id := by
    intro z hz hzid
    rcases hlast z hz with hz | hnew
    · apply not_wrapping_of_mem_fixes he ht h hfix hb hid hz hzid
    · -- the pass has no fix for a leaf that it has made
      rw [hzid] at hnew
      exact absurd hold (Nat.not_lt.mpr hnew)
  obtain ⟨a'', c'', hin', hlast'⟩ := of_fix hrule (s := b.site u fix.1) hsound hn hu' hin
    (id_ne_of_mem_fixes he ht h hfix) hwrap
  refine ⟨(Active.fixSound he hb hsound hn hu').sound,
    Nat.le_trans hgrown (size_le_of_fix hrule hu'), a'', c'', hin', ?_⟩
  intro z hz
  rcases hlast' z hz with hz | hz
  · apply hlast z hz
  · right
    rw [hz]
    exact hgrown

/-- A fix pass leaves the line in place. -/
theorem of_correct
    (hcorrect : correct (e.activate scope).1 (detect (e.activate scope).1 t) = .ok t') :
  t'.Sound ∧ ∃ a' c', line.In a' c' t'.leaves
  := by
  have hstart : Held line a t.size t :=
    ⟨ht, Nat.le_refl _, a, c, h, fun z hz => .inl hz⟩
  have hheld : Held line a t.size t' :=
    fixAll_preserves (fun _ hfix _ hb hid _ _ hu hn hu' => held_of_fix he ht h hfix hb hid hu hn hu')
      hstart (fixAll_of_correct hcorrect)
  obtain ⟨hsound, -, a', c', hin, -⟩ := hheld
  exact ⟨hsound, a', c', hin⟩

end

/-- Fix passes leave the line in place. -/
theorem of_passes {e : Engine} (he : e.rules = standardOrder) {scope : Scope} {t t' : Tree}
    {k : Nat} (hpasses : Passes (e.activate scope).1 t k t') (ht : t.Sound)
    (h : line.In a c t.leaves) :
  t'.Sound ∧ ∃ a' c', line.In a' c' t'.leaves
  := by
  induction hpasses with
  | none => exact ⟨ht, a, c, h⟩
  | pass _ _ corrected ih =>
    obtain ⟨hsound, a, c, hin⟩ := ih
    apply of_correct he hsound hin corrected

end SilentLine.In

/-! ### Formatting -/

/-- A comment that switches all rules off on its line is still there when the document has been
formatted, and the line on which it starts is as it was, however many fix passes are allowed. -/
theorem lineAt?_formatTimed {t : Tree} (h : t.Sound) (hcomments : t.CommentsEnd)
    {l : Leaf NodeId} (hl : l ∈ t.leaves) (hkind : l.kind = .eolComment)
    (hsilent : Directive.parse? l.text = some ⟨.disable, .all⟩) (config : Config) (scope : Scope)
    (clock : Clock) :
  ∃ e, Kotlin.standardEngine config = .ok e
    ∧ ∀ cap, ∃ r t', ({ e with maxPasses := cap } : Engine).formatTimed clock t scope = (r, t')
      ∧ l ∈ t'.leaves ∧ ∃ line, t.lineAt? l.id = some line ∧ t'.lineAt? l.id = some line
  := by
  use ⟨standardOrder, max config.maxPasses 1, config.timeout⟩, standardEngine_eq config
  intro cap
  let e : Engine := ⟨standardOrder, cap, config.timeout⟩
  use (e.formatTimed clock t scope).1, (e.formatTimed clock t scope).2, rfl
  obtain ⟨p, q, hpq⟩ := List.append_of_mem hl
  obtain ⟨line, rfl, a, hin⟩ := SilentLine.exists_in hcomments hpq hkind hsilent
  obtain ⟨k, -, hk⟩ := (e.ends_outcome clock t scope).exists_passes
  rw [Engine.formatTimed_eq]
  obtain ⟨hsound, a', c', hin'⟩ := SilentLine.In.of_passes (e := e) rfl hk h hin
  constructor
  · rw [hin'.comment_split]
    simp
  · exact ⟨line.text, hin.lineAt?_comment h, hin'.lineAt?_comment hsound⟩

/-- The line begins in a comment that is trimmed and ends in white space that is trimmed. -/
theorem lineAt?_formatTimed_trimmed :
  let t : Tree := .ofRoot .file none (.leaf () .blockComment "/* a  \n b */"
    (.leaf () .whitespace "  " (.leaf () .eolComment "// ktlint-disable"
      (.leaf () .whitespace "\n\n\n" .nil))))
  let l : Leaf NodeId := ⟨3, .eolComment, "// ktlint-disable"⟩
  t.Sound ∧ t.CommentsEnd ∧ l ∈ t.leaves ∧ l.kind = .eolComment
    ∧ Directive.parse? l.text = some ⟨.disable, .all⟩
    ∧ ∃ e, Kotlin.standardEngine .empty = .ok e
      ∧ ∀ cap, ∃ r t',
        ({ e with maxPasses := cap } : Engine).formatTimed .stopped t .empty = (r, t')
        ∧ l ∈ t'.leaves ∧ ∃ line, t.lineAt? l.id = some line ∧ t'.lineAt? l.id = some line
  := by
  intro t l
  have ht : t.Sound := by
    apply Tree.Sound.ofRoot
    · rfl
    · decide
  have hleaves : t.leaves = [⟨1, .blockComment, "/* a  \n b */"⟩, ⟨2, .whitespace, "  "⟩, l,
      ⟨4, .whitespace, "\n\n\n"⟩] := rfl
  have hcomments : t.CommentsEnd := by
    constructor
    · intro m c hsuffix hkind
      rw [hleaves] at hsuffix
      simp only [List.suffix_cons_iff, List.cons.injEq, List.suffix_nil, reduceCtorEq,
        or_false] at hsuffix
      rcases hsuffix with ⟨rfl, rfl⟩ | ⟨rfl, rfl⟩ | ⟨rfl, rfl⟩ | ⟨rfl, rfl⟩
      · cases hkind
      · cases hkind
      · use by decide
        intro w hw
        obtain rfl := Option.some.inj hw
        decide
      · cases hkind
    · rw [hleaves]
      decide +kernel
  have hl : l ∈ t.leaves := by
    rw [hleaves]
    simp
  have hsilent : Directive.parse? l.text = some ⟨.disable, .all⟩ := by
    decide +kernel
  use ht, hcomments, hl, rfl, hsilent
  apply lineAt?_formatTimed ht hcomments hl rfl hsilent

end Fettle
