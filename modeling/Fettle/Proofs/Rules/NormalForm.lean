import Fettle.Proofs.Engine.Stable
import Fettle.Proofs.Rules.Places
import Fettle.Proofs.Rules.Undirected
import Fettle.Proofs.Text.LastLine

/-!
# The normal form of documents

Leaves are in `NormalForm` if white space is as the standard rules want it, and block comments
share no line with what follows them and are not put where an end-of-line comment could be.  A
sound tree at whose leaves the rules find nothing that they can correct is in normal form
(`normalForm_of_settled`), and without directives that is what a run leaves that is not cut short:
`normalForm_formatTimed`.

A comment can become a directive when it loses the blanks at its end, and what the rules would
have found after it is suppressed then, so it is not enough that there are no directives at the
start (`exists_not_normalForm_formatTimed`).
-/

namespace Fettle

open Text

/-- A line ends in no white space, save for one carriage return if a line feed follows. -/
def EndsBare (feed : Bool) (line : List Char) : Prop :=
  ∃ body mark, line = body ++ mark ∧ (mark = [] ∨ feed = true ∧ mark = ['\r'])
    ∧ ∀ c, body.getLast? = some c → isBlank c = false

/-- What formatting makes of the leaves of a document.  A line begins at the start of the document
and after white space with a line feed, and ends before such white space and at the end. -/
structure NormalForm (ls : List (Leaf NodeId)) : Prop where
  /-- White space within a line is one byte long. -/
  narrow : ∀ a w b, ls = a ++ w :: b → w.isInlineSpace = true → a ≠ [] → b ≠ [] →
    w.text.utf8ByteSize = 1
  /-- No line ends in white space that a line feed in white space or in a comment ends. -/
  bare : ∀ l ∈ ls, l.kind = .whitespace ∨ l.kind.isComment = true →
    ∀ line ∈ (lines l.text.toList).dropLast, EndsBare true line
  /-- The last line of a comment does not end in white space. -/
  bareEnd : ∀ a c b, ls = a ++ c :: b → c.kind.isComment = true →
    ∀ line, (lines c.text.toList).getLast? = some line →
      EndsBare (b.head?.any fun n => n.text.toList.head? == some '\n') line
  /-- White space at the end of the document ends in a line feed. -/
  feedEnd : ∀ a w, ls = a ++ [w] → w.kind = .whitespace → ['\n'] <:+ w.text.toList
  /-- White space has at most two line feeds, or one at the end of the document. -/
  fewFeeds : ∀ a w b, ls = a ++ w :: b → w.kind = .whitespace → a ≠ [] →
    w.text.toList.count '\n' ≤ 2 ∧ (b = [] → w.text.toList.count '\n' ≤ 1)
  /-- A block comment that begins its line ends it. -/
  apart : ∀ a c b, ls = a ++ c :: b → c.kind = .blockComment → ClosesLine a.reverse →
    ClosesLine b
  /-- A block comment that ends its line has several lines, unless its body begins like a
  directive. -/
  long : ∀ a c b, ls = a ++ c :: b → c.kind = .blockComment → ClosesLine b →
    '\n' ∈ c.text.toList ∨ ∃ switch : Switch, switch.keyword.toList
      <+: trim (withoutTail ['*', '/'] (withoutLead ['/', '*'] c.text.toList))

/-! ### Lines -/

theorem isBlank_of_getLast?_trimEnd {s : List Char} {c : Char}
    (h : (trimEnd s).getLast? = some c) :
  isBlank c = false
  := by
  rw [trimEnd, List.getLast?_reverse] at h
  have hnot := List.head?_dropWhile_not isBlank s.reverse
  rw [h] at hnot
  exact hnot

/-- A line whose body loses nothing does not end in white space. -/
theorem endsBare_of_trimEnd_eq {feed : Bool} {line : List Char}
    (h : trimEnd (splitReturn line feed).1 = (splitReturn line feed).1) :
  EndsBare feed line
  := by
  refine ⟨_, _, (splitReturn_append line feed).symm, ?_, ?_⟩
  · cases feed with
    | false =>
      rw [splitReturn_false]
      exact .inl rfl
    | true => exact (NoTrailingSpaces.head?_splitReturn_snd line true).imp_right (⟨rfl, ·⟩)
  · intro c hc
    rw [← h] at hc
    apply isBlank_of_getLast?_trimEnd hc

namespace NoTrailingSpaces

/-- White space in which nothing is reported. -/
theorem of_spaceMarks_eq_nil {atEnd : Bool} {delta : Nat} {ls : List (List Char)}
    (h : spaceMarks atEnd delta ls = []) :
  (∀ line ∈ ls.dropLast, (splitReturn line true).1 = [])
    ∧ (atEnd = true → ∀ line, ls.getLast? = some line → line = [])
  := by
  induction ls generalizing delta with
  | nil => simp
  | cons line ls ih =>
    cases ls with
    | nil =>
      refine ⟨by simp, ?_⟩
      rintro rfl last hlast
      obtain rfl := Option.some.inj hlast
      rw [spaceMarks] at h
      split at h
      · cases h
      · rename_i hempty
        simpa using hempty
    | cons m ms =>
      rw [spaceMarks_cons_cons] at h
      split at h
      · rename_i hempty
        obtain ⟨hbare, hlast⟩ := ih h
        rw [List.dropLast_cons_cons, List.getLast?_cons_cons]
        refine ⟨?_, hlast⟩
        rw [List.forall_mem_cons]
        exact ⟨List.isEmpty_iff.mp hempty, hbare⟩
      · cases h

/-- A comment in which nothing is reported. -/
theorem of_commentMarks_eq_nil {feed : Bool} {delta : Nat} {ls : List (List Char)}
    (h : commentMarks feed delta ls = []) :
  (∀ line ∈ ls.dropLast, EndsBare true line)
    ∧ ∀ line, ls.getLast? = some line → EndsBare feed line
  := by
  have hbody {s : List Char} (hs : ¬ (trimEnd s).length < s.length) : trimEnd s = s := by
    obtain ⟨b, hb, -⟩ := exists_trimEnd_append s
    have hlength := congrArg List.length hb
    rw [List.length_append] at hlength
    obtain rfl := List.eq_nil_of_length_eq_zero (l := b) (by omega)
    rw [List.append_nil] at hb
    exact hb.symm
  induction ls generalizing delta with
  | nil => simp
  | cons line ls ih =>
    rw [commentMarks] at h
    split at h
    · cases h
    · rename_i hkept
      obtain ⟨hbare, hlast⟩ := ih h
      have hline := endsBare_of_trimEnd_eq (hbody hkept)
      cases ls with
      | nil =>
        refine ⟨by simp, ?_⟩
        intro last hlast
        obtain rfl := Option.some.inj hlast
        simpa using hline
      | cons m ms =>
        rw [List.dropLast_cons_cons, List.getLast?_cons_cons]
        refine ⟨?_, hlast⟩
        rw [List.forall_mem_cons]
        refine ⟨?_, hbare⟩
        simpa using hline

end NoTrailingSpaces

/-! ### Leaves at which nothing can be corrected -/

/-- A rule finds nothing at a site that it can correct. -/
def Settled (r : Rule) (s : Site) : Prop :=
  ∀ f ∈ (r.inspect s).findings, f.correctable = false

section

variable {s : Site} {a b : List (Leaf NodeId)} {l : Leaf NodeId} (h : s.At a l b)

theorem NoMultiSpaces.isLong_of_settled (hs : Settled rule s) :
  isLong s = false
  := by
  rw [← Bool.not_eq_true]
  intro hlong
  have hfound := hs (s.finding s.node 1 "Unnecessary long whitespace" true)
  change _ ∈ (inspect s).findings → _ at hfound
  rw [inspect, if_pos hlong] at hfound
  cases hfound List.mem_cons_self

theorem NoConsecutiveBlankLines.isExcessive_of_settled (hs : Settled rule s) :
  isExcessive s = false
  := by
  rw [← Bool.not_eq_true]
  intro hmany
  have hfound := hs (s.finding s.node (firstTwoLines s.text) "Needless blank line(s)" true)
  change _ ∈ (inspect s).findings → _ at hfound
  rw [inspect, if_pos hmany] at hfound
  cases hfound List.mem_cons_self

theorem NoTrailingSpaces.marks_of_settled (hs : Settled rule s) :
  marks s = []
  := by
  rw [List.eq_nil_iff_forall_not_mem]
  intro delta hdelta
  cases hs _ (List.mem_map_of_mem hdelta)

include h

theorem Site.At.text_ne_nil :
  l.text.toList ≠ []
  := by
  have hmem : l ∈ s.tree.leaves := by
    rw [h.leaves]
    simp
  rw [ne_eq, String.toList_eq_nil_iff]
  apply h.sound.text_ne_empty l hmem

theorem NoMultiSpaces.utf8ByteSize_of_settled (hs : Settled rule s)
    (hspace : l.isInlineSpace = true) (ha : a ≠ []) (hb : b ≠ []) :
  l.text.utf8ByteSize = 1
  := by
  have hshort : ¬ 2 ≤ byteLength l.text.toList := by
    intro hlong
    have heq := (isLong_iff h).mpr ⟨ha, hb, hspace, hlong⟩
    rw [isLong_of_settled hs] at heq
    cases heq
  have hpos := byteLength_pos h.text_ne_nil
  rw [utf8ByteSize_eq_byteLength]
  omega

theorem NoConsecutiveBlankLines.count_le_of_settled (hs : Settled rule s)
    (hkind : l.kind = .whitespace) (ha : a ≠ []) :
  l.text.toList.count '\n' ≤ allowed b.head?.isNone
  := by
  have hfew := isExcessive_of_settled hs
  have hprev : a.getLast?.isSome = true := by
    rwa [List.getLast?_isSome]
  rw [isExcessive, isLast, h.kind_eq, hkind, h.prevLeaf?_eq, hprev, h.nextLeaf?_eq, h.text_eq]
    at hfew
  simpa using hfew

theorem NoTrailingSpaces.spaceMarks_of_settled (hs : Settled rule s)
    (hkind : l.kind = .whitespace) :
  spaceMarks b.head?.isNone 0 (lines l.text.toList) = []
  := by
  have hmarks := marks_of_settled hs
  rwa [marks, h.kind_eq, if_pos hkind, atEnd, h.nextLeaf?_eq, h.text_eq] at hmarks

theorem NoTrailingSpaces.commentMarks_of_settled (hs : Settled rule s)
    (hkind : l.kind.isComment = true) :
  commentMarks (b.head?.any fun n => n.text.toList.head? == some '\n') 0
    (lines l.text.toList) = []
  := by
  have hspace : l.kind ≠ .whitespace := by
    intro hspace
    rw [hspace] at hkind
    cases hkind
  have hmarks := marks_of_settled hs
  rwa [marks, h.kind_eq, if_neg hspace, if_pos hkind, feedFollows, h.nextLeaf?_eq, h.text_eq]
    at hmarks

/-- The layout of a comment that is left alone is none of those that are corrected. -/
theorem CommentWrapping.layout_of_settled (hs : Settled rule s) (hkind : l.kind = .blockComment)
    {layout : Layout}
    (hlayout : Layout.of l.text.toList (neighbour? a.reverse) (neighbour? b) = layout) :
  layout ≠ .alone ∧ layout ≠ .shortAfter ∧ ∀ id, layout ≠ .followed id
  := by
  have hfound : ∀ f ∈ findings s layout, f.correctable = false := by
    intro f hf
    apply hs
    change f ∈ (inspect s).findings
    rw [inspect, h.kind_eq, if_pos hkind, h.layout_eq, hlayout]
    exact hf
  refine ⟨?_, ?_, ?_⟩
  · rintro rfl
    cases hfound _ List.mem_cons_self
  · rintro rfl
    cases hfound _ List.mem_cons_self
  · rintro id rfl
    cases hfound _ List.mem_cons_self

/-- A block comment that is left alone ends its line if it begins it. -/
theorem CommentWrapping.endsLine_of_settled (hs : Settled rule s)
    (hkind : l.kind = .blockComment) (hstarts : StartsLine a) :
  EndsLine b
  := by
  intro n hn
  by_contra hbreak
  have hprev : (neighbour? a.reverse).filter (!·.breaksLine) = none := by
    rw [Option.filter_eq_none_iff]
    simpa [StartsLine] using hstarts
  have hnext : (neighbour? b).filter (!·.breaksLine) = some n := by
    rw [hn, Option.filter_some, if_pos (by simpa using hbreak)]
  obtain ⟨-, -, hfollowed⟩ := layout_of_settled h hs hkind rfl
  apply hfollowed n.id
  rw [Layout.of, hprev, hnext]

/-- A block comment on one line that is left alone at the end of its line is taken for a
directive. -/
theorem CommentWrapping.isSwitch_of_settled (hs : Settled rule s)
    (hkind : l.kind = .blockComment) (hends : EndsLine b) (hshort : '\n' ∉ l.text.toList) :
  isSwitch l.text.toList = true
  := by
  obtain ⟨halone, hafter, -⟩ := layout_of_settled h hs hkind rfl
  by_contra hno
  rcases Layout.of_eq_alone_or_shortAfter_iff.mpr
    ⟨hshort, hends, fun _ => eq_false_of_ne_true hno⟩ with heq | heq
  · exact halone heq
  · exact hafter heq

end

/-- A sound tree at whose leaves no rule can correct anything is in normal form. -/
theorem normalForm_of_settled {t : Tree} (h : t.Sound) (hspaced : Spaced t.leaves)
    (hsettled : ∀ r ∈ Preset.standard.rules, ∀ l ∈ t.leaves, ∃ s : Site, s.tree = t
      ∧ s.node = l.id ∧ Settled r s) :
  NormalForm t.leaves
  := by
  have hat {r : Rule} (hr : r ∈ Preset.standard.rules) {a b : List (Leaf NodeId)}
      {l : Leaf NodeId} (hl : t.leaves = a ++ l :: b) : ∃ s : Site, s.At a l b ∧ Settled r s := by
    obtain ⟨s, rfl, hnode, hs⟩ := hsettled r hr l (by rw [hl]; simp)
    exact ⟨s, ⟨h, hl, hnode.symm⟩, hs⟩
  have hlines {a b : List (Leaf NodeId)} {l : Leaf NodeId} (hl : t.leaves = a ++ l :: b) :
      Spaced a.reverse ∧ Spaced b := by
    rw [hl, Spaced.append_cons_iff] at hspaced
    exact ⟨hspaced.1.reverse, hspaced.2.1⟩
  constructor
  · intro a w b hl hspace ha hb
    obtain ⟨s, hsite, hs⟩ := hat (r := NoMultiSpaces.rule) (by simp [Preset.rules]) hl
    apply NoMultiSpaces.utf8ByteSize_of_settled hsite hs hspace ha hb
  · intro l hmem hkind line hline
    obtain ⟨a, b, hl⟩ := List.append_of_mem hmem
    obtain ⟨s, hsite, hs⟩ := hat (r := NoTrailingSpaces.rule) (by simp [Preset.rules]) hl
    rcases hkind with hkind | hkind
    · have hmarks := NoTrailingSpaces.spaceMarks_of_settled hsite hs hkind
      apply endsBare_of_trimEnd_eq
      rw [(NoTrailingSpaces.of_spaceMarks_eq_nil hmarks).1 line hline, trimEnd_nil]
    · have hmarks := NoTrailingSpaces.commentMarks_of_settled hsite hs hkind
      apply (NoTrailingSpaces.of_commentMarks_eq_nil hmarks).1 line hline
  · intro a c b hl hkind
    obtain ⟨s, hsite, hs⟩ := hat (r := NoTrailingSpaces.rule) (by simp [Preset.rules]) hl
    have hmarks := NoTrailingSpaces.commentMarks_of_settled hsite hs hkind
    apply (NoTrailingSpaces.of_commentMarks_eq_nil hmarks).2
  · intro a w hl hkind
    obtain ⟨s, hsite, hs⟩ := hat (r := NoTrailingSpaces.rule) (by simp [Preset.rules]) hl
    have hmarks := NoTrailingSpaces.spaceMarks_of_settled hsite hs hkind
    have hlast := (NoTrailingSpaces.of_spaceMarks_eq_nil hmarks).2 rfl
    have hfeed : '\n' ∈ w.text.toList := by
      by_contra hno
      rw [lines_of_notMem hno] at hlast
      exact hsite.text_ne_nil (hlast _ rfl)
    obtain ⟨u, last, htext, hno⟩ := exists_last_line hfeed
    rw [htext, lines_append_last u hno, List.getLast?_concat] at hlast
    obtain rfl := hlast last rfl
    exact ⟨u, htext.symm⟩
  · intro a w b hl hkind ha
    obtain ⟨s, hsite, hs⟩ := hat (r := NoConsecutiveBlankLines.rule) (by simp [Preset.rules]) hl
    have hcount := NoConsecutiveBlankLines.count_le_of_settled hsite hs hkind ha
    refine ⟨hcount.trans (NoConsecutiveBlankLines.allowed_le _), ?_⟩
    rintro rfl
    exact hcount
  · intro a c b hl hkind hstarts
    obtain ⟨s, hsite, hs⟩ := hat (r := CommentWrapping.rule) (by simp [Preset.rules]) hl
    rw [closesLine_iff (hlines hl).1] at hstarts
    rw [closesLine_iff (hlines hl).2]
    apply CommentWrapping.endsLine_of_settled hsite hs hkind hstarts
  · intro a c b hl hkind hends
    obtain ⟨s, hsite, hs⟩ := hat (r := CommentWrapping.rule) (by simp [Preset.rules]) hl
    rw [closesLine_iff (hlines hl).2] at hends
    rw [or_iff_not_imp_left]
    intro hshort
    have hswitch := CommentWrapping.isSwitch_of_settled hsite hs hkind hends hshort
    obtain ⟨switch, rest, hrest⟩ := Switch.isSome_lead?_iff.mp hswitch
    exact ⟨switch, rest, hrest.symm⟩

/-! ### Formatting -/

/-- Without directives nothing is found at the leaves of a settled tree that can be corrected. -/
theorem settled_of_correctable_eq_nil {active : List Active}
    (hactive : ∀ a ∈ active, a.rule.rule ∈ Preset.standard.rules) {t : Tree} (h : t.Sound)
    (hplain : Undirected t.leaves) (hnone : (detect active t).correctable = []) {a : Active}
    (ha : a ∈ active) {l : Leaf NodeId} (hl : l ∈ t.leaves) :
  Settled a.rule.rule (a.site t l.id)
  := by
  rw [Detection.correctable_eq_nil_iff, pending_detect hactive h, spans_of_undirected hplain]
    at hnone
  intro f hf
  apply hnone ⟨Tree.root, a.id, f⟩
  rw [List.mem_filter, List.mem_flatMap]
  refine ⟨⟨l, hl, ?_⟩, rfl⟩
  rw [lookedAt, List.mem_flatMap]
  exact ⟨a, ha, List.mem_map_of_mem hf⟩

/-- Without configuration all standard rules are active. -/
theorem exists_active (n : Nat) (limit : Option Nat) {r : Rule}
    (hr : r ∈ Preset.standard.rules) :
  ∃ a ∈ (Engine.activate ⟨standardOrder, n, limit⟩ .empty).1, a.rule.rule = r
  := by
  have hall : (Engine.activate ⟨standardOrder, n, limit⟩ .empty).1.map Active.rule
      = standardOrder := rfl
  have hmem : ∃ q ∈ standardOrder, q.rule = r := by
    simp only [Preset.rules, List.mem_cons, List.not_mem_nil, or_false] at hr
    rcases hr with rfl | rfl | rfl | rfl <;> simp [standardOrder]
  obtain ⟨q, hq, rfl⟩ := hmem
  rw [← hall] at hq
  obtain ⟨a, ha, rfl⟩ := List.mem_map.mp hq
  exact ⟨a, ha, rfl⟩

/-- A run with the standard rules that is not cut short leaves a document in normal form, if white
space was not cut in two and all comments were plain. -/
theorem normalForm_formatTimed {t : Tree} (ht : t.Sound) (hspaced : Spaced t.leaves)
    (hplain : Undirected t.leaves) (config : Config) (clock : Clock) :
  ∃ e, Kotlin.standardEngine config = .ok e
    ∧ ∀ cap r t', ({ e with maxPasses := cap } : Engine).formatTimed clock t .empty = (r, t') →
      (∀ d ∈ r.diagnostics, d.isEnding = false) → NormalForm t'.leaves
  := by
  use ⟨standardOrder, max config.maxPasses 1, config.timeout⟩, standardEngine_eq config
  intro cap r t' hrun hsilent
  let e : Engine := ⟨standardOrder, cap, config.timeout⟩
  obtain rfl : (e.formatTimed clock t .empty).1 = r := congrArg Prod.fst hrun
  obtain rfl : (e.formatTimed clock t .empty).2 = t' := congrArg Prod.snd hrun
  have hkept : (e.formatTimed clock t .empty).2.Sound
      ∧ Spaced (e.formatTimed clock t .empty).2.leaves
      ∧ Undirected (e.formatTimed clock t .empty).2.leaves := by
    apply standard_invariant (P := fun ls => Spaced ls ∧ Undirected ls) rfl _ clock
      ht ⟨hspaced, hplain⟩
    rintro u u' - - hrewrite ⟨hu, hu'⟩
    exact ⟨hrewrite.spaced hu, hrewrite.undirected hu'⟩
  obtain ⟨hsound, hspaced', hplain'⟩ := hkept
  obtain ⟨hnone, -⟩ := Engine.settled_of_silent hsilent
  apply normalForm_of_settled hsound hspaced'
  intro rule hrule l hl
  obtain ⟨a, ha, rfl⟩ := exists_active cap config.timeout hrule
  exact ⟨a.site _ l.id, rfl, rfl,
    settled_of_correctable_eq_nil (rule_mem_of_mem_active rfl) hsound hplain' hnone ha hl⟩

/-- A comment between code and the end of its line, blanks at the end of it, and blank lines. -/
theorem normalForm_formatTimed_wrapped :
  let es : List Event := [.start .file none, .token .identifier "x", .token .whitespace "  ",
    .token .blockComment "/* a */", .token .whitespace " \n\n\n", .token .identifier "y", .finish]
  let t : Tree := .ofRoot .file none (.leaf () .identifier "x" (.leaf () .whitespace "  "
    (.leaf () .blockComment "/* a */" (.leaf () .whitespace " \n\n\n"
      (.leaf () .identifier "y" .nil)))))
  Tree.ofEvents es = .ok t ∧ t.Sound ∧ Spaced t.leaves ∧ Undirected t.leaves
    ∧ ∃ e r t', Kotlin.standardEngine .empty = .ok e
      ∧ e.formatTimed .stopped t .empty = (r, t') ∧ (∀ d ∈ r.diagnostics, d.isEnding = false)
      ∧ NormalForm t'.leaves
  := by
  intro es t
  have hevents : Tree.ofEvents es = .ok t := by
    rfl
  have ht : t.Sound := Tree.Sound.ofEvents hevents
  have hleaves : t.leaves = [⟨1, .identifier, "x"⟩, ⟨2, .whitespace, "  "⟩,
      ⟨3, .blockComment, "/* a */"⟩, ⟨4, .whitespace, " \n\n\n"⟩, ⟨5, .identifier, "y"⟩] := rfl
  have hspaced : Spaced t.leaves := by
    rw [hleaves]
    simp [Spaced]
  have hplain : Undirected t.leaves := by
    rw [hleaves]
    have hcomment : Plain "/* a */".toList := ⟨by decide +kernel, by decide +kernel⟩
    simpa [Undirected, AllComments, Kind.isComment] using hcomment
  use hevents, ht, hspaced, hplain
  have hengine : Kotlin.standardEngine .empty = .ok ⟨standardOrder, 10, none⟩ :=
    standardEngine_eq .empty
  obtain ⟨e, he, hformat⟩ := normalForm_formatTimed ht hspaced hplain .empty .stopped
  obtain rfl := Except.ok.inj (hengine.symm.trans he)
  obtain ⟨run, hrun⟩ : ∃ run,
      Engine.formatTimed ⟨standardOrder, 10, none⟩ .stopped t .empty = run := ⟨_, rfl⟩
  have hsilent : ∀ d ∈ run.1.diagnostics, d.isEnding = false := by
    have hnone : run.1.diagnostics = [] := by
      rw [← hrun]
      decide +kernel
    simp [hnone]
  exact ⟨_, run.1, run.2, he, hrun, hsilent, hformat 10 run.1 run.2 hrun hsilent⟩

/-- It is not enough that no comment is a directive: one becomes a directive when it loses the
blank at its end, and the comment after it stays as it is. -/
theorem exists_not_normalForm_formatTimed :
  ¬ ∀ (es : List Event) (t : Tree), Tree.ofEvents es = .ok t → Spaced t.leaves →
    (∀ l ∈ t.leaves, l.kind.isComment = true → Directive.isDirective l.text = false) →
    ∀ (config : Config) (clock : Clock), ∃ e, Kotlin.standardEngine config = .ok e
      ∧ ∀ r t', e.formatTimed clock t .empty = (r, t') →
        (∀ d ∈ r.diagnostics, d.isEnding = false) → NormalForm t'.leaves
  := by
  intro h
  let es : List Event := [.start .file none, .token .blockComment "/* ktlint-disable */ ",
    .token .whitespace "\n", .token .blockComment "/* a */", .token .whitespace " ",
    .token .identifier "x", .finish]
  let t : Tree := .ofRoot .file none (.leaf () .blockComment "/* ktlint-disable */ "
    (.leaf () .whitespace "\n" (.leaf () .blockComment "/* a */" (.leaf () .whitespace " "
      (.leaf () .identifier "x" .nil)))))
  have hleaves : t.leaves = [⟨1, .blockComment, "/* ktlint-disable */ "⟩, ⟨2, .whitespace, "\n"⟩,
      ⟨3, .blockComment, "/* a */"⟩, ⟨4, .whitespace, " "⟩, ⟨5, .identifier, "x"⟩] := rfl
  have hspaced : Spaced t.leaves := by
    rw [hleaves]
    simp [Spaced]
  have hplain : ∀ l ∈ t.leaves, l.kind.isComment = true →
      Directive.isDirective l.text = false := by
    rw [hleaves]
    decide +kernel
  have hengine : Kotlin.standardEngine .empty = .ok ⟨standardOrder, 10, none⟩ :=
    standardEngine_eq .empty
  obtain ⟨e, he, hnormal⟩ := h es t rfl hspaced hplain .empty .stopped
  obtain rfl := Except.ok.inj (hengine.symm.trans he)
  obtain ⟨run, hrun⟩ : ∃ run,
      Engine.formatTimed ⟨standardOrder, 10, none⟩ .stopped t .empty = run := ⟨_, rfl⟩
  have hnone : run.1.diagnostics = [] := by
    rw [← hrun]
    decide +kernel
  have hleft : run.2.leaves = [⟨6, .blockComment, "/* ktlint-disable */"⟩, ⟨2, .whitespace, "\n"⟩]
      ++ ⟨3, .blockComment, "/* a */"⟩
      :: [⟨7, .whitespace, "\n"⟩, ⟨5, .identifier, "x"⟩] := by
    rw [← hrun]
    decide +kernel
  have hform : NormalForm run.2.leaves := by
    apply hnormal run.1 run.2 hrun
    simp [hnone]
  have hcloses : ClosesLine [⟨7, .whitespace, "\n"⟩, ⟨5, .identifier, "x"⟩] :=
    ClosesLine.cons_of_breaksLine (by decide)
  rcases hform.long _ _ _ hleft rfl hcloses with hfeed | ⟨switch, hswitch⟩
  · exact absurd hfeed (by decide)
  · cases switch with
    | disable => exact absurd hswitch (by decide +kernel)
    | enable => exact absurd hswitch (by decide +kernel)

end Fettle
