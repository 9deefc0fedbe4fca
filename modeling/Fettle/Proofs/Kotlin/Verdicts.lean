import Fettle.Proofs.Kotlin.Surroundings
import Fettle.Proofs.Text.Shifted

/-!
# Findings when leaves are read again

Where an end-of-line comment takes the blanks behind it when it is read again, the standard rules
report trailing blanks and blank lines in places where they reported them before (`covers_line`,
`covers_last`).  Only what they report of a block comment cannot be corrected, and a block comment
is read as it is.  So the findings that cannot be corrected stay the same, and those that can be
corrected are among the ones from before (`matches_of_reread`).  The directives suppress the same
(`spans_of_reread`).
-/

namespace Fettle

open Text

namespace Kotlin

/-! ### Comments that have become longer -/

/-- Every finding of a list is found in another, where it can be corrected. -/
def Covers (fs fs' : List Finding) : Prop :=
  ∀ f' ∈ fs', ∃ f ∈ fs, f.offset = f'.offset ∧ f.correctable = true

theorem Covers.nil (fs : List Finding) :
  Covers fs []
  := by
  intro f' hf'
  cases hf'

/-- What is reported of the longer comment is reported of the comment, or it is where the comment
ends and blanks come before the line break. -/
theorem mem_marks_longer {s s' : Site} {a b a' b' : List (Leaf NodeId)} {l l' : Leaf NodeId}
    {x : List Char} (h : s.At a l b) (h' : s'.At a' l' b') (longer : Longer l x l')
    (next : NoTrailingSpaces.feedFollows s = false) {m : Nat}
    (hm : m ∈ NoTrailingSpaces.marks s') :
  m ∈ NoTrailingSpaces.marks s
    ∨ m = byteLength l.text.toList
      ∧ (splitReturn x (NoTrailingSpaces.feedFollows s')).1 ≠ []
  := by
  have hkind : s.kind = .eolComment := by
    rw [h.kind_eq, longer.kind]
  have hkind' : s'.kind = .eolComment := by
    rw [h'.kind_eq, longer.kind']
  have hmarks {r : Site} (hr : r.kind = .eolComment) : NoTrailingSpaces.marks r
      = NoTrailingSpaces.commentMarks (NoTrailingSpaces.feedFollows r) 0 (lines r.text) := by
    rw [NoTrailingSpaces.marks, hr]
    rfl
  rw [hmarks hkind', h'.text_eq, longer.text'] at hm
  rw [hmarks hkind, next, h.text_eq]
  apply NoTrailingSpaces.mem_commentMarks_append longer.inline longer.some longer.blank hm

/-- No line feed follows where other blanks come first. -/
theorem feedFollows_of_blank {s : Site} {a b : List (Leaf NodeId)} {l m : Leaf NodeId}
    {x y : List Char} (h : s.At a l (m :: b)) (htext : m.text.toList = x ++ y) (gap : x ≠ [])
    (hx : '\n' ∉ x) :
  NoTrailingSpaces.feedFollows s = false
  := by
  obtain ⟨c, u, rfl⟩ := List.exists_cons_of_ne_nil gap
  rw [List.mem_cons, not_or] at hx
  rw [NoTrailingSpaces.feedFollows, h.nextLeaf?_eq, List.head?_cons, Option.any_some, htext]
  simpa using Ne.symm hx.1

/-- Blank lines are in the same places. -/
theorem covers_blankLines {w w' : Site} {c c' b b' : List (Leaf NodeId)} {p m m' : Leaf NodeId}
    {x y : List Char} (hw : w.At (c ++ [p]) m b) (hw' : w'.At c' m' b')
    (hwidth : width c' = width (c ++ [p]) + byteLength x) (hb : Reread b b') (hx : '\n' ∉ x)
    (space : m.kind = .whitespace ∧ m.text.toList = x ++ '\n' :: y)
    (shorter : m'.kind = .whitespace ∧ m'.text.toList = '\n' :: y) :
  Covers (NoConsecutiveBlankLines.inspect w).findings
    (NoConsecutiveBlankLines.inspect w').findings
  := by
  obtain ⟨hkind, htext⟩ := space
  obtain ⟨-, htext'⟩ := shorter
  intro f' hf'
  rw [NoConsecutiveBlankLines.inspect] at hf'
  split at hf'
  · rename_i hmany
    obtain rfl := List.mem_singleton.mp hf'
    have hmany' : NoConsecutiveBlankLines.isExcessive w = true := by
      simp only [NoConsecutiveBlankLines.isExcessive, Bool.and_eq_true, beq_iff_eq,
        decide_eq_true_eq, NoConsecutiveBlankLines.isLast, hw.kind_eq, hw.prevLeaf?_eq,
        hw.nextLeaf?_eq, hw.text_eq, hw'.kind_eq, hw'.prevLeaf?_eq, hw'.nextLeaf?_eq,
        hw'.text_eq, htext, htext', hb.isNone_head?_eq, List.count_append,
        List.count_eq_zero.mpr hx, List.getLast?_concat, Option.isSome_some, Nat.zero_add]
        at hmany ⊢
      exact ⟨⟨hkind, trivial⟩, hmany.2⟩
    rw [NoConsecutiveBlankLines.inspect, hmany', if_pos rfl]
    refine ⟨_, List.mem_singleton_self _, ?_, rfl⟩
    simp only [Site.finding, hw.startOffset_eq, hw'.startOffset_eq, hw.text_eq, hw'.text_eq,
      htext, htext', NoConsecutiveBlankLines.firstTwoLines_append hx, hwidth, Nat.add_assoc]
  · cases hf'

/-- A finding in the longer comment is a finding in the comment, or it is where the blanks are
that the comment has taken. -/
theorem covers_comment {s w s' : Site} {a a' b b' b'' : List (Leaf NodeId)} {l m l' : Leaf NodeId}
    {x : List Char} (h : s.At a l b) (hw : w.At (a ++ [l]) m b'') (h' : s'.At a' l' b')
    (hwidth : width a = width a') (longer : Longer l x l')
    (next : NoTrailingSpaces.feedFollows s = false)
    (hzero : (splitReturn x (NoTrailingSpaces.feedFollows s')).1 ≠ [] →
      0 ∈ NoTrailingSpaces.marks w) :
  Covers ((NoTrailingSpaces.inspect s).findings ++ (NoTrailingSpaces.inspect w).findings)
    (NoTrailingSpaces.inspect s').findings
  := by
  intro f' hf'
  obtain ⟨delta, hdelta, rfl⟩ := List.mem_map.mp hf'
  rcases mem_marks_longer h h' longer next hdelta with hmem | ⟨rfl, hbreak⟩
  · refine ⟨_, List.mem_append_left _ (List.mem_map_of_mem hmem), ?_, rfl⟩
    rw [Site.finding, Site.finding, h.startOffset_eq, h'.startOffset_eq, hwidth]
  · refine ⟨_, List.mem_append_right _ (List.mem_map_of_mem (hzero hbreak)), ?_, rfl⟩
    rw [Site.finding, Site.finding, hw.startOffset_eq, h'.startOffset_eq, width_append, hwidth,
      width, width, utf8ByteSize_eq_byteLength]
    rfl

section

variable {s w s' w' : Site} {a b a' b' : List (Leaf NodeId)} {l m l' m' : Leaf NodeId}
  {x y : List Char} (h : s.At a l (m :: b)) (hw : w.At (a ++ [l]) m b)
  (h' : s'.At a' l' (m' :: b')) (hw' : w'.At (a' ++ [l']) m' b') (hwidth : width a = width a')
  (hb : Reread b b') (longer : Longer l x l')
  (space : m.kind = .whitespace ∧ m.text.toList = x ++ '\n' :: y)
  (shorter : m'.kind = .whitespace ∧ m'.text.toList = '\n' :: y)

include h hw h' hw' hwidth hb longer space shorter

/-- Trailing blanks are in the same places if some of them are a part of the comment. -/
theorem covers_trailing :
  Covers ((NoTrailingSpaces.inspect s).findings ++ (NoTrailingSpaces.inspect w).findings)
    ((NoTrailingSpaces.inspect s').findings ++ (NoTrailingSpaces.inspect w').findings)
  := by
  have hspace : NoTrailingSpaces.marks w
      = NoTrailingSpaces.spaceMarks b.head?.isNone 0 (lines (x ++ '\n' :: y)) := by
    rw [NoTrailingSpaces.marks, hw.kind_eq, if_pos space.1, NoTrailingSpaces.atEnd,
      hw.nextLeaf?_eq, hw.text_eq, space.2]
  have hspace' : NoTrailingSpaces.marks w'
      = NoTrailingSpaces.spaceMarks b.head?.isNone 0 (lines ('\n' :: y)) := by
    rw [NoTrailingSpaces.marks, hw'.kind_eq, if_pos shorter.1, NoTrailingSpaces.atEnd,
      hw'.nextLeaf?_eq, hw'.text_eq, shorter.2, hb.isNone_head?_eq]
  have hnext' : NoTrailingSpaces.feedFollows s' = true := by
    rw [NoTrailingSpaces.feedFollows, h'.nextLeaf?_eq, List.head?_cons, Option.any_some,
      shorter.2]
    rfl
  intro f' hf'
  rcases List.mem_append.mp hf' with hf' | hf'
  · apply covers_comment h hw h' hwidth longer _ _ f' hf'
    · apply feedFollows_of_blank h space.2 longer.some longer.notMem
    · intro hbreak
      rw [hnext'] at hbreak
      rw [hspace]
      apply NoTrailingSpaces.zero_mem_spaceMarks_append longer.notMem y hbreak
  · obtain ⟨delta, hdelta, rfl⟩ := List.mem_map.mp hf'
    rw [hspace'] at hdelta
    have hmem := NoTrailingSpaces.mem_spaceMarks_append longer.notMem y hdelta
    rw [← hspace] at hmem
    refine ⟨_, List.mem_append_right _ (List.mem_map_of_mem hmem), ?_, rfl⟩
    rw [Site.finding, Site.finding, hw.startOffset_eq, hw'.startOffset_eq,
      longer.width_concat hwidth]
    simp only
    omega

/-- What is found of the longer comment and the shorter white space is found of the two. -/
theorem covers_line {r : Rule} (hr : r ∈ Preset.standard.rules) :
  Covers ((r.inspect s).findings ++ (r.inspect w).findings)
    ((r.inspect s').findings ++ (r.inspect w').findings)
  := by
  have hcomment : s'.kind = .eolComment := by
    rw [h'.kind_eq, longer.kind']
  have hspace : w'.kind = .whitespace := by
    rw [hw'.kind_eq, shorter.1]
  have htext : w'.text = '\n' :: y := by
    rw [hw'.text_eq, shorter.2]
  simp only [Preset.rules, List.mem_cons, List.not_mem_nil, or_false] at hr
  rcases hr with rfl | rfl | rfl | rfl
  · change Covers _
      ((CommentWrapping.inspect s').findings ++ (CommentWrapping.inspect w').findings)
    rw [CommentWrapping.findings_inspect_eq_nil, CommentWrapping.findings_inspect_eq_nil]
    · apply Covers.nil
    · rw [hspace]
      decide
    · rw [hcomment]
      decide
  · apply covers_trailing h hw h' hw' hwidth hb longer space shorter
  · change Covers _ ((NoMultiSpaces.inspect s').findings ++ (NoMultiSpaces.inspect w').findings)
    rw [NoMultiSpaces.findings_inspect_eq_nil, NoMultiSpaces.findings_inspect_eq_nil]
    · apply Covers.nil
    · simp [NoMultiSpaces.isLong, htext]
    · simp [NoMultiSpaces.isLong, hcomment]
  · change Covers
      ((NoConsecutiveBlankLines.inspect s).findings ++ (NoConsecutiveBlankLines.inspect w).findings)
      ((NoConsecutiveBlankLines.inspect s').findings
        ++ (NoConsecutiveBlankLines.inspect w').findings)
    have hnone : (NoConsecutiveBlankLines.inspect s').findings = [] := by
      apply NoConsecutiveBlankLines.findings_inspect_eq_nil
      rw [hcomment]
      decide
    have hlines := covers_blankLines hw hw' (longer.width_concat hwidth) hb longer.notMem space
      shorter
    rw [hnone]
    intro f' hf'
    obtain ⟨f, hf, heq⟩ := hlines f' hf'
    exact ⟨f, List.mem_append_right _ hf, heq⟩

end

/-- What is found of a comment that has taken the blanks at the end of the document is found of
the two. -/
theorem covers_last {s w s' : Site} {a a' : List (Leaf NodeId)} {l m l' : Leaf NodeId}
    (h : s.At a l [m]) (hw : w.At (a ++ [l]) m []) (h' : s'.At a' l' [])
    (hwidth : width a = width a') (longer : Longer l m.text.toList l')
    (space : m.kind = .whitespace) {r : Rule} (hr : r ∈ Preset.standard.rules) :
  Covers ((r.inspect s).findings ++ (r.inspect w).findings) (r.inspect s').findings
  := by
  have hcomment : s'.kind = .eolComment := by
    rw [h'.kind_eq, longer.kind']
  simp only [Preset.rules, List.mem_cons, List.not_mem_nil, or_false] at hr
  rcases hr with rfl | rfl | rfl | rfl
  · change Covers _ (CommentWrapping.inspect s').findings
    rw [CommentWrapping.findings_inspect_eq_nil (by rw [hcomment]; decide)]
    apply Covers.nil
  · apply covers_comment h hw h' hwidth longer
    · apply feedFollows_of_blank h (List.append_nil _).symm longer.some longer.notMem
    · intro _
      rw [NoTrailingSpaces.marks, hw.kind_eq, if_pos space, NoTrailingSpaces.atEnd,
        hw.nextLeaf?_eq, hw.text_eq, lines_of_notMem longer.notMem, NoTrailingSpaces.spaceMarks]
      simp [longer.some]
  · change Covers _ (NoMultiSpaces.inspect s').findings
    rw [NoMultiSpaces.findings_inspect_eq_nil (by simp [NoMultiSpaces.isLong, hcomment])]
    apply Covers.nil
  · change Covers _ (NoConsecutiveBlankLines.inspect s').findings
    rw [NoConsecutiveBlankLines.findings_inspect_eq_nil (by rw [hcomment]; decide)]
    apply Covers.nil

/-! ### All findings -/

/-- Findings of which those that cannot be corrected are the same, and those that can be corrected
are also among the others. -/
structure Matches (ps ps' : List Pending) : Prop where
  kept : ps.filter (fun p => !p.correctable) = ps'.filter fun p => !p.correctable
  covered : ∀ p' ∈ ps', p'.correctable = true →
    ∃ p ∈ ps, p.ruleId = p'.ruleId ∧ p.offset = p'.offset ∧ p.correctable = true

namespace Matches

variable {ps ps' qs qs' : List Pending}

theorem refl (ps : List Pending) :
  Matches ps ps
  := by
  constructor
  · rfl
  · intro p hp hc
    use p, hp, rfl, rfl

theorem append (hp : Matches ps ps') (hq : Matches qs qs') :
  Matches (ps ++ qs) (ps' ++ qs')
  := by
  constructor
  · rw [List.filter_append, List.filter_append, hp.kept, hq.kept]
  · intro p' hp' hc
    rcases List.mem_append.mp hp' with hp' | hp'
    · obtain ⟨p, hmem, heq⟩ := hp.covered p' hp' hc
      exact ⟨p, List.mem_append_left _ hmem, heq⟩
    · obtain ⟨p, hmem, heq⟩ := hq.covered p' hp' hc
      exact ⟨p, List.mem_append_right _ hmem, heq⟩

/-- Where nothing can be corrected of what is left of findings, the same is left of those that
match them. -/
theorem filter_eq (h : Matches ps ps') {left : Pending → Bool}
    (hleft : ∀ p q : Pending, p.ruleId = q.ruleId → p.offset = q.offset → left p = left q)
    (hnone : ∀ p ∈ ps.filter left, p.correctable = false) :
  ps'.filter left = ps.filter left
  := by
  have hnone' : ∀ p' ∈ ps'.filter left, p'.correctable = false := by
    intro p' hp'
    obtain ⟨hp', hkeep⟩ := List.mem_filter.mp hp'
    rw [← Bool.not_eq_true]
    intro hc
    obtain ⟨p, hp, hrule, hoffset, hpc⟩ := h.covered p' hp' hc
    rw [← hleft p p' hrule hoffset] at hkeep
    rw [hnone p (List.mem_filter.mpr ⟨hp, hkeep⟩)] at hpc
    cases hpc
  have hkept {rs : List Pending} (hrs : ∀ p ∈ rs.filter left, p.correctable = false) :
      rs.filter left = (rs.filter fun p => !p.correctable).filter left := by
    rw [List.filter_filter]
    apply List.filter_congr
    intro p hp
    cases hkeep : left p with
    | false => rfl
    | true =>
      rw [hrs p (List.mem_filter.mpr ⟨hp, hkeep⟩)]
      rfl
  rw [hkept hnone, hkept hnone', h.kept]

end Matches

section

variable {active : List Active} (hactive : ∀ a ∈ active, a.rule.rule ∈ Preset.standard.rules)

include hactive

theorem correctable_of_mem_lookedAt {t : Tree} {n : NodeId} (hkind : t.kind n ≠ .blockComment)
    {p : Pending} (hp : p ∈ lookedAt active t n) :
  p.correctable = true
  := by
  obtain ⟨a, ha, hp⟩ := List.mem_flatMap.mp hp
  obtain ⟨f, hf, rfl⟩ := List.mem_map.mp hp
  apply correctable_of_mem_findings (hactive a ha) (s := a.site t n) hkind hf

/-- Findings at nodes other than block comments match those that they cover. -/
theorem matches_of_covers {t u : Tree} {ns ns' : List NodeId}
    (hkind : ∀ n ∈ ns, t.kind n ≠ .blockComment) (hkind' : ∀ n ∈ ns', u.kind n ≠ .blockComment)
    (hcovers : ∀ a ∈ active, Covers (ns.flatMap fun n => (a.inspect t n).findings)
      (ns'.flatMap fun n => (a.inspect u n).findings)) :
  Matches (ns.flatMap (lookedAt active t)) (ns'.flatMap (lookedAt active u))
  := by
  have hnil {v : Tree} {ms : List NodeId} (hv : ∀ n ∈ ms, v.kind n ≠ .blockComment) :
      (ms.flatMap (lookedAt active v)).filter (fun p => !p.correctable) = [] := by
    rw [List.filter_eq_nil_iff]
    intro p hp
    obtain ⟨n, hn, hp⟩ := List.mem_flatMap.mp hp
    simp [correctable_of_mem_lookedAt hactive (hv n hn) hp]
  constructor
  · rw [hnil hkind, hnil hkind']
  · intro p' hp' _
    obtain ⟨n', hn', hp'⟩ := List.mem_flatMap.mp hp'
    obtain ⟨a, ha, hp'⟩ := List.mem_flatMap.mp hp'
    obtain ⟨f', hf', rfl⟩ := List.mem_map.mp hp'
    obtain ⟨f, hf, hoffset, hcorrectable⟩ :=
      hcovers a ha f' (List.mem_flatMap.mpr ⟨n', hn', hf'⟩)
    obtain ⟨n, hn, hf⟩ := List.mem_flatMap.mp hf
    refine ⟨⟨Tree.root, a.id, f⟩, ?_, rfl, hoffset, hcorrectable⟩
    rw [List.mem_flatMap]
    use n, hn
    rw [lookedAt, List.mem_flatMap]
    use a, ha
    apply List.mem_map_of_mem hf

/-- Nothing is found in plain code. -/
theorem flatMap_lookedAt_of_plain {t : Tree} (ht : t.Sound) {a b c : List (Leaf NodeId)}
    (hl : t.leaves = a ++ (c ++ b)) (hc : Plain c) :
  (c.flatMap fun l => lookedAt active t l.id) = []
  := by
  rw [List.flatMap_eq_nil_iff]
  intro l hmem
  obtain ⟨d, e, rfl⟩ := List.append_of_mem hmem
  have hplain := hc.plain l hmem
  have hleaf : t.leaves = (a ++ d) ++ l :: (e ++ b) := by
    simpa using hl
  rw [lookedAt, List.flatMap_eq_nil_iff]
  intro x hx
  have hkind : (x.site t l.id).kind = l.kind := ht.kind_leaf hleaf
  rw [List.map_eq_nil_iff]
  apply findings_inspect_eq_nil (hactive x hx)
  · intro hspace
    rw [← hkind, hspace] at hplain
    cases hplain
  · rw [← Bool.not_eq_true]
    intro hcomment
    rw [← hkind, Kind.isPlain_of_isComment hcomment] at hplain
    cases hplain

variable {t u : Tree} (ht : t.Sound) (hu : u.Sound)

include ht hu

/-- The findings at the leaves that are read again match those at the leaves. -/
theorem matches_of_reread {a a' ls ls' : List (Leaf NodeId)} (h : Reread ls ls')
    (ha : Alike a a') (hl : t.leaves = a ++ ls) (hl' : u.leaves = a' ++ ls') :
  Matches (ls.flatMap fun l => lookedAt active t l.id)
    (ls'.flatMap fun l => lookedAt active u l.id)
  := by
  have hat {v : Tree} (hv : v.Sound) {c d : List (Leaf NodeId)} {k : Leaf NodeId}
      (hk : v.leaves = c ++ k :: d) (e : Active) : (e.site v k.id).At c k d := ⟨hv, hk, rfl⟩
  have hother {v : Tree} (hv : v.Sound) {c d : List (Leaf NodeId)} {k : Leaf NodeId}
      (hk : v.leaves = c ++ k :: d) {kind : Kind} (hkind : k.kind = kind)
      (hne : kind ≠ .blockComment) : v.kind k.id ≠ .blockComment := by
    rwa [hv.kind_leaf hk, hkind]
  induction h generalizing a a' with
  | nil => apply Matches.refl
  | code plain plain' text rest ih =>
    rw [List.flatMap_append, List.flatMap_append,
      flatMap_lookedAt_of_plain hactive ht hl plain,
      flatMap_lookedAt_of_plain hactive hu hl' plain']
    rw [← List.append_assoc] at hl hl'
    apply ih (ha.append_plain plain plain' text) hl hl'
  | @same l l' ls ls' lexeme rest ih =>
    have hsame : lookedAt active t l.id = lookedAt active u l'.id := by
      rw [lookedAt, lookedAt, List.flatMap_def, List.flatMap_def]
      congr 1
      apply List.map_congr_left
      intro e he
      have heq := inspect_eq (hat ht hl e) (hat hu hl' e) ha lexeme rest (hactive e he)
      rw [Active.inspect, Active.inspect, heq]
    rw [List.flatMap_cons, List.flatMap_cons, hsame]
    apply (Matches.refl _).append
    rw [List.append_cons] at hl hl'
    apply ih (ha.concat_congr lexeme) hl hl'
  | @line l l' m m' ls ls' x y longer space shorter rest ih =>
    have hm := hl
    have hm' := hl'
    rw [List.append_cons] at hm hm'
    have hpair : Matches ([l.id, m.id].flatMap (lookedAt active t))
        ([l'.id, m'.id].flatMap (lookedAt active u)) := by
      apply matches_of_covers hactive
      · simp only [List.mem_cons, List.not_mem_nil, or_false, forall_eq_or_imp, forall_eq]
        exact ⟨hother ht hl longer.kind (by decide), hother ht hm space.1 (by decide)⟩
      · simp only [List.mem_cons, List.not_mem_nil, or_false, forall_eq_or_imp, forall_eq]
        exact ⟨hother hu hl' longer.kind' (by decide), hother hu hm' shorter.1 (by decide)⟩
      · intro e he
        have hcovers := covers_line (hat ht hl e) (hat ht hm e) (hat hu hl' e) (hat hu hm' e)
          ha.width rest longer space shorter (hactive e he)
        simpa [Active.inspect] using hcovers
    rw [List.append_cons] at hm hm'
    have hall := hpair.append (ih (ha.line longer space shorter) hm hm')
    simpa [List.append_assoc] using hall
  | @last l l' m longer space =>
    have hm := hl
    rw [List.append_cons] at hm
    have hpair : Matches ([l.id, m.id].flatMap (lookedAt active t))
        ([l'.id].flatMap (lookedAt active u)) := by
      apply matches_of_covers hactive
      · simp only [List.mem_cons, List.not_mem_nil, or_false, forall_eq_or_imp, forall_eq]
        exact ⟨hother ht hl longer.kind (by decide), hother ht hm space (by decide)⟩
      · simp only [List.mem_cons, List.not_mem_nil, or_false, forall_eq]
        exact hother hu hl' longer.kind' (by decide)
      · intro e he
        have hcovers := covers_last (hat ht hl e) (hat ht hm e) (hat hu hl' e) ha.width longer
          space (hactive e he)
        simpa [Active.inspect] using hcovers
    rw [List.flatMap_cons, List.flatMap_cons] at hpair ⊢
    exact hpair

end

/-! ### Suppression -/

/-- Blanks behind an end-of-line comment do not matter to a directive. -/
theorem Longer.directive?_eq {l l' : Leaf NodeId} {x : List Char} (h : Longer l x l') :
  Suppression.directive? l' = Suppression.directive? l
  := by
  have hbody (u : List Char) : commentBody (['/', '/'] ++ u) = u := by
    rw [commentBody, dropLead?_eq_some_iff.mpr rfl]
  have hparse : Directive.parse? l'.text = Directive.parse? l.text := by
    obtain ⟨s, hs⟩ := h.mark
    rw [Directive.parse?, Directive.parse?, h.text', ← hs, List.append_assoc, hbody, hbody,
      trim_append_of_blank s h.blank]
  rw [Suppression.directive?, Suppression.directive?, h.kind, h.kind', hparse]

theorem scan_cons_congr {l l' : Leaf NodeId} {ls ls' : List (Leaf NodeId)} {text : String}
    {offset : Nat} (hkind : l'.kind = l.kind)
    (hdirective : Suppression.directive? l' = Suppression.directive? l)
    (hrest : ∀ opened, Suppression.scan text (offset + l.text.utf8ByteSize) opened ls
      = Suppression.scan text (offset + l'.text.utf8ByteSize) opened ls')
    (opened : List OpenSpan) :
  Suppression.scan text offset opened (l :: ls) = Suppression.scan text offset opened (l' :: ls')
  := by
  rw [Suppression.scan, Suppression.scan, hdirective, hkind]
  split
  · apply hrest
  · simp only [hrest]

/-- Leaves that are no comments hold no directive. -/
theorem scan_append {c : List (Leaf NodeId)} (hc : ∀ l ∈ c, l.kind.isComment = false)
    (ls : List (Leaf NodeId)) (text : String) (offset : Nat) (opened : List OpenSpan) :
  Suppression.scan text offset opened (c ++ ls)
    = Suppression.scan text (offset + width c) opened ls
  := by
  induction c generalizing offset with
  | nil => rfl
  | cons l c ih =>
    have hnone : Suppression.directive? l = none := by
      have hl := hc l List.mem_cons_self
      rw [Suppression.directive?, hl]
      rfl
    rw [List.cons_append, Suppression.scan, hnone]
    dsimp only
    rw [ih fun m hm => hc m (List.mem_cons_of_mem _ hm), width, Nat.add_assoc]

theorem scan_cons_whitespace {l : Leaf NodeId} (hkind : l.kind = .whitespace)
    (ls : List (Leaf NodeId)) (text : String) (offset : Nat) (opened : List OpenSpan) :
  Suppression.scan text offset opened (l :: ls)
    = Suppression.scan text (offset + l.text.utf8ByteSize) opened ls
  := by
  have hspace : ∀ m ∈ [l], m.kind.isComment = false := by
    simp [hkind, Kind.isComment]
  apply scan_append hspace

/-- The directives in leaves that are read again suppress the same. -/
theorem scan_of_reread {ls ls' : List (Leaf NodeId)} (h : Reread ls ls') (text : String)
    (offset : Nat) (opened : List OpenSpan) :
  Suppression.scan text offset opened ls = Suppression.scan text offset opened ls'
  := by
  have hcode {c : List (Leaf NodeId)} (hc : Plain c) : ∀ l ∈ c, l.kind.isComment = false := by
    intro l hl
    rw [← Bool.not_eq_true]
    intro hcomment
    cases (Kind.isPlain_of_isComment hcomment).symm.trans (hc.plain l hl)
  induction h generalizing offset opened with
  | nil => rfl
  | @code c c' ls ls' plain plain' htext rest ih =>
    rw [scan_append (hcode plain), scan_append (hcode plain'), width_eq_byteLength c,
      width_eq_byteLength c', htext]
    apply ih
  | @same l l' ls ls' lexeme rest ih =>
    have hkind : l'.kind = l.kind := congrArg Lexeme.kind lexeme
    apply scan_cons_congr hkind
    · rw [Suppression.directive?, Suppression.directive?, hkind, text_of_lexeme lexeme]
    · intro opened
      rw [text_of_lexeme lexeme]
      apply ih
  | @line l l' m m' ls ls' x y longer space shorter rest ih =>
    apply scan_cons_congr (longer.kind'.trans longer.kind.symm) longer.directive?_eq
    intro opened
    rw [scan_cons_whitespace space.1, scan_cons_whitespace shorter.1, ih, longer.utf8ByteSize_eq,
      utf8ByteSize_eq_byteLength m.text, utf8ByteSize_eq_byteLength m'.text, space.2, shorter.2,
      byteLength_append, Nat.add_assoc, Nat.add_assoc, Nat.add_assoc]
  | @last l l' m longer space =>
    apply scan_cons_congr (longer.kind'.trans longer.kind.symm) longer.directive?_eq
    intro opened
    rw [scan_cons_whitespace space, longer.utf8ByteSize_eq, utf8ByteSize_eq_byteLength m.text,
      Nat.add_assoc]

theorem spans_of_reread {t u : Tree} (h : Reread t.leaves u.leaves) (htext : t.text = u.text) :
  Suppression.spans t = Suppression.spans u
  := by
  rw [Suppression.spans, Suppression.spans, htext, scan_of_reread h]

end Kotlin

end Fettle
