import Fettle.Proofs.Rules.Directives
import Fettle.Proofs.Rules.Orderly
import Fettle.Proofs.Text.Words
import Fettle.Suppression

/-!
# Comments that are no directives

Whether a comment is a directive depends on the words of its body only (`Directive.parse?_eq`).
A comment is `Plain` if it is no directive, and does not become one when the blanks at its end are
dropped: a block comment with blanks after its closing mark is not read as one with that mark.
What the standard rules make of plain comments is plain again (`Rewrite.undirected`), and where
all comments are plain nothing is suppressed (`spans_of_undirected`).
-/

namespace Fettle

open Text

/-! ### The words of a directive -/

namespace Switch

/-- The switch that a word stands for. -/
def ofWord? (w : List Char) : Option Switch :=
  [disable, enable].find? fun s => s.keyword.toList = w

theorem isBlank_of_mem_keyword (s : Switch) :
  ∀ c ∈ s.keyword.toList, isBlank c = false
  := by
  cases s <;> apply nonblank_of_all (by decide)

theorem lead?_eq_some_iff {body rest : List Char} {s : Switch} :
  lead? body = some (s, rest) ↔ body = s.keyword.toList ++ rest
  := by
  have hlead (s : Switch) (rest : List Char) :
      lead? (s.keyword.toList ++ rest) = some (s, rest) := by
    cases s <;> rfl
  constructor
  · intro h
    obtain ⟨s', rest', rfl⟩ := isSome_lead?_iff.mp (Option.isSome_of_eq_some h)
    rw [hlead, Option.some.injEq, Prod.mk.injEq] at h
    rw [h.1, h.2]
  · rintro rfl
    apply hlead

theorem ofWord?_eq_some_iff {w : List Char} {s : Switch} :
  ofWord? w = some s ↔ w = s.keyword.toList
  := by
  constructor
  · intro h
    have hkeyword := List.find?_some h
    exact (of_decide_eq_true hkeyword).symm
  · rintro rfl
    cases s <;> decide

end Switch

namespace Directive

/-- A comment is read word by word. -/
theorem parse?_eq (comment : String) :
  parse? comment = match words (commentBody comment.toList) with
    | [] => none
    | w :: ws => (Switch.ofWord? w).bind fun s => (named? ws).map (⟨s, ·⟩)
  := by
  rw [parse?, ← words_trim]
  have hfront (c : Char) : (trim (commentBody comment.toList)).head? = some c →
      isBlank c = false := isBlank_of_head?_trim
  generalize trim (commentBody comment.toList) = body at hfront ⊢
  by_cases hne : body = []
  · rw [hne]
    rfl
  · obtain ⟨w, rest, rfl, hw, hword, hrest⟩ := exists_first_word hne hfront
    rw [words_append hword hw hrest]
    change _ = (Switch.ofWord? w).bind fun s => (named? (words rest)).map (Directive.mk s ·)
    cases hswitch : Switch.ofWord? w with
    | some s =>
      rw [Switch.ofWord?_eq_some_iff] at hswitch
      rw [Switch.lead?_eq_some_iff.mpr (congrArg (· ++ rest) hswitch)]
      exact if_pos hrest
    | none =>
      cases hlead : Switch.lead? (w ++ rest) with
      | none => rfl
      | some found =>
        obtain ⟨s, rest'⟩ := found
        have hkeyword := Switch.lead?_eq_some_iff.mp hlead
        refine if_neg ?_
        intro hrest'
        -- the keyword would be the first word
        have hwords := words_append s.isBlank_of_mem_keyword (by cases s <;> decide) hrest'
        rw [← hkeyword, words_append hword hw hrest] at hwords
        rw [Switch.ofWord?_eq_some_iff.mpr (List.cons.inj hwords).1] at hswitch
        cases hswitch

theorem parse?_congr {c c' : String}
    (h : words (commentBody c'.toList) = words (commentBody c.toList)) :
  parse? c' = parse? c
  := by
  rw [parse?_eq, parse?_eq, h]

/-- No directive begins with another character than a keyword does. -/
theorem parse?_eq_none_of_front {comment : String} {c : Char} {s : List Char}
    (h : words (commentBody comment.toList) = words (c :: s)) (hc : isBlank c = false)
    (hk : c ≠ 'k') :
  parse? comment = none
  := by
  have hkeyword {w : List Char} : Switch.ofWord? (c :: w) = none := by
    rw [← Option.not_isSome_iff_eq_none, Option.isSome_iff_exists]
    rintro ⟨s, hs⟩
    rw [Switch.ofWord?_eq_some_iff] at hs
    cases s with
    | disable => exact hk (List.cons.inj hs).1
    | enable => exact hk (List.cons.inj hs).1
  rw [parse?_eq, h, words_cons_of_nonblank hc]
  split
  · rfl
  · rename_i w ws heq
    split at heq
    · rw [← (List.cons.inj heq).1, hkeyword]
      rfl
    · rw [← (List.cons.inj heq).1, hkeyword]
      rfl

end Directive

/-! ### Comments with fewer blanks -/

theorem withoutLead_append {lead s : List Char} :
  withoutLead lead (lead ++ s) = s
  := by
  rw [withoutLead, dropLead?_eq_some_iff.mpr rfl]
  rfl

theorem thinned_withoutLead {lead s s' : List Char} (hlead : ∀ c ∈ lead, isBlank c = false)
    (h : Thinned s s') :
  Thinned (withoutLead lead s) (withoutLead lead s')
  := by
  cases hs : dropLead? lead s with
  | none =>
    rw [withoutLead, withoutLead, hs, (h.dropLead?_eq_none_iff hlead).mpr hs]
    exact h
  | some u =>
    obtain rfl := dropLead?_eq_some_iff.mp hs
    obtain ⟨u', rfl, hu⟩ := h.of_append_left hlead
    rw [withoutLead_append, withoutLead_append]
    exact hu

theorem trimEnd_withoutLead {lead : List Char} (hlead : ∀ c ∈ lead, isBlank c = false)
    (htrim : trimEnd lead = lead) (s : List Char) :
  trimEnd (withoutLead lead s) = withoutLead lead (trimEnd s)
  := by
  cases hs : dropLead? lead s with
  | none =>
    rw [withoutLead, withoutLead, hs, ((Thinned.trimEnd s).dropLead?_eq_none_iff hlead).mpr hs]
    rfl
  | some u =>
    obtain rfl := dropLead?_eq_some_iff.mp hs
    rw [trimEnd_append_of_trimEnd_eq htrim, withoutLead_append, withoutLead_append]

/-- A closing mark is found after blanks are dropped where it is found before, or where it is
found before the last blanks. -/
theorem words_withoutTail {tail s s' : List Char} (htail : ∀ c ∈ tail, isBlank c = false)
    (hne : tail ≠ []) (h : Thinned s s') :
  words (withoutTail tail s') = words (withoutTail tail s)
    ∨ words (withoutTail tail s') = words (withoutTail tail (trimEnd s))
  := by
  cases hs' : dropTail? tail s' with
  | some u' =>
    obtain rfl := dropTail?_eq_some_iff.mp hs'
    obtain ⟨u, hu, hthinned⟩ := h.exists_of_append_right htail hne
    right
    rw [withoutTail, hs', hu, withoutTail, dropTail?_eq_some_iff.mpr rfl]
    apply words_of_thinned hthinned
  | none =>
    left
    cases hs : dropTail? tail s with
    | none =>
      rw [withoutTail, withoutTail, hs, hs']
      apply words_of_thinned h
    | some u =>
      obtain rfl := dropTail?_eq_some_iff.mp hs
      obtain ⟨u', rfl⟩ := h.exists_append_right htail
      rw [dropTail?_eq_some_iff.mpr rfl] at hs'
      cases hs'

theorem commentBody_line (s : List Char) :
  commentBody (['/', '/'] ++ s) = s
  := rfl

theorem commentBody_block (s : List Char) :
  commentBody (['/', '*'] ++ s) = withoutTail ['*', '/'] (withoutLead ['*'] s)
  := rfl

theorem words_commentBody_line {s s' : List Char} (h : Thinned (['/', '/'] ++ s) s') :
  words (commentBody s') = words s
  := by
  obtain ⟨u', rfl, hu⟩ := h.of_append_left (nonblank_of_all rfl)
  rw [commentBody_line]
  apply words_of_thinned hu

/-- The body of a comment with fewer blanks has the words of the comment, or of the comment
without the blanks at its end. -/
theorem words_commentBody {s s' : List Char} (h : Thinned s s') :
  words (commentBody s') = words (commentBody s)
    ∨ words (commentBody s') = words (commentBody (trimEnd s))
  := by
  cases hline : dropLead? ['/', '/'] s with
  | some u =>
    obtain rfl := dropLead?_eq_some_iff.mp hline
    left
    rw [words_commentBody_line h, commentBody_line]
  | none =>
    cases hblock : dropLead? ['/', '*'] s with
    | some u =>
      obtain rfl := dropLead?_eq_some_iff.mp hblock
      obtain ⟨u', rfl, hu⟩ := h.of_append_left (nonblank_of_all rfl)
      have hend : trimEnd (['/', '*'] ++ u) = ['/', '*'] ++ trimEnd u :=
        trimEnd_append_of_trimEnd_eq (by decide) u
      rw [hend, commentBody_block, commentBody_block, commentBody_block,
        ← trimEnd_withoutLead (nonblank_of_all rfl) rfl]
      apply words_withoutTail (nonblank_of_all rfl) (by decide)
        (thinned_withoutLead (nonblank_of_all rfl) hu)
    | none =>
      left
      have hline' := (h.dropLead?_eq_none_iff (nonblank_of_all rfl)).mpr hline
      have hblock' := (h.dropLead?_eq_none_iff (nonblank_of_all rfl)).mpr hblock
      rw [commentBody, commentBody, hline, hblock, hline', hblock']
      apply words_of_thinned h

/-! ### Plain comments -/

/-- A comment that is no directive, with the blanks at its end or without them. -/
structure Plain (comment : List Char) : Prop where
  whole : Directive.parse? (String.ofList comment) = none
  trimmed : Directive.parse? (String.ofList (trimEnd comment)) = none

/-- A plain comment is plain when blanks are dropped in front of blanks. -/
theorem Plain.thinned {s s' : List Char} (h : Plain s) (hs : Thinned s s') :
  Plain s'
  := by
  have hnone {u : List Char} (hu : Thinned s u) : Directive.parse? (String.ofList u) = none := by
    rcases words_commentBody hu with heq | heq
    · rw [← h.whole]
      apply Directive.parse?_congr
      simpa only [String.toList_ofList] using heq
    · rw [← h.trimmed]
      apply Directive.parse?_congr
      simpa only [String.toList_ofList] using heq
  exact ⟨hnone hs, hnone (hs.trans (Thinned.trimEnd s'))⟩

/-- What is between the marks of a plain comment is no directive. -/
theorem Plain.parse?_content {s : List Char} (h : Plain s) {comment : String}
    (hwords : words (commentBody comment.toList)
      = words (((dropLead? ['/', '*'] s).bind (dropTail? ['*', '/'])).getD s)) :
  Directive.parse? comment = none
  := by
  have hsame (heq : words (commentBody comment.toList) = words (commentBody s)) :
      Directive.parse? comment = none := by
    rw [← h.whole]
    apply Directive.parse?_congr
    rw [heq, String.toList_ofList]
  cases hcontent : (dropLead? ['/', '*'] s).bind (dropTail? ['*', '/']) with
  | some content =>
    obtain ⟨u, hlead, htail⟩ := Option.bind_eq_some_iff.mp hcontent
    obtain rfl := dropLead?_eq_some_iff.mp hlead
    obtain rfl := dropTail?_eq_some_iff.mp htail
    rw [hcontent, Option.getD_some] at hwords
    cases content with
    | nil =>
      rw [Directive.parse?_eq, hwords]
      rfl
    | cons c rest =>
      by_cases hc : c = '*'
      · subst hc
        apply Directive.parse?_eq_none_of_front hwords (by decide) (by decide)
      · apply hsame
        have hstar : dropLead? ['*'] (c :: rest ++ ['*', '/']) = none := by
          rw [List.cons_append, dropLead?, if_neg (Ne.symm hc)]
        rw [commentBody_block, withoutLead, hstar, Option.getD_none, withoutTail, htail]
        exact hwords
  | none =>
    rw [hcontent, Option.getD_none] at hwords
    cases hline : dropLead? ['/', '/'] s with
    | some u =>
      obtain rfl := dropLead?_eq_some_iff.mp hline
      apply Directive.parse?_eq_none_of_front hwords (by decide) (by decide)
    | none =>
      cases hblock : dropLead? ['/', '*'] s with
      | some u =>
        obtain rfl := dropLead?_eq_some_iff.mp hblock
        apply Directive.parse?_eq_none_of_front hwords (by decide) (by decide)
      | none =>
        apply hsame
        have hbody : commentBody s = s := by
          rw [commentBody, hline, hblock]
        rw [hbody, hwords]

/-- A plain comment is plain as an end-of-line comment. -/
theorem Plain.asEolComment {s : List Char} (h : Plain s) :
  Plain (CommentWrapping.asEolComment s).toList
  := by
  rw [CommentWrapping.asEolComment, String.toList_ofList]
  generalize hcontent :
    ((dropLead? ['/', '*'] s).bind (dropTail? ['*', '/'])).getD s = content
  have hnone {u : List Char} (hu : Thinned (['/', '/'] ++ ' ' :: trim content) u) :
      Directive.parse? (String.ofList u) = none := by
    apply h.parse?_content
    rw [String.toList_ofList, words_commentBody_line hu, words_cons_of_blank (by decide),
      words_trim, hcontent]
  exact ⟨hnone (Thinned.refl _), hnone (Thinned.trimEnd _)⟩

/-- All comments are plain. -/
def Undirected (ls : List (Leaf NodeId)) : Prop :=
  AllComments Plain ls

/-- A change leaves plain comments. -/
theorem Rewrite.undirected {ls ls' : List (Leaf NodeId)} (h : Rewrite ls ls')
    (hls : Undirected ls) :
  Undirected ls'
  := h.allComments (fun _ _ => Plain.thinned) (fun _ => Plain.asEolComment) hls

/-- Nothing is suppressed where no comment is a directive. -/
theorem spans_of_undirected {t : Tree} (h : Undirected t.leaves) :
  Suppression.spans t = []
  := by
  have hscan (text : String) (ls : List (Leaf NodeId)) (offset : Nat) (hls : Undirected ls) :
      Suppression.scan text offset [] ls = [] := by
    induction ls generalizing offset with
    | nil => rfl
    | cons l ls ih =>
      obtain ⟨hl, hls⟩ := AllComments.cons_iff.mp hls
      have hnone : Suppression.directive? l = none := by
        rw [Suppression.directive?]
        split
        · rename_i hcomment
          rw [← (hl hcomment).whole, String.ofList_toList]
        · rfl
      rw [Suppression.scan, hnone]
      apply ih _ hls
  rw [Suppression.spans, hscan t.text t.leaves 0 h]
  rfl

end Fettle
