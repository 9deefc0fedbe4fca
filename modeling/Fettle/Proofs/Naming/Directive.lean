import Fettle.Proofs.Naming.Grammar
import Fettle.Proofs.Order.Queue
import Fettle.Proofs.Rules.Undirected
import Mathlib.Data.List.Sort

/-!
# The grammar of directives

The body of a comment is what its marks enclose, `BodyOf`; a block comment may lack its closing
mark, and a text without marks is its own body.  A body spells a switch and some words if it is the
keyword of the switch and then the words, with white space around each of them
(`Switch.Spelled`).  The words name all rules if there are none, and otherwise the rules of which
they are ids (`Named.OfWords`).

`Directive.parse?` reads what a comment spells, and nothing else (`Directive.parse?_spelled`).
-/

namespace Fettle

open Text

/-! ### The body of a comment -/

/-- What the marks of a comment enclose. -/
inductive BodyOf : List Char → List Char → Prop where
  | line (body : List Char) : BodyOf (['/', '/'] ++ body) body
  | block {body : List Char} (front : ¬ ['*'] <+: body ++ ['*', '/']) :
    BodyOf (['/', '*'] ++ (body ++ ['*', '/'])) body
  | doc (body : List Char) : BodyOf (['/', '*', '*'] ++ (body ++ ['*', '/'])) body
  | openBlock {body : List Char} (front : ¬ ['*'] <+: body) (last : ¬ ['*', '/'] <:+ body) :
    BodyOf (['/', '*'] ++ body) body
  | openDoc {body : List Char} (last : ¬ ['*', '/'] <:+ body) :
    BodyOf (['/', '*', '*'] ++ body) body
  | bare {body : List Char} (line : ¬ ['/', '/'] <+: body) (block : ¬ ['/', '*'] <+: body) :
    BodyOf body body

theorem dropLead?_eq_none_iff {lead s : List Char} :
  dropLead? lead s = none ↔ ¬ lead <+: s
  := by
  rw [Option.eq_none_iff_forall_ne_some]
  simp only [ne_eq, dropLead?_eq_some_iff]
  constructor
  · rintro h ⟨rest, rfl⟩
    apply h rest rfl
  · rintro h rest rfl
    apply h (List.prefix_append lead rest)

theorem withoutLead_of_not_lead {lead s : List Char} (h : ¬ lead <+: s) :
  withoutLead lead s = s
  := by
  rw [withoutLead, dropLead?_eq_none_iff.mpr h, Option.getD_none]

theorem withoutTail_append (tail s : List Char) :
  withoutTail tail (s ++ tail) = s
  := by
  rw [withoutTail, dropTail?_eq_some_iff.mpr rfl, Option.getD_some]

theorem withoutTail_of_not_tail {tail s : List Char} (h : ¬ tail <:+ s) :
  withoutTail tail s = s
  := by
  cases hs : dropTail? tail s with
  | none => rw [withoutTail, hs, Option.getD_none]
  | some rest =>
    rw [dropTail?_eq_some_iff.mp hs] at h
    exact absurd (List.suffix_append rest tail) h

theorem BodyOf.commentBody_eq {comment body : List Char} (h : BodyOf comment body) :
  commentBody comment = body
  := by
  cases h with
  | line => rw [commentBody_line]
  | block front =>
    rw [commentBody_block, withoutLead_of_not_lead front, withoutTail_append]
  | doc =>
    change commentBody (['/', '*'] ++ (['*'] ++ (body ++ ['*', '/']))) = body
    rw [commentBody_block, withoutLead_append, withoutTail_append]
  | openBlock front last =>
    rw [commentBody_block, withoutLead_of_not_lead front, withoutTail_of_not_tail last]
  | openDoc last =>
    change commentBody (['/', '*'] ++ (['*'] ++ body)) = body
    rw [commentBody_block, withoutLead_append, withoutTail_of_not_tail last]
  | bare line block =>
    rw [commentBody, dropLead?_eq_none_iff.mpr line, dropLead?_eq_none_iff.mpr block]

/-- Every comment has a body. -/
theorem bodyOf_commentBody (comment : List Char) :
  BodyOf comment (commentBody comment)
  := by
  by_cases hline : ['/', '/'] <+: comment
  · obtain ⟨s, rfl⟩ := hline
    rw [commentBody_line]
    apply BodyOf.line
  · by_cases hblock : ['/', '*'] <+: comment
    · obtain ⟨s, rfl⟩ := hblock
      rw [commentBody_block]
      by_cases hdoc : ['*'] <+: s
      · obtain ⟨s, rfl⟩ := hdoc
        rw [withoutLead_append]
        by_cases hclosed : ['*', '/'] <:+ s
        · obtain ⟨s, rfl⟩ := hclosed
          rw [withoutTail_append]
          apply BodyOf.doc
        · rw [withoutTail_of_not_tail hclosed]
          apply BodyOf.openDoc hclosed
      · rw [withoutLead_of_not_lead hdoc]
        by_cases hclosed : ['*', '/'] <:+ s
        · obtain ⟨s, rfl⟩ := hclosed
          rw [withoutTail_append]
          apply BodyOf.block hdoc
        · rw [withoutTail_of_not_tail hclosed]
          apply BodyOf.openBlock hdoc hclosed
    · rw [commentBody, dropLead?_eq_none_iff.mpr hline, dropLead?_eq_none_iff.mpr hblock]
      apply BodyOf.bare hline hblock

/-- The forms in which comments are written. -/
inductive CommentForm where
  | line
  | block
  | doc

namespace CommentForm

/-- The mark at the front of a comment. -/
def opening : CommentForm → List Char
  | line => ['/', '/']
  | block => ['/', '*']
  | doc => ['/', '*', '*']

/-- The mark at the end of a comment. -/
def closing : CommentForm → List Char
  | line => []
  | block | doc => ['*', '/']

/-- The comment of a form with a given body. -/
def enclose (form : CommentForm) (body : List Char) : String :=
  String.ofList (form.opening ++ (body ++ form.closing))

/-- A body is found between the marks if it does not change the opening mark. -/
theorem bodyOf_enclose (form : CommentForm) {body : List Char} (hne : body ≠ [])
    (hstar : ¬ ['*'] <+: body) :
  BodyOf (form.enclose body).toList body
  := by
  rw [enclose, String.toList_ofList]
  cases form with
  | line =>
    rw [closing, List.append_nil]
    apply BodyOf.line
  | block =>
    apply BodyOf.block
    obtain ⟨c, body, rfl⟩ := List.exists_cons_of_ne_nil hne
    rw [List.cons_append, List.cons_prefix_cons]
    rintro ⟨rfl, -⟩
    apply hstar
    exact List.prefix_append ['*'] body
  | doc => apply BodyOf.doc

end CommentForm

/-! ### Keyword and words -/

/-- A body is the keyword of a switch and some words, with white space around each of them. -/
def Switch.Spelled (s : Switch) (ws : List (List Char)) (body : List Char) : Prop :=
  ∃ lead tail, (∀ c ∈ lead, isBlank c = true) ∧ Separated ws tail
    ∧ body = lead ++ (s.keyword.toList ++ tail)

namespace Switch.Spelled

variable {s : Switch} {ws : List (List Char)} {body : List Char}

theorem iff_words_eq :
  s.Spelled ws body ↔ words body = s.keyword.toList :: ws
  := by
  have hne : s.keyword.toList ≠ [] := by
    cases s <;> decide
  rw [words_eq_cons_iff, and_iff_right hne, and_iff_right s.isBlank_of_mem_keyword]
  rfl

/-- No body that begins with white space or a keyword changes the opening mark. -/
theorem bodyOf_enclose (h : s.Spelled ws body) (form : CommentForm) :
  BodyOf (form.enclose body).toList body
  := by
  obtain ⟨lead, tail, hlead, -, rfl⟩ := h
  apply form.bodyOf_enclose
  · intro hnil
    have hkeyword := (List.append_eq_nil_iff.mp (List.append_eq_nil_iff.mp hnil).2).1
    cases s <;> cases hkeyword
  · cases lead with
    | nil => cases s <;> simp [keyword]
    | cons c lead =>
      rw [List.cons_append, List.cons_prefix_cons]
      rintro ⟨rfl, -⟩
      exact absurd (hlead '*' List.mem_cons_self) (by decide)

end Switch.Spelled

/-! ### The rules that words name -/

/-- What words name: all rules if there are no words, or the rules of which some are ids, in
ascending order. -/
inductive Named.OfWords : List (List Char) → Named → Prop where
  | all : OfWords [] .all
  | listed {ws : List (List Char)} {ids : List RuleId} (some : ids ≠ [])
      (ascending : ids.Pairwise (· < ·))
      (mem : ∀ id, id ∈ ids ↔ ∃ w ∈ ws, RuleId.Names (String.ofList w) id) :
    OfWords ws (.listed ids)

namespace Directive

theorem wordId?_eq_some_iff {w : List Char} {id : RuleId} :
  wordId? w = some id ↔ RuleId.Names (String.ofList w) id
  := by
  rw [wordId?, ← RuleId.parse_eq_ok_iff]
  cases RuleId.parse (String.ofList w) <;> simp

theorem mem_sortedIds_words {ws : List (List Char)} {id : RuleId} :
  id ∈ sortedIds (ws.filterMap wordId?) ↔ ∃ w ∈ ws, RuleId.Names (String.ofList w) id
  := by
  rw [mem_sortedIds, List.mem_filterMap]
  simp only [wordId?_eq_some_iff]

theorem named?_of_ne_nil {ws : List (List Char)} (h : ws ≠ []) :
  named? ws = if sortedIds (ws.filterMap wordId?) = [] then none
    else some (.listed (sortedIds (ws.filterMap wordId?)))
  := by
  rw [named?, if_neg h]
  cases sortedIds (ws.filterMap wordId?) <;> rfl

theorem named?_eq_some_iff {ws : List (List Char)} {n : Named} :
  named? ws = some n ↔ n.OfWords ws
  := by
  by_cases hws : ws = []
  · subst hws
    rw [named?, if_pos rfl, Option.some.injEq]
    constructor
    · rintro rfl
      apply Named.OfWords.all
    · intro h
      cases h with
      | all => rfl
      | @listed _ ids hsome _ mem =>
        obtain ⟨id, hid⟩ := List.exists_mem_of_ne_nil ids hsome
        obtain ⟨w, hw, -⟩ := (mem id).mp hid
        cases hw
  · have hsorted : (sortedIds (ws.filterMap wordId?)).Pairwise (· < ·) := pairwise_sortedIds _
    rw [named?_of_ne_nil hws]
    constructor
    · intro h
      split at h
      · cases h
      · rename_i hsome
        obtain rfl := Option.some.inj h
        apply Named.OfWords.listed hsome hsorted
        intro id
        apply mem_sortedIds_words
    · intro h
      cases h with
      | all => exact absurd rfl hws
      | @listed _ ids hsome ascending mem =>
        have hsame : sortedIds (ws.filterMap wordId?) = ids := by
          have : Std.Asymm ((· < ·) : RuleId → RuleId → Prop) :=
            ⟨fun a b => lt_asymm (a := a.text) (b := b.text)⟩
          apply hsorted.eq_of_mem_iff ascending
          intro id
          rw [mem id, mem_sortedIds_words]
        rw [hsame, if_neg hsome]

/-- Words of which none is an id name nothing. -/
theorem named?_eq_none_iff {ws : List (List Char)} :
  named? ws = none ↔ ws ≠ [] ∧ ∀ w ∈ ws, ∀ id, ¬ RuleId.Names (String.ofList w) id
  := by
  by_cases hws : ws = []
  · subst hws
    rw [named?, if_pos rfl]
    simp
  · rw [named?_of_ne_nil hws, ite_eq_left_iff, and_iff_right hws]
    simp only [reduceCtorEq, imp_false, not_not, List.eq_nil_iff_forall_not_mem,
      mem_sortedIds_words, not_exists, not_and]
    constructor
    · intro h w hw id
      apply h id w hw
    · intro h id w hw
      apply h w hw id

/-! ### Reading directives -/

theorem parse?_of_spelled {comment : String} {body : List Char} {s : Switch}
    {ws : List (List Char)} (hbody : BodyOf comment.toList body) (h : s.Spelled ws body) :
  parse? comment = (named? ws).map (⟨s, ·⟩)
  := by
  rw [parse?_eq, hbody.commentBody_eq, Switch.Spelled.iff_words_eq.mp h]
  change (Switch.ofWord? s.keyword.toList).bind _ = _
  rw [Switch.ofWord?_eq_some_iff.mpr rfl, Option.bind_some]

/-- A comment is a directive exactly if its body spells one. -/
theorem parse?_eq_some_iff {comment : String} {d : Directive} :
  parse? comment = some d ↔ ∃ body ws, BodyOf comment.toList body ∧ d.switch.Spelled ws body
    ∧ d.rules.OfWords ws
  := by
  constructor
  · intro h
    rw [parse?_eq] at h
    split at h
    · cases h
    · rename_i w ws hwords
      obtain ⟨s, hs, h⟩ := Option.bind_eq_some_iff.mp h
      obtain ⟨n, hn, rfl⟩ := Option.map_eq_some_iff.mp h
      obtain rfl := Switch.ofWord?_eq_some_iff.mp hs
      use commentBody comment.toList, ws, bodyOf_commentBody _
      use Switch.Spelled.iff_words_eq.mpr hwords, named?_eq_some_iff.mp hn
  · rintro ⟨body, ws, hbody, hspelled, hn⟩
    rw [parse?_of_spelled hbody hspelled, named?_eq_some_iff.mpr hn]
    rfl

/-- However a keyword and words are laid out in a comment, it switches all rules if there are no
words, and otherwise the rules of which they are ids, unless none is one.  No other comment is a
directive. -/
theorem parse?_spelled :
  (∀ (form : CommentForm) (s : Switch) (ws : List (List Char)) (body : List Char),
    s.Spelled ws body →
      (ws = [] → parse? (form.enclose body) = some ⟨s, .all⟩)
      ∧ ((∃ w ∈ ws, ∃ id, RuleId.Names (String.ofList w) id) →
        ∃ ids, parse? (form.enclose body) = some ⟨s, .listed ids⟩ ∧ ids.Pairwise (· < ·)
          ∧ ∀ id, id ∈ ids ↔ ∃ w ∈ ws, RuleId.Names (String.ofList w) id)
      ∧ (ws ≠ [] → (∀ w ∈ ws, ∀ id, ¬ RuleId.Names (String.ofList w) id) →
        parse? (form.enclose body) = none))
  ∧ ∀ (comment : String) (d : Directive),
    parse? comment = some d ↔ ∃ body ws, BodyOf comment.toList body ∧ d.switch.Spelled ws body
      ∧ d.rules.OfWords ws
  := by
  refine ⟨?_, fun comment d => parse?_eq_some_iff⟩
  intro form s ws body h
  rw [parse?_of_spelled (h.bodyOf_enclose form) h]
  refine ⟨?_, ?_, ?_⟩
  · rintro rfl
    rfl
  · rintro ⟨w, hw, id, hid⟩
    cases hn : named? ws with
    | none => exact absurd hid ((named?_eq_none_iff.mp hn).2 w hw id)
    | some n =>
      cases named?_eq_some_iff.mp hn with
      | all => cases hw
      | listed _ ascending mem => exact ⟨_, rfl, ascending, mem⟩
  · intro hws hnone
    rw [named?_eq_none_iff.mpr ⟨hws, hnone⟩]
    rfl

/-- Comments without words, with words of which one is no id and one is there twice, and with a
word that is no id. -/
theorem parse?_spelled_mixed :
  let plain := "ktlint-disable\n".toList
  let ws := ["x:y".toList, "no-Tabs".toList, "indent".toList, "x:y".toList]
  let mixed := "\u2003ktlint-enable\tx:y no-Tabs\n  indent x:y ".toList
  let wrong := "ktlint-enable x:y:z".toList
  (Switch.disable.Spelled [] plain
    ∧ parse? (CommentForm.block.enclose plain) = some ⟨.disable, .all⟩)
  ∧ (Switch.enable.Spelled ws mixed ∧ (∃ w ∈ ws, ∃ id, RuleId.Names (String.ofList w) id)
    ∧ ∃ ids, parse? (CommentForm.doc.enclose mixed) = some ⟨.enable, .listed ids⟩
      ∧ ids.Pairwise (· < ·) ∧ ∀ id, id ∈ ids ↔ ∃ w ∈ ws, RuleId.Names (String.ofList w) id)
  ∧ Switch.enable.Spelled ["x:y:z".toList] wrong
    ∧ (∀ w ∈ ["x:y:z".toList], ∀ id, ¬ RuleId.Names (String.ofList w) id)
    ∧ parse? (CommentForm.line.enclose wrong) = none
  := by
  intro plain ws mixed wrong
  have hplain : Switch.disable.Spelled [] plain := by
    apply Switch.Spelled.iff_words_eq.mpr
    decide
  have hmixed : Switch.enable.Spelled ws mixed := by
    apply Switch.Spelled.iff_words_eq.mpr
    decide
  have hwrong : Switch.enable.Spelled ["x:y:z".toList] wrong := by
    apply Switch.Spelled.iff_words_eq.mpr
    decide
  have hsome : ∃ w ∈ ws, ∃ id, RuleId.Names (String.ofList w) id := by
    use "x:y".toList, List.mem_cons_self, ⟨"x:y"⟩
    rw [← RuleId.parse_eq_ok_iff]
    decide
  have hnone : ∀ w ∈ ["x:y:z".toList], ∀ id, ¬ RuleId.Names (String.ofList w) id := by
    intro w hw id hid
    rw [← RuleId.parse_eq_ok_iff, List.mem_singleton.mp hw] at hid
    have hparse : RuleId.parse (String.ofList "x:y:z".toList) = .error (.ruleId "x:y:z") := by
      decide
    rw [hparse] at hid
    cases hid
  refine ⟨⟨hplain, ?_⟩, ⟨hmixed, hsome, ?_⟩, hwrong, hnone, ?_⟩
  · exact (parse?_spelled.1 .block .disable [] plain hplain).1 rfl
  · exact (parse?_spelled.1 .doc .enable ws mixed hmixed).2.1 hsome
  · exact (parse?_spelled.1 .line .enable ["x:y:z".toList] wrong hwrong).2.2
      (List.cons_ne_nil _ _) hnone

end Directive

end Fettle
