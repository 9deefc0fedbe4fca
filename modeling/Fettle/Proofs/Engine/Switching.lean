import Fettle.Proofs.Text.LineBounds
import Fettle.Proofs.Tree.Offsets
import Fettle.Suppression

/-!
# Suppression as a switch

What the spans of a tree suppress can be told for each rule by itself.  An end-of-line comment
that switches the rule off does so on its own line.  The other comments are a switch: a rule is
off at an offset if the last of the comments up to there that name it, or name no rule, is one
that switches off.

`any_covers_scan` is the simulation: the spans found from some leaves on cover an offset exactly
if a line is switched off there, or if the switch is off at the end, where at the start it stands
as the open spans have it.  `isSuppressed_spans_iff` says it of whole trees.
-/

namespace Fettle.Suppression

/-- Some leaves with their offsets, where the first is at a given one. -/
def placed (offset : Nat) : List (Leaf NodeId) → List (Nat × Leaf NodeId)
  | [] => []
  | l :: ls => (offset, l) :: placed (offset + l.text.utf8ByteSize) ls

/-- What a leaf at an offset does to the switch of a rule, as it is seen at `o`: a comment that
begins after `o` does nothing, nor does one that ends with its line. -/
def rangeSwitch? (o : Nat) (r : RuleId) (p : Nat × Leaf NodeId) : Option Switch :=
  if p.1 ≤ o ∧ (p.2.kind = .blockComment ∨ p.2.kind = .kdoc) then
    ((Directive.parse? p.2.text).filter fun d => d.rules.covers r).map Directive.switch
  else none

/-- Whether a leaf at an offset switches a rule off on the line of `o`. -/
def OffOnLine (text : String) (o : Nat) (r : RuleId) (p : Nat × Leaf NodeId) : Prop :=
  p.2.kind = .eolComment ∧ lineOf text p.1 = lineOf text o
    ∧ ∃ d, Directive.parse? p.2.text = some d ∧ d.switch = .disable ∧ d.rules.covers r = true

/-- Whether a rule is off after some leaves, if it is off or not before them. -/
def isOff (o : Nat) (r : RuleId) (off : Bool) : List (Nat × Leaf NodeId) → Bool
  | [] => off
  | p :: ps =>
    match rangeSwitch? o r p with
    | none => isOff o r off ps
    | some switch => isOff o r (switch == .disable) ps

/-- The last comment that works the switch decides. -/
theorem isOff_eq (o : Nat) (r : RuleId) (off : Bool) (ps : List (Nat × Leaf NodeId)) :
  isOff o r off ps
    = ((ps.filterMap (rangeSwitch? o r)).getLast?.map (· == .disable)).getD off
  := by
  induction ps generalizing off with
  | nil => rfl
  | cons p ps ih =>
    rw [isOff, List.filterMap_cons]
    cases rangeSwitch? o r p with
    | none => apply ih
    | some switch =>
      change isOff o r (switch == .disable) ps = _
      rw [ih, List.getLast?_cons]
      cases (ps.filterMap (rangeSwitch? o r)).getLast? <;> rfl

/-- Whether an open span keeps a rule off at an offset, if nothing closes it. -/
def holds (o : Nat) (r : RuleId) (s : OpenSpan) : Bool :=
  s.start ≤ o && s.rules.covers r

/-! ### Closing spans -/

section

variable {o q : Nat} {r : RuleId} {opened : List OpenSpan}

/-- Spans that close after an offset cover it if they hold there. -/
theorem any_covers_close_of_lt (h : o < q) :
  (opened.map (OpenSpan.close q)).any (·.covers o r) = opened.any (holds o r)
  := by
  rw [List.any_map]
  congr 1
  funext s
  change (decide (s.start ≤ o) && decide (o < q) && s.rules.covers r) = holds o r s
  rw [decide_eq_true h, Bool.and_true, holds]

/-- Spans that close at an offset or before it do not cover it. -/
theorem any_covers_close_of_le (h : q ≤ o) :
  (opened.map (OpenSpan.close q)).any (·.covers o r) = false
  := by
  rw [List.any_eq_false]
  intro s hs
  obtain ⟨s, -, rfl⟩ := List.mem_map.mp hs
  rw [Span.covers, Bool.and_eq_true, Bool.and_eq_true, decide_eq_true_eq, decide_eq_true_eq]
  rintro ⟨⟨-, hstop⟩, -⟩
  exact absurd hstop (Nat.not_lt.mpr h)

/-- Spans that open after an offset do not hold there. -/
theorem any_holds_of_lt (h : ∀ s ∈ opened, o < s.start) :
  opened.any (holds o r) = false
  := by
  rw [List.any_eq_false]
  intro s hs
  have hlt := h s hs
  rw [holds, Bool.and_eq_true, decide_eq_true_eq]
  rintro ⟨hle, -⟩
  omega

end

/-- The open spans that are left when some rules are switched on at an offset. -/
def reopened (q : Nat) (ids : List RuleId) (opened : List OpenSpan) : List OpenSpan :=
  opened.filterMap fun s => (s.rules.without ids).map (⟨q, ·⟩)

section

variable {o q : Nat} {r : RuleId} {ids : List RuleId} {opened : List OpenSpan}

theorem start_of_mem_reopened {s : OpenSpan} (h : s ∈ reopened q ids opened) :
  s.start = q
  := by
  obtain ⟨s', -, hs⟩ := List.mem_filterMap.mp h
  obtain ⟨rules, -, rfl⟩ := Option.map_eq_some_iff.mp hs
  rfl

/-- What is opened again up to an offset holds the rules that it held, without those that are
switched on. -/
theorem any_holds_reopened (hq : q ≤ o) (hopen : ∀ s ∈ opened, s.start ≤ q) :
  (reopened q ids opened).any (holds o r) = (opened.any (holds o r) && !ids.contains r)
  := by
  induction opened with
  | nil => rfl
  | cons s opened ih =>
    have hs := hopen s List.mem_cons_self
    have hrest := ih fun s' hs' => hopen s' (List.mem_cons_of_mem _ hs')
    have hstart : s.start ≤ o := by omega
    have hone : ((s.rules.without ids).map (OpenSpan.mk q)).toList.any (holds o r)
        = (holds o r s && !ids.contains r) := by
      have hcovers := Selector.covers_without s.rules ids r
      rw [holds, decide_eq_true hstart, Bool.true_and, ← hcovers]
      cases s.rules.without ids with
      | none => rfl
      | some rules => simp [holds, hq]
    rw [reopened] at hrest ⊢
    rw [List.any_cons, Bool.and_or_distrib_right, ← hone, ← hrest, List.filterMap_cons]
    cases s.rules.without ids with
    | none => rfl
    | some rules => simp

end

/-! ### One comment -/

section

variable {text : String} {o q : Nat} {r : RuleId} {kind : Kind} {opened : List OpenSpan}

theorem apply_line_disable (rules : Named) :
  apply text .eolComment q opened ⟨.disable, rules⟩ = ([.ofLine text q (.ofNamed rules)], opened)
  := rfl

theorem apply_line_enable (rules : Named) :
  apply text .eolComment q opened ⟨.enable, rules⟩ = ([], opened)
  := rfl

variable (hkind : kind ≠ .eolComment)

include hkind

theorem apply_disable (rules : Named) :
  apply text kind q opened ⟨.disable, rules⟩ = ([], opened ++ [⟨q, .ofNamed rules⟩])
  := by
  simp only [apply, if_neg hkind]

theorem apply_enable_all :
  apply text kind q opened ⟨.enable, .all⟩ = (opened.map (OpenSpan.close q), [])
  := by
  simp only [apply, if_neg hkind]

theorem apply_enable_listed (ids : List RuleId) :
  apply text kind q opened ⟨.enable, .listed ids⟩
    = (opened.map (OpenSpan.close q), reopened q ids opened)
  := by
  simp only [apply, if_neg hkind, reopened]

/-- A comment up to an offset sets the switch, if it is about the rule, and what it closes does
not cover the offset. -/
theorem any_apply_of_le (hq : q ≤ o) (hopen : ∀ s ∈ opened, s.start ≤ q) (d : Directive) :
  (apply text kind q opened d).1.any (·.covers o r) = false
    ∧ (apply text kind q opened d).2.any (holds o r)
      = if d.rules.covers r then d.switch == .disable else opened.any (holds o r)
  := by
  obtain ⟨switch, rules⟩ := d
  cases switch with
  | disable =>
    have hlast : holds o r ⟨q, .ofNamed rules⟩ = rules.covers r := by
      rw [holds, decide_eq_true hq, Bool.true_and, Selector.covers_ofNamed]
    rw [apply_disable hkind]
    use rfl
    rw [List.any_append, List.any_cons, List.any_nil, hlast, Bool.or_false]
    cases rules.covers r with
    | false => apply Bool.or_false
    | true => apply Bool.or_true
  | enable =>
    cases rules with
    | all =>
      rw [apply_enable_all hkind]
      exact ⟨any_covers_close_of_le hq, rfl⟩
    | listed ids =>
      rw [apply_enable_listed hkind]
      use any_covers_close_of_le hq
      rw [any_holds_reopened hq hopen, Named.covers]
      cases ids.contains r with
      | false => apply Bool.and_true
      | true => apply Bool.and_false

/-- A comment after an offset changes nothing there: what it closes covers what was held. -/
theorem any_apply_of_lt (hq : o < q) (d : Directive) :
  ((apply text kind q opened d).1.any (·.covers o r)
    || (apply text kind q opened d).2.any (holds o r)) = opened.any (holds o r)
  := by
  obtain ⟨switch, rules⟩ := d
  cases switch with
  | disable =>
    have hlast : [(⟨q, .ofNamed rules⟩ : OpenSpan)].any (holds o r) = false := by
      apply any_holds_of_lt
      simpa using hq
    rw [apply_disable hkind, List.any_append, hlast, Bool.or_false]
    rfl
  | enable =>
    cases rules with
    | all =>
      rw [apply_enable_all hkind, any_covers_close_of_lt hq]
      apply Bool.or_false
    | listed ids =>
      have hnone : (reopened q ids opened).any (holds o r) = false := by
        apply any_holds_of_lt
        intro s hs
        rwa [start_of_mem_reopened hs]
      rw [apply_enable_listed hkind, any_covers_close_of_lt hq, hnone, Bool.or_false]

omit hkind in
/-- The open spans begin at or before the comment. -/
theorem start_le_of_mem_apply (hopen : ∀ s ∈ opened, s.start ≤ q) (d : Directive) :
  ∀ s ∈ (apply text kind q opened d).2, s.start ≤ q
  := by
  by_cases hkind : kind = .eolComment
  · subst hkind
    obtain ⟨switch, rules⟩ := d
    cases switch with
    | disable => exact hopen
    | enable => exact hopen
  · obtain ⟨switch, rules⟩ := d
    intro s hs
    cases switch with
    | disable =>
      rw [apply_disable hkind] at hs
      rcases List.mem_append.mp hs with hs | hs
      · apply hopen s hs
      · obtain rfl := List.mem_singleton.mp hs
        apply Nat.le_refl
    | enable =>
      cases rules with
      | all =>
        rw [apply_enable_all hkind] at hs
        cases hs
      | listed ids =>
        rw [apply_enable_listed hkind] at hs
        apply Nat.le_of_eq (start_of_mem_reopened hs)

end

/-! ### All leaves -/

section

variable {text : String} {o : Nat} {r : RuleId}

/-- A switch that is not worked any more stays as it is. -/
theorem isOff_of_lt {q : Nat} (hq : o < q) (off : Bool) (ls : List (Leaf NodeId)) :
  isOff o r off (placed q ls) = off
  := by
  induction ls generalizing q with
  | nil => rfl
  | cons l ls ih =>
    have hnone : rangeSwitch? o r (q, l) = none := by
      apply if_neg
      rintro ⟨hle, -⟩
      exact absurd hq (Nat.not_lt.mpr hle)
    rw [placed, isOff, hnone]
    apply ih (Nat.lt_add_right _ hq)

/-- The span of a line covers an offset if the comment switches the rule off there. -/
theorem covers_ofLine (ho : o ≤ text.utf8ByteSize) (q : Nat) (rules : Named) :
  (Span.ofLine text q (.ofNamed rules)).covers o r = true
    ↔ lineOf text q = lineOf text o ∧ rules.covers r = true
  := by
  rw [← mem_line_iff ho, Span.covers, Span.ofLine, Selector.covers_ofNamed, Bool.and_eq_true,
    Bool.and_eq_true, decide_eq_true_eq, decide_eq_true_eq]

section

variable {q : Nat} {opened : List OpenSpan} {l : Leaf NodeId}

theorem scan_cons_of_none (h : directive? l = none) (ls : List (Leaf NodeId)) :
  scan text q opened (l :: ls) = scan text (q + l.text.utf8ByteSize) opened ls
  := by
  simp only [scan, h]

theorem scan_cons_of_some {d : Directive} (h : directive? l = some d) (ls : List (Leaf NodeId)) :
  scan text q opened (l :: ls)
    = (apply text l.kind q opened d).1
      ++ scan text (q + l.text.utf8ByteSize) (apply text l.kind q opened d).2 ls
  := by
  simp only [scan, h]

/-- A directive is what a comment says. -/
theorem directive?_of_isComment (h : l.kind.isComment = true) :
  directive? l = Directive.parse? l.text
  := if_pos h

/-- A comment that ends with its line works no switch. -/
theorem rangeSwitch?_of_line (hkind : l.kind = .eolComment) :
  rangeSwitch? o r (q, l) = none
  := by
  simp [rangeSwitch?, hkind]

theorem rangeSwitch?_of_none (h : directive? l = none) :
  rangeSwitch? o r (q, l) = none
  := by
  rw [rangeSwitch?]
  split
  · rename_i hkind
    have hcomment : l.kind.isComment = true := by
      rcases hkind.2 with hkind | hkind
      · rw [hkind]
        rfl
      · rw [hkind]
        rfl
    rw [directive?_of_isComment hcomment] at h
    rw [h]
    rfl
  · rfl

theorem rangeSwitch?_of_some {d : Directive} (hkind : l.kind ≠ .eolComment)
    (h : directive? l = some d) (hq : q ≤ o) :
  rangeSwitch? o r (q, l) = if d.rules.covers r then some d.switch else none
  := by
  have hcomment : l.kind.isComment = true := by
    rw [directive?] at h
    split at h
    · assumption
    · cases h
  have hrange : l.kind = .blockComment ∨ l.kind = .kdoc := by
    cases hk : l.kind <;> simp_all [Kind.isComment]
  rw [directive?_of_isComment hcomment] at h
  rw [rangeSwitch?, if_pos ⟨hq, hrange⟩, h]
  cases hcovers : d.rules.covers r with
  | false => simp [Option.filter, hcovers]
  | true => simp [Option.filter, hcovers]

theorem not_offOnLine_of_none (h : directive? l = none) :
  ¬ OffOnLine text o r (q, l)
  := by
  rintro ⟨hkind, -, d, hd, -⟩
  have hcomment : l.kind.isComment = true := by
    rw [hkind]
    rfl
  rw [directive?_of_isComment hcomment, hd] at h
  cases h

/-- A comment that ends with its line switches a rule off exactly if it says so. -/
theorem offOnLine_iff {d : Directive} (hkind : l.kind = .eolComment)
    (h : directive? l = some d) :
  OffOnLine text o r (q, l)
    ↔ lineOf text q = lineOf text o ∧ d.switch = .disable ∧ d.rules.covers r = true
  := by
  have hcomment : l.kind.isComment = true := by
    rw [hkind]
    rfl
  rw [directive?_of_isComment hcomment] at h
  constructor
  · rintro ⟨-, hline, d', hd', hswitch⟩
    obtain rfl := Option.some.inj (h.symm.trans hd')
    exact ⟨hline, hswitch⟩
  · rintro ⟨hline, hswitch⟩
    exact ⟨hkind, hline, d, h, hswitch⟩

end

/-- The spans from some leaves on cover an offset exactly if a line is switched off there, or
the switch is off at the end. -/
theorem any_covers_scan (ho : o ≤ text.utf8ByteSize) {q : Nat} {opened : List OpenSpan}
    {ls : List (Leaf NodeId)} (hopen : ∀ s ∈ opened, s.start ≤ q) (hend : o ≤ q + width ls) :
  (scan text q opened ls).any (·.covers o r) = true
    ↔ (∃ p ∈ placed q ls, OffOnLine text o r p)
      ∨ isOff o r (opened.any (holds o r)) (placed q ls) = true
  := by
  induction ls generalizing q opened with
  | nil =>
    rw [width, Nat.add_zero] at hend
    rw [scan, any_covers_close_of_lt (Nat.lt_succ_of_le hend), placed, isOff]
    simp
  | cons l ls ih =>
    rw [width, ← Nat.add_assoc] at hend
    have hlater {spans : List OpenSpan} (hspans : ∀ s ∈ spans, s.start ≤ q) :
        ∀ s ∈ spans, s.start ≤ q + l.text.utf8ByteSize := by
      intro s hs
      apply Nat.le_trans (hspans s hs) (Nat.le_add_right _ _)
    rw [placed, List.exists_mem_cons_iff, isOff]
    cases hd : directive? l with
    | none =>
      rw [scan_cons_of_none hd, rangeSwitch?_of_none hd, or_iff_right (not_offOnLine_of_none hd)]
      apply ih (hlater hopen) hend
    | some d =>
      rw [scan_cons_of_some hd, List.any_append, Bool.or_eq_true,
        ih (hlater (start_le_of_mem_apply hopen d)) hend]
      by_cases hkind : l.kind = .eolComment
      · rw [rangeSwitch?_of_line hkind, offOnLine_iff hkind hd, hkind]
        obtain ⟨switch, rules⟩ := d
        cases switch with
        | disable =>
          rw [apply_line_disable, List.any_cons, List.any_nil, Bool.or_false,
            covers_ofLine ho]
          simp only [true_and, or_assoc]
        | enable =>
          rw [apply_line_enable]
          simp
      · have hline : ¬ OffOnLine text o r (q, l) := by
          rintro ⟨hk, -⟩
          exact hkind hk
        rw [or_iff_right hline]
        rcases Nat.lt_or_ge o q with hq | hq
        · have hrest := Nat.lt_add_right l.text.utf8ByteSize hq
          have hnone : rangeSwitch? o r (q, l) = none := by
            apply if_neg
            rintro ⟨hle, -⟩
            exact absurd hq (Nat.not_lt.mpr hle)
          have hkept : (apply text l.kind q opened d).1.any (·.covers o r) = true
              ∨ (apply text l.kind q opened d).2.any (holds o r) = true
              ↔ opened.any (holds o r) = true := by
            rw [← Bool.or_eq_true, any_apply_of_lt hkind hq d]
          rw [hnone, isOff_of_lt hrest, isOff_of_lt hrest, or_left_comm, hkept]
        · obtain ⟨hclosed, hopened⟩ := @any_apply_of_le text o q r l.kind opened hkind hq hopen d
          rw [hclosed, hopened, rangeSwitch?_of_some hkind hd hq]
          cases d.rules.covers r with
          | false => simp
          | true => simp

end

/-- A rule is suppressed at an offset of the document exactly if an end-of-line comment on the
same line switches it off, or the last of the other comments up to there that are about it does. -/
theorem isSuppressed_spans_iff (t : Tree) {o : Nat} (ho : o ≤ t.text.utf8ByteSize) (r : RuleId) :
  isSuppressed (spans t) o r = true
    ↔ (∃ p ∈ placed 0 t.leaves, OffOnLine t.text o r p)
      ∨ ((placed 0 t.leaves).filterMap (rangeSwitch? o r)).getLast? = some .disable
  := by
  have hempty : isSuppressed (spans t) o r = (scan t.text 0 [] t.leaves).any (·.covers o r) := by
    rw [isSuppressed, spans, List.any_filter]
    congr 1
    funext s
    -- a span that covers an offset is not empty
    cases hcovers : s.covers o r with
    | false => apply Bool.and_false
    | true =>
      rw [Span.covers, Bool.and_eq_true, Bool.and_eq_true, decide_eq_true_eq,
        decide_eq_true_eq] at hcovers
      obtain ⟨⟨hstart, hstop⟩, -⟩ := hcovers
      rw [Bool.and_true, decide_eq_true_eq]
      omega
  have hend : o ≤ 0 + width t.leaves := by
    rwa [Nat.zero_add, ← Tree.utf8ByteSize_text]
  rw [hempty, any_covers_scan ho (by simp) hend, isOff_eq]
  cases ((placed 0 t.leaves).filterMap (rangeSwitch? o r)).getLast? with
  | none => simp
  | some switch => simp

/-- All rules are switched off and one is switched on again: between the two comments another
rule is off, and after them too. -/
theorem isSuppressed_spans_partial :
  let t : Tree := .ofRoot .file none (.leaf () .blockComment "/* ktlint-disable */"
    (.leaf () .whitespace "\n" (.leaf () .blockComment "/* ktlint-enable no-tabs */" .nil)))
  let r : RuleId := ⟨"standard:indent"⟩
  48 ≤ t.text.utf8ByteSize ∧ isSuppressed (spans t) 48 r = true
    ∧ ((∃ p ∈ placed 0 t.leaves, OffOnLine t.text 48 r p)
      ∨ ((placed 0 t.leaves).filterMap (rangeSwitch? 48 r)).getLast? = some .disable)
  := by
  intro t r
  have ho : 48 ≤ t.text.utf8ByteSize := by
    decide +kernel
  have hoff : isSuppressed (spans t) 48 r = true := by
    decide +kernel
  use ho, hoff
  apply (isSuppressed_spans_iff t ho r).mp hoff

end Fettle.Suppression
