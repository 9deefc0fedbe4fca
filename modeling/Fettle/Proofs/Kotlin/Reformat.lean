import Fettle.Proofs.Engine.Stable
import Fettle.Proofs.Kotlin.Verdicts
import Fettle.Proofs.Tree.Intact

/-!
# Formatting formatted source

Fixes of the standard rules never fail in a tree with legible leaves, so fixing such a tree ends
with nothing left to correct, if it does not reach the limit on fix passes
(`Kotlin.settled_of_stable`).  When the text of such a tree is read again, its leaves may be cut
in other places, but the findings and what is suppressed are the same
(`Kotlin.violations_of_reread`).  So Kotlin source that has been formatted is formatted, whatever
reads it (`Kotlin.formatWith_formatWith`).
-/

namespace Fettle

namespace Kotlin

/-! ### Fixes of legible leaves -/

/-- White space in a sound tree is white space. -/
theorem space_of_sound {t : Tree} (h : t.Sound) :
  ∀ l ∈ t.leaves, l.kind = .whitespace →
    l.text ≠ "" ∧ ∀ c ∈ l.text.toList, Text.isBlank c = true
  := by
  intro l hl hkind
  obtain ⟨a, b, hab⟩ := List.append_of_mem hl
  have hfault := leafFault?_eq_none_iff.mp (h.leafFault?_leaf hab)
  use hfault.2.1
  apply List.all_eq_true.mp (hfault.2.2 hkind)

section

variable {e : Engine} (he : e.rules = standardOrder) {scope : Scope}

include he

/-- Fixes leave legible leaves legible. -/
theorem legible_of_fix :
  ∀ a ∈ (e.activate scope).1, ∀ t n t', t.Sound ∧ Legible t.leaves → t.isAttached n = true →
    a.fix t n = .ok t' → t'.Sound ∧ Legible t'.leaves
  := by
  rintro a ha t n t' ⟨ht, hl⟩ hn hfix
  obtain ⟨ht', hrewrite | ⟨rfl, -⟩⟩ := Active.fixSound he ha ht hn hfix
  · exact ⟨ht', hrewrite.legible hl ht.text_ne_empty (space_of_sound ht')⟩
  · exact ⟨ht', hl⟩

/-- Fixes of legible leaves succeed. -/
theorem exists_fix_of_legible :
  ∀ a ∈ (e.activate scope).1, ∀ t n, t.Sound ∧ Legible t.leaves → t.isAttached n = true →
    ∃ t', a.fix t n = .ok t'
  := by
  rintro a ha t n ⟨ht, hl⟩ hn
  apply exists_fix (rule_mem_of_mem_active he a ha) (s := a.site t n) ht hn
  apply hl.exists_nonblank

variable (clock : Clock) {t : Tree} (h : t.Sound ∧ Legible t.leaves)

include h

theorem legible_formatTimed :
  (e.formatTimed clock t scope).2.Sound ∧ Legible (e.formatTimed clock t scope).2.leaves
  := formatTimed_invariant (P := fun t => t.Sound ∧ Legible t.leaves) (legible_of_fix he) clock h

/-- Fixing a tree with legible leaves settles everything if it is not unstable. -/
theorem settled_of_stable (htimeout : e.timeout = none)
    (hstable : (e.formatTimed clock t scope).1.isUnstable = false) :
  (detect (e.activate scope).1 (e.formatTimed clock t scope).2).correctable = []
  := by
  have hends := e.ends_outcome clock t scope
  rw [Engine.isUnstable_format] at hstable
  rw [Engine.formatTimed_eq, ← hends.detection_eq]
  apply hends.settled_of_stable (P := fun t => t.Sound ∧ Legible t.leaves) (legible_of_fix he)
    (exists_fix_of_legible he) _ htimeout h hstable
  rintro u ⟨hu, -⟩
  apply hu.fault?_eq_none

end

/-! ### Reading again -/

section

variable {active : List Active} (hactive : ∀ a ∈ active, a.rule.rule ∈ Preset.standard.rules)
  {t u : Tree} (ht : t.Sound) (hu : u.Sound) (hread : Reread t.leaves u.leaves)
  (htext : t.text = u.text) (hsettled : (detect active t).correctable = [])

include hactive ht hu hread htext hsettled

/-- In the leaves that are read again the same is pending where nothing can be corrected. -/
theorem pending_of_reread :
  (detect active u).pending.map Pending.atRoot = (detect active t).pending.map Pending.atRoot
  := by
  have hmatches := matches_of_reread hactive ht hu hread Alike.nil rfl rfl
  have hspans := spans_of_reread hread htext
  rw [Detection.correctable_eq_nil_iff] at hsettled
  rw [pending_detect hactive ht] at hsettled ⊢
  rw [pending_detect hactive hu, ← hspans]
  apply hmatches.filter_eq _ hsettled
  intro p q hrule hoffset
  rw [hrule, hoffset]

theorem correctable_of_reread :
  (detect active u).correctable = []
  := by
  rw [Detection.correctable_eq_nil_iff,
    pending_of_reread hactive ht hu hread htext hsettled, ← Detection.correctable_eq_nil_iff]
  exact hsettled

theorem violations_of_reread (unstable : Bool) :
  (detect active u).violations unstable = (detect active t).violations unstable
  := Detection.violations_congr htext.symm
    (pending_of_reread hactive ht hu hread htext hsettled) unstable

end

/-! ### Sources -/

/-- The report on one source after fixing, where a reader makes the trees of sources.  What
`formatSource` reads with is `parse?`. -/
def formatWith (read : String → Option Tree) (c : Config) (text : String) :
    Except SourceFault FileReport := do
  let e ← (standardEngine c).mapError .registration
  let t ← (read text).elim (.error (.notKotlin none)) .ok
  return (e.run .format t c.globalScope).1

theorem formatSource_eq_formatWith :
  formatSource = formatWith parse?
  := by
  have hread (text : String) :
      readSource none text = (parse? text).elim (.error (.notKotlin none)) .ok := by
    rw [readSource]
    cases parse? text <;> rfl
  funext c text
  rw [formatSource, runSource, hread]
  rfl

section

variable {read : String → Option Tree} (hread : Reads read)

include hread

/-- The text of a tree in which fixing has settled everything is formatted: reading it again and
fixing what is read changes nothing, takes one detection, and finds the same. -/
theorem formatTimed_of_read {e : Engine} (he : e.rules = standardOrder)
    (htimeout : e.timeout = none) {scope : Scope} (clock : Clock) {t : Tree}
    (h : t.Sound ∧ Legible t.leaves)
    (hstable : (e.formatTimed clock t scope).1.isUnstable = false) {u : Tree}
    (hu : read (e.formatTimed clock t scope).2.text = some u) (clock' : Clock) :
  (e.formatTimed clock' u scope).1.formatted = some (e.formatTimed clock t scope).2.text
    ∧ (e.formatTimed clock' u scope).1.passes = 1
    ∧ (e.formatTimed clock' u scope).1.violations = (e.formatTimed clock t scope).1.violations
  := by
  obtain ⟨hsound, hlegible⟩ : (e.formatTimed clock t scope).2.Sound
      ∧ Legible (e.formatTimed clock t scope).2.leaves := legible_formatTimed he clock h
  have husound := hread.sound _ u hu
  have hutext := hread.text_eq hu
  have hreread := hread.reread hlegible hu
  have hsettled := settled_of_stable he clock h htimeout hstable
  have hactive : ∀ a ∈ (e.activate scope).1, a.rule.rule ∈ Preset.standard.rules :=
    rule_mem_of_mem_active he
  have hagain := correctable_of_reread hactive hsound husound hreread hutext.symm hsettled
  have hviolations := violations_of_reread hactive hsound husound hreread hutext.symm hsettled
  rw [Engine.isUnstable_format] at hstable
  have hfirst : (e.formatTimed clock t scope).1.violations
      = (detect (e.activate scope).1 (e.formatTimed clock t scope).2).violations false := by
    rw [← hstable, Engine.formatTimed_eq, ← (e.ends_outcome clock t scope).detection_eq]
  rw [hfirst, ← hviolations false, Engine.formatTimed_eq e clock' u scope,
    Engine.outcome_of_settled hagain]
  refine ⟨?_, rfl, rfl⟩
  rw [← hutext]
  rfl

omit hread in
/-- Source that is Kotlin is formatted by the engine of the standard rules. -/
theorem formatWith_eq (c : Config) {text : String} {t : Tree} (h : read text = some t) :
  formatWith read c text
    = .ok (Engine.formatTimed ⟨standardOrder, max c.maxPasses 1, c.timeout⟩ .stopped t
        c.globalScope).1
  := by
  rw [formatWith, standardEngine_eq, h]
  rfl

/-- With the default configuration, Kotlin source that has been formatted is formatted: if fixing
is not unstable and its result is Kotlin source, then formatting the result returns it as it is,
after one detection and with the same violations. -/
theorem formatWith_formatWith {text : String} (h : (read text).isSome = true) :
  ∃ r out, formatWith read .empty text = .ok r ∧ r.formatted = some out
    ∧ (r.isUnstable = false → (read out).isSome = true →
      ∃ r', formatWith read .empty out = .ok r' ∧ r'.formatted = some out ∧ r'.passes = 1
        ∧ r'.violations = r.violations)
  := by
  obtain ⟨t, ht⟩ := Option.isSome_iff_exists.mp h
  refine ⟨_, _, formatWith_eq .empty ht, rfl, ?_⟩
  intro hstable hparse
  obtain ⟨u, hu⟩ := Option.isSome_iff_exists.mp hparse
  refine ⟨_, formatWith_eq .empty hu, ?_⟩
  exact formatTimed_of_read hread rfl rfl .stopped ⟨hread.sound _ t ht, hread.legible ht⟩ hstable
    hu .stopped

end

/-- A comment after code, in front of blanks and a carriage return that are a part of it when it
is read again. -/
theorem formatWith_formatWith_wrapped :
  Reads parse? ∧ (parse? "x /* a */ \r\ny").isSome = true ∧
    ∃ r r', formatSource .empty "x /* a */ \r\ny" = .ok r ∧ r.formatted = some "x // a\r\ny"
      ∧ formatSource .empty "x // a\r\ny" = .ok r' ∧ r'.formatted = some "x // a\r\ny"
      ∧ r'.passes = 1 ∧ r'.violations = r.violations
  := by
  have hparse : (parse? "x /* a */ \r\ny").isSome = true := by
    decide +kernel
  have hfirst : formatSource .empty "x /* a */ \r\ny"
      = .ok ⟨none, [], [], some "x // a\r\ny", 2⟩ := by
    decide +kernel
  have hparse' : (parse? "x // a\r\ny").isSome = true := by
    decide +kernel
  use reads_parse?, hparse
  obtain ⟨r, out, hr, hout, hagain⟩ := formatWith_formatWith reads_parse? hparse
  rw [← formatSource_eq_formatWith] at hr hagain
  obtain rfl := Except.ok.inj (hfirst.symm.trans hr)
  obtain rfl := Option.some.inj hout
  obtain ⟨r', hr', hformatted, hpasses, hviolations⟩ := hagain rfl hparse'
  exact ⟨_, r', hfirst, rfl, hr', hformatted, hpasses, hviolations⟩

end Kotlin

end Fettle
