import Fettle.Proofs.Engine.Placing
import Fettle.Proofs.Engine.Stable
import Fettle.Proofs.Rules.Findings
import Fettle.Proofs.Rules.Orderly
import Fettle.Proofs.Rules.Success

/-!
# Runs that do not fail

Active rules are `Unfailing` on trees with some property if they never give up on such a tree, if
their fixes of it succeed, and if what comes of a fix has the property again.  No diagnostic of a
run with such rules then tells of a failure (`Unfailing.lint`, `Unfailing.formatTimed`).

The standard rules are unfailing on sound trees whose comments begin as comments do, since what
is left of such a comment is never empty: `unfailing_standard`.
-/

namespace Fettle

/-- Whether a diagnostic tells of a rule that failed, be it in looking or in fixing. -/
def Diagnostic.isFailure : Diagnostic → Bool
  | ruleFailed _ _ | autocorrectAborted _ _ => true
  | _ => false

theorem Engine.isFailure_of_mem_activate {e : Engine} {scope : Scope} {d : Diagnostic}
    (h : d ∈ (e.activate scope).2) :
  d.isFailure = false
  := by
  apply of_mem_activate (P := fun d => d.isFailure = false) _ _ h
  · intro id fault
    cases fault <;> rfl
  · intro id required
    rfl

theorem Detection.isFailure_of_mem_misplaced {d : Detection} {m : Diagnostic}
    (h : m ∈ d.misplaced) :
  m.isFailure = false
  := by
  obtain ⟨id, message, rfl⟩ := exists_of_mem_misplaced h
  rfl

theorem isFailure_of_mem_unstableDiagnostics {d : Detection} {n : Nat} {m : Diagnostic}
    (h : m ∈ unstableDiagnostics d n) :
  m.isFailure = false
  := by
  obtain ⟨id, -, rfl⟩ := List.mem_map.mp h
  rfl

/-- Rules that do not fail on trees with a property, which their fixes preserve. -/
structure Unfailing (active : List Active) (P : Tree → Prop) : Prop where
  looks : ∀ a ∈ active, ∀ t n, (a.inspect t n).failure = none
  succeeds : ∀ a ∈ active, ∀ t n, P t → t.isAttached n = true → ∃ t', a.fix t n = .ok t'
  keeps : ∀ a ∈ active, ∀ t n t', P t → t.isAttached n = true → a.fix t n = .ok t' → P t'
  intact : ∀ t, P t → t.fault? = none

namespace Unfailing

variable {active : List Active} {P : Tree → Prop}

theorem failures_eq_nil (h : Unfailing active P) (t : Tree) :
  (detect active t).failures = []
  := by
  have hvisits : ∀ v ∈ visits t active, (v.2.inspect t v.1).failure = none := by
    intro v hv
    obtain ⟨n, -, hmem⟩ := List.mem_flatMap.mp hv
    obtain ⟨a, ha, rfl⟩ := List.mem_map.mp hmem
    apply h.looks a ha
  have hfailures : (detect active t).failures
      = failureDiagnostics (sweep t [] (visits t active)).2 := rfl
  rw [hfailures, sweep_of_failure_eq_none hvisits, failureDiagnostics, List.mergeSort_nil]
  rfl

/-- After any fixes, every fix succeeds. -/
theorem exists_fix_after (h : Unfailing active P) {t : Tree} (ht : P t)
    (fixes : List (NodeId × RuleId)) :
  ∃ u, fixAll active t fixes = .ok u
    ∧ ∀ a ∈ active, ∀ n, u.isAttached n = true → ∃ v, a.fix u n = .ok v
  := by
  obtain ⟨u, hu⟩ := exists_fixAll h.keeps h.succeeds fixes ht
  use u, hu
  intro a ha n hn
  apply h.succeeds a ha u n (fixAll_invariant h.keeps ht hu) hn

/-- No pass fails. -/
theorem settle (h : Unfailing active P) {e : Engine} {clock : Clock} {start t : Tree} (ht : P t)
    {left done : Nat} {quiet : List Diagnostic} (hquiet : ∀ d ∈ quiet, d.isFailure = false) :
  ∀ d ∈ (e.settle clock active start left done (detect active t) quiet).diagnostics,
    d.isFailure = false
  := by
  induction left generalizing done t quiet with
  | zero =>
    rw [Engine.settle]
    split
    · exact hquiet
    · intro d hd
      rcases List.mem_append.mp hd with hd | hd
      · apply hquiet d hd
      · apply isFailure_of_mem_unstableDiagnostics hd
  | succ left ih =>
    obtain ⟨u, hu⟩ := exists_correct h.keeps h.succeeds h.intact ht
    rw [Engine.settle, hu]
    split
    · exact hquiet
    · split
      · intro d hd
        rcases List.mem_append.mp hd with hd | hd
        · apply hquiet d hd
        · obtain rfl := List.mem_singleton.mp hd
          rfl
      · apply ih (correct_invariant h.keeps ht hu)
        rw [h.failures_eq_nil]
        exact hquiet

variable {e : Engine} {scope : Scope} (h : Unfailing (e.activate scope).1 P)

include h

theorem lint (t : Tree) :
  ∀ d ∈ (e.lint t scope).diagnostics, d.isFailure = false
  := by
  have hlint : (e.lint t scope).diagnostics
      = addNew (e.activate scope).2 (detect (e.activate scope).1 t).failures
        ++ (detect (e.activate scope).1 t).misplaced := rfl
  rw [hlint, h.failures_eq_nil]
  intro d hd
  rcases List.mem_append.mp hd with hd | hd
  · apply Engine.isFailure_of_mem_activate hd
  · apply Detection.isFailure_of_mem_misplaced hd

theorem formatTimed {t : Tree} (ht : P t) (clock : Clock) :
  ∀ d ∈ (e.formatTimed clock t scope).1.diagnostics, d.isFailure = false
  := by
  rw [Engine.formatTimed_eq]
  intro d hd
  rcases List.mem_append.mp hd with hd | hd
  · apply h.settle ht _ d hd
    rw [h.failures_eq_nil]
    intro d hd
    apply Engine.isFailure_of_mem_activate hd
  · apply Detection.isFailure_of_mem_misplaced hd

end Unfailing

/-! ### The standard rules -/

/-- The standard rules do not fail on trees whose comments begin as comments do. -/
theorem unfailing_standard {e : Engine} {scope : Scope} (he : e.rules = standardOrder) :
  Unfailing (e.activate scope).1 fun t => t.Sound ∧ Marked t.leaves
  := by
  constructor
  · intro a ha t n
    apply failure_inspect (rule_mem_of_mem_active he a ha)
  · rintro a ha t n ⟨hsound, hmarked⟩ hn
    apply exists_fix (rule_mem_of_mem_active he a ha) hsound hn
    intro l hl hcomment
    apply (hmarked l hl hcomment).exists_nonblank
  · rintro a ha t n t' ⟨hsound, hmarked⟩ hn hfix
    obtain ⟨hsound', hrewrite | ⟨rfl, -⟩⟩ := Active.fixSound he ha hsound hn hfix
    · exact ⟨hsound', hrewrite.marked hmarked⟩
    · exact ⟨hsound', hmarked⟩
  · rintro t ⟨hsound, -⟩
    apply hsound.fault?_eq_none

/-- Neither linting nor formatting tells of a failure, if the comments of the document begin as
comments do, however many fix passes are allowed.  After any number of passes and any further
fixes, every fix of an active rule at a node of the tree succeeds. -/
theorem unfailing_formatTimed {es : List Event} {t : Tree} (ht : Tree.ofEvents es = .ok t)
    (hmarked : Marked t.leaves) (config : Config) (scope : Scope) (clock : Clock) :
  ∃ e, Kotlin.standardEngine config = .ok e
    ∧ (∀ d ∈ (e.lint t scope).diagnostics, d.isFailure = false)
    ∧ (∀ cap, ∀ d ∈ (({ e with maxPasses := cap } : Engine).formatTimed clock t scope).1.diagnostics,
      d.isFailure = false)
    ∧ ∀ k u, Passes (e.activate scope).1 t k u → ∀ fixes, ∃ v,
      fixAll (e.activate scope).1 u fixes = .ok v
      ∧ ∀ a ∈ (e.activate scope).1, ∀ n, v.isAttached n = true → ∃ w, a.fix v n = .ok w
  := by
  let e : Engine := ⟨standardOrder, max config.maxPasses 1, config.timeout⟩
  have hstart : t.Sound ∧ Marked t.leaves := ⟨Tree.Sound.ofEvents ht, hmarked⟩
  have hunfailing : Unfailing (e.activate scope).1 fun t => t.Sound ∧ Marked t.leaves :=
    unfailing_standard rfl
  refine ⟨e, standardEngine_eq config, hunfailing.lint t, ?_, ?_⟩
  · intro cap
    exact (unfailing_standard rfl).formatTimed hstart clock
  · intro k u hu fixes
    apply hunfailing.exists_fix_after (hu.invariant hunfailing.keeps hstart)

/-- Two comments and code share a line, and blanks are at its end. -/
theorem unfailing_formatTimed_comments :
  let es : List Event := [.start .file none, .token .blockComment "/* a */",
    .token .identifier "x", .token .blockComment "/* b */", .token .whitespace "  \n", .finish]
  let t : Tree := .ofRoot .file none (.leaf () .blockComment "/* a */"
    (.leaf () .identifier "x" (.leaf () .blockComment "/* b */"
      (.leaf () .whitespace "  \n" .nil))))
  Tree.ofEvents es = .ok t ∧ Marked t.leaves ∧ ∃ e, Kotlin.standardEngine .empty = .ok e
    ∧ (∀ d ∈ (e.lint t .empty).diagnostics, d.isFailure = false)
    ∧ (∀ cap, ∀ d ∈ (({ e with maxPasses := cap } : Engine).formatTimed .stopped t
      .empty).1.diagnostics, d.isFailure = false)
    ∧ ∀ k u, Passes (e.activate .empty).1 t k u → ∀ fixes, ∃ v,
      fixAll (e.activate .empty).1 u fixes = .ok v
      ∧ ∀ a ∈ (e.activate .empty).1, ∀ n, v.isAttached n = true → ∃ w, a.fix v n = .ok w
  := by
  intro es t
  have ht : Tree.ofEvents es = .ok t := by
    rfl
  have hleaves : t.leaves = [⟨1, .blockComment, "/* a */"⟩, ⟨2, .identifier, "x"⟩,
      ⟨3, .blockComment, "/* b */"⟩, ⟨4, .whitespace, "  \n"⟩] := rfl
  have hmarked : Marked t.leaves := by
    rw [hleaves]
    simp [Marked, AllComments, Kind.isComment, BeginsComment]
  use ht, hmarked
  apply unfailing_formatTimed ht hmarked

end Fettle
