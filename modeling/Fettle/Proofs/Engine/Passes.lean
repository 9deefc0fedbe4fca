import Fettle.Engine.Run
import Mathlib.Tactic.Use

/-!
# Fix passes

`Passes active start k t` says that `t` comes out of `start` by `k` fix passes, in each of which
something was to be corrected.  A run of `Engine.formatTimed` goes through these trees and ends
in one of four ways, which `Ends` lists: nothing is left to correct, the limit on fix passes or
on time is reached, or a pass fails.  `ends_settle` says that every run ends in one of them.

What fixes preserve, passes preserve (`Passes.invariant`), and so do runs
(`formatTimed_invariant`).
-/

namespace Fettle

/-! ### A fix pass -/

section Correct

variable {active : List Active} {t u : Tree}

/-- A pass fails with the fix that fails. -/
theorem correct_of_error {failure : FixFailure}
    (h : fixAll active t (detect active t).fixes = .error failure) :
  correct active (detect active t) = .error failure
  := by
  have hall : fixAll active (detect active t).tree (detect active t).fixes = .error failure := h
  rw [correct, hall]

theorem correct_of_ok (h : fixAll active t (detect active t).fixes = .ok u)
    (hu : u.fault? = none) :
  correct active (detect active t) = .ok u
  := by
  have hall : fixAll active (detect active t).tree (detect active t).fixes = .ok u := h
  rw [correct, hall]
  simp only [hu]

/-- A pass that succeeds comes to the tree after its fixes. -/
theorem fixAll_of_correct (h : correct active (detect active t) = .ok u) :
  fixAll active t (detect active t).fixes = .ok u
  := by
  cases hall : fixAll active t (detect active t).fixes with
  | error failure =>
    rw [correct_of_error hall] at h
    cases h
  | ok v =>
    have hall' : fixAll active (detect active t).tree (detect active t).fixes = .ok v := hall
    simp only [correct, hall'] at h
    split at h
    · cases h
    · rw [Except.ok.inj h]

end Correct

/-- A tree comes out of another by a number of fix passes. -/
inductive Passes (active : List Active) (start : Tree) : Nat → Tree → Prop where
  | none : Passes active start 0 start
  | pass {k : Nat} {t t' : Tree} (before : Passes active start k t)
      (correctable : (detect active t).correctable ≠ [])
      (corrected : correct active (detect active t) = .ok t') :
      Passes active start (k + 1) t'

namespace Passes

variable {active : List Active} {start t t' : Tree} {k : Nat}

/-- Fix passes come to one tree. -/
theorem unique (h : Passes active start k t) (h' : Passes active start k t') :
  t = t'
  := by
  induction h generalizing t' with
  | none =>
    cases h'
    rfl
  | pass before _ corrected ih =>
    cases h' with
    | pass before' _ corrected' =>
      obtain rfl := ih before'
      rw [corrected] at corrected'
      apply Except.ok.inj corrected'

/-- The tree before an earlier one of some fix passes. -/
theorem exists_pass (h : Passes active start k t) {j : Nat} (hj : j < k) :
  ∃ u v, Passes active start j u ∧ (detect active u).correctable ≠ []
    ∧ correct active (detect active u) = .ok v
  := by
  induction h with
  | none => omega
  | @pass k u v before correctable corrected ih =>
    rcases Nat.lt_succ_iff_lt_or_eq.mp hj with hj | rfl
    · apply ih hj
    · use u, v

/-- No passes follow one that fails. -/
theorem le_of_failed (h : Passes active start k t) {failure : FixFailure}
    (hfailed : correct active (detect active t) = .error failure) {j : Nat}
    (h' : Passes active start j t') :
  j ≤ k
  := by
  apply Nat.not_lt.mp
  intro hj
  obtain ⟨u, v, hu, -, hv⟩ := h'.exists_pass hj
  obtain rfl := h.unique hu
  rw [hfailed] at hv
  cases hv

/-- No passes follow when nothing is left to correct. -/
theorem le_of_settled (h : Passes active start k t)
    (hsettled : (detect active t).correctable = []) {j : Nat}
    (h' : Passes active start j t') :
  j ≤ k
  := by
  apply Nat.not_lt.mp
  intro hj
  obtain ⟨u, v, hu, hsome, -⟩ := h'.exists_pass hj
  obtain rfl := h.unique hu
  apply hsome hsettled

/-- The passes after the first one. -/
theorem tail {start' : Tree} (h : Passes active start (k + 1) t)
    (hstart : correct active (detect active start) = .ok start') :
  Passes active start' k t
  := by
  induction k generalizing t with
  | zero =>
    cases h with
    | pass before _ corrected =>
      cases before
      rw [hstart] at corrected
      obtain rfl := Except.ok.inj corrected
      apply Passes.none
  | succ k ih =>
    cases h with
    | pass before correctable corrected => apply Passes.pass (ih before) correctable corrected

end Passes

/-! ### What is pending -/

theorem mem_sweep {t : Tree} {failed : List RuleId} {vs : List (NodeId × Active)} {p : Pending}
    (h : p ∈ (sweep t failed vs).1) :
  ∃ v ∈ vs, v.1 = p.node ∧ v.2.id = p.ruleId ∧ p.finding ∈ (v.2.inspect t v.1).findings
  := by
  induction vs generalizing failed with
  | nil => cases h
  | cons v vs ih =>
    have hlater {failed : List RuleId} (h : p ∈ (sweep t failed vs).1) :
        ∃ w ∈ v :: vs, w.1 = p.node ∧ w.2.id = p.ruleId
          ∧ p.finding ∈ (w.2.inspect t w.1).findings := by
      obtain ⟨w, hw, hfound⟩ := ih h
      use w, List.mem_cons_of_mem _ hw
    have hnow (h : p ∈ (v.2.inspect t v.1).findings.map (⟨v.1, v.2.id, ·⟩)) :
        ∃ w ∈ v :: vs, w.1 = p.node ∧ w.2.id = p.ruleId
          ∧ p.finding ∈ (w.2.inspect t w.1).findings := by
      obtain ⟨f, hf, rfl⟩ := List.mem_map.mp h
      use v, List.mem_cons_self
    rw [sweep] at h
    split at h
    · apply hlater h
    · cases hfail : (v.2.inspect t v.1).failure with
      | none | some _ =>
        simp only [hfail] at h
        rcases List.mem_append.mp h with h | h
        · apply hnow h
        · apply hlater h

/-- What is pending was found by an active rule at a node of the tree. -/
theorem mem_pending {active : List Active} {t : Tree} {p : Pending}
    (h : p ∈ (detect active t).pending) :
  t.isAttached p.node = true
    ∧ ∃ a ∈ active, a.id = p.ruleId ∧ p.finding ∈ (a.inspect t p.node).findings
  := by
  obtain ⟨⟨n, a⟩, hv, rfl, hid, hfound⟩ := mem_sweep (List.mem_filter.mp h).1
  obtain ⟨m, hm, hpair⟩ := List.mem_flatMap.mp hv
  obtain ⟨b, hb, heq⟩ := List.mem_map.mp hpair
  obtain ⟨rfl, rfl⟩ := Prod.mk.inj heq
  exact ⟨Tree.isAttached_iff.mpr hm, b, hb, hid, hfound⟩

/-! ### The list of fixes -/

theorem mem_of_mem_firstOccurrences {α : Type} [DecidableEq α] {a : α} {seen as : List α}
    (h : a ∈ firstOccurrences seen as) :
  a ∈ as
  := by
  induction as generalizing seen with
  | nil => cases h
  | cons b as ih =>
    rw [firstOccurrences] at h
    split at h
    · apply List.mem_cons_of_mem _ (ih h)
    · rcases List.mem_cons.mp h with rfl | h
      · apply List.mem_cons_self
      · apply List.mem_cons_of_mem _ (ih h)

/-- Each fix of a pass is for something that an active rule has found at the node, that it can
correct and that no directive suppresses. -/
theorem exists_found_of_mem_fixes {active : List Active} {t : Tree} {fix : NodeId × RuleId}
    (h : fix ∈ (detect active t).fixes) :
  t.isAttached fix.1 = true ∧ ∃ a ∈ active, a.id = fix.2
    ∧ ∃ f ∈ (a.inspect t fix.1).findings, f.correctable = true
      ∧ Suppression.isSuppressed (Suppression.spans t) f.offset fix.2 = false
  := by
  obtain ⟨p, hp, rfl⟩ := List.mem_map.mp (mem_of_mem_firstOccurrences h)
  obtain ⟨hpending, hcorrectable⟩ := List.mem_filter.mp hp
  have hshown := (List.mem_filter.mp hpending).2
  rw [Bool.not_eq_true'] at hshown
  obtain ⟨hn, a, ha, hid, hf⟩ := mem_pending hpending
  exact ⟨hn, a, ha, hid, p.finding, hf, hcorrectable, hshown⟩

/-! ### What fixes preserve -/

section

variable {active : List Active} {P : Tree → Prop} {t t' : Tree}

theorem fixOne_preserves {fix : NodeId × RuleId}
    (hfix : ∀ a ∈ active, a.id = fix.2 → ∀ t t', P t → t.isAttached fix.1 = true →
      a.fix t fix.1 = .ok t' → P t')
    (h : P t) (he : fixOne active t fix = .ok t') :
  P t'
  := by
  rw [fixOne] at he
  split at he
  · rename_i hatt
    split at he
    · obtain rfl := Except.ok.inj he
      exact h
    · rename_i a hfind
      have hid := List.find?_some hfind
      rw [decide_eq_true_eq] at hid
      cases hr : a.fix t fix.1 with
      | error fault =>
        rw [hr] at he
        cases he
      | ok u =>
        rw [hr] at he
        obtain rfl := Except.ok.inj he
        apply hfix a (List.mem_of_find?_eq_some hfind) hid t u h hatt hr
  · obtain rfl := Except.ok.inj he
    exact h

/-- What each fix of a list preserves, all of them preserve. -/
theorem fixAll_preserves {fixes : List (NodeId × RuleId)}
    (hfix : ∀ fix ∈ fixes, ∀ a ∈ active, a.id = fix.2 → ∀ t t', P t →
      t.isAttached fix.1 = true → a.fix t fix.1 = .ok t' → P t')
    (h : P t) (he : fixAll active t fixes = .ok t') :
  P t'
  := by
  induction fixes generalizing t with
  | nil =>
    obtain rfl := Except.ok.inj he
    exact h
  | cons fix fixes ih =>
    rw [List.forall_mem_cons] at hfix
    rw [fixAll] at he
    split at he
    · rename_i u hu
      apply ih hfix.2 (fixOne_preserves hfix.1 h hu) he
    · cases he

end

section

variable {active : List Active} {P : Tree → Prop}
  (hfix : ∀ a ∈ active, ∀ t n t', P t → t.isAttached n = true → a.fix t n = .ok t' → P t')

include hfix

theorem fixOne_invariant {t t' : Tree} {fix : NodeId × RuleId} (h : P t)
    (he : fixOne active t fix = .ok t') :
  P t'
  := fixOne_preserves (fun a ha _ t t' => hfix a ha t fix.1 t') h he

theorem fixAll_invariant {t t' : Tree} {fixes : List (NodeId × RuleId)} (h : P t)
    (he : fixAll active t fixes = .ok t') :
  P t'
  := fixAll_preserves (fun fix _ a ha _ t t' => hfix a ha t fix.1 t') h he

theorem correct_invariant {d : Detection} {t : Tree} (h : P d.tree)
    (he : correct active d = .ok t) :
  P t
  := by
  rw [correct] at he
  split at he
  · cases he
  · rename_i u hu
    split at he
    · cases he
    · obtain rfl := Except.ok.inj he
      apply fixAll_invariant hfix h hu

theorem Passes.invariant {start t : Tree} {k : Nat} (h : Passes active start k t)
    (hstart : P start) :
  P t
  := by
  induction h with
  | none => exact hstart
  | pass _ _ corrected ih => apply correct_invariant hfix ih corrected

end

/-! ### How runs end -/

/-- Whether a diagnostic tells that fixing did not come to its end. -/
def Diagnostic.isEnding : Diagnostic → Bool
  | unstable _ _ | timedOut _ | autocorrectAborted _ _ => true
  | _ => false

/-- The ways in which fixing of at most `cap` passes ends, where the diagnostics up to there
tell nothing about it. -/
inductive Ends (e : Engine) (clock : Clock) (active : List Active) (start : Tree) (cap : Nat) :
    Outcome → Prop where
  /-- Nothing is left to correct. -/
  | converged {k : Nat} {t : Tree} {quiet : List Diagnostic}
      (passes : Passes active start k t) (le : k ≤ cap)
      (settled : (detect active t).correctable = [])
      (silent : ∀ d ∈ quiet, d.isEnding = false) :
      Ends e clock active start cap ⟨detect active t, quiet, k + 1, false⟩
  /-- As many fix passes were made as are allowed. -/
  | capped {t : Tree} {quiet : List Diagnostic} (passes : Passes active start cap t)
      (correctable : (detect active t).correctable ≠ [])
      (silent : ∀ d ∈ quiet, d.isEnding = false) :
      Ends e clock active start cap
        ⟨detect active t, quiet ++ unstableDiagnostics (detect active t) cap, cap + 1, true⟩
  /-- The time is up. -/
  | timedOut {k : Nat} {t : Tree} {quiet : List Diagnostic}
      (passes : Passes active start k t) (lt : k < cap)
      (correctable : (detect active t).correctable ≠ [])
      (up : e.isTimeUp (clock k) = true)
      (silent : ∀ d ∈ quiet, d.isEnding = false) :
      Ends e clock active start cap ⟨detect active t, quiet ++ [.timedOut k], k + 1, false⟩
  /-- A pass failed, and the tree is the one from the start. -/
  | aborted {k : Nat} {t : Tree} {quiet : List Diagnostic} {failure : FixFailure}
      (passes : Passes active start k t) (lt : k < cap)
      (correctable : (detect active t).correctable ≠ [])
      (failed : correct active (detect active t) = .error failure)
      (silent : ∀ d ∈ quiet, d.isEnding = false) :
      Ends e clock active start cap
        ⟨detect active start,
          addNew (quiet ++ [.autocorrectAborted (failure.ruleId.map RuleId.text)
            failure.fault.message]) (detect active start).failures, k + 2, false⟩

theorem mem_addNew {d : Diagnostic} {ds es : List Diagnostic} :
  d ∈ addNew ds es ↔ d ∈ ds ∨ d ∈ es
  := by
  induction es generalizing ds with
  | nil => simp [addNew]
  | cons e es ih =>
    rw [addNew, ih]
    split
    · rename_i he
      rw [List.contains_iff_mem] at he
      constructor
      · rintro (h | h)
        · exact .inl h
        · exact .inr (List.mem_cons_of_mem _ h)
      · rintro (h | h)
        · exact .inl h
        · rcases List.mem_cons.mp h with rfl | h
          · exact .inl he
          · exact .inr h
    · simp only [List.mem_append, List.mem_cons, List.not_mem_nil, or_false, or_assoc]

theorem isEnding_of_mem_failures {active : List Active} {t : Tree} {d : Diagnostic}
    (h : d ∈ (detect active t).failures) :
  d.isEnding = false
  := by
  obtain ⟨f, -, rfl⟩ := List.mem_map.mp h
  rfl

/-- Failures of rules tell nothing about the end of fixing. -/
theorem silent_addNew_failures (active : List Active) (t : Tree) {quiet : List Diagnostic}
    (h : ∀ d ∈ quiet, d.isEnding = false) :
  ∀ d ∈ addNew quiet (detect active t).failures, d.isEnding = false
  := by
  intro d hd
  rcases mem_addNew.mp hd with hd | hd
  · apply h d hd
  · apply isEnding_of_mem_failures hd

namespace Engine

/-- Fixing ends in one of the ways of `Ends`. -/
theorem ends_settle (e : Engine) (clock : Clock) {active : List Active} {start t : Tree}
    {left done : Nat} {quiet : List Diagnostic} (h : Passes active start done t)
    (hquiet : ∀ d ∈ quiet, d.isEnding = false) :
  Ends e clock active start (done + left)
    (e.settle clock active start left done (detect active t) quiet)
  := by
  induction left generalizing done t quiet with
  | zero =>
    rw [settle]
    split
    · rename_i hnone
      apply Ends.converged h (Nat.le_refl _) (List.isEmpty_iff.mp hnone) hquiet
    · rename_i hsome
      apply Ends.capped h _ hquiet
      rwa [List.isEmpty_iff] at hsome
  | succ left ih =>
    rw [settle]
    split
    · rename_i hnone
      apply Ends.converged h (Nat.le_add_right _ _) (List.isEmpty_iff.mp hnone) hquiet
    · rename_i hsome
      rw [List.isEmpty_iff] at hsome
      split
      · rename_i hup
        apply Ends.timedOut h (by omega) hsome hup hquiet
      · split
        · rename_i u hu
          have hrest := ih (Passes.pass h hsome hu) (silent_addNew_failures active u hquiet)
          rw [Nat.add_assoc, Nat.add_comm 1] at hrest
          apply hrest
        · rename_i failure hfailure
          apply Ends.aborted h (by omega) hsome hfailure hquiet

/-- The diagnostics of rules that do not run tell of a property or of a rule that is missing. -/
theorem of_mem_activate {P : Diagnostic → Prop}
    (hproperty : ∀ id fault, P (.ofProperty id fault))
    (hmissing : ∀ id required, P (.missingRequiredRule id required))
    {e : Engine} {scope : Scope} {d : Diagnostic} (h : d ∈ (e.activate scope).2) :
  P d
  := by
  have hconfigure (rules : List Registered) (r : Resolver) :
      ∀ d ∈ (Activation.configure scope r rules).2, P d := by
    induction rules generalizing r with
    | nil => simp [Activation.configure]
    | cons a rules ih =>
      intro d hd
      rw [Activation.configure] at hd
      split at hd
      · apply ih r d hd
      · rcases List.mem_cons.mp hd with rfl | hd
        · apply hproperty
        · apply ih r d hd
      · split at hd
        · apply ih _ d hd
        · rcases List.mem_cons.mp hd with rfl | hd
          · apply hproperty
          · apply ih _ d hd
  have hprune (n : Nat) (active : List Active) :
      ∀ d ∈ (Activation.prune n active).2, P d := by
    induction n generalizing active with
    | zero => simp [Activation.prune]
    | succ n ih =>
      intro d hd
      rw [Activation.prune] at hd
      split at hd
      · cases hd
      · rcases List.mem_cons.mp hd with rfl | hd
        · apply hmissing
        · apply ih _ d hd
  rcases List.mem_append.mp h with h | h
  · apply hconfigure _ _ d h
  · apply hprune _ _ d h

/-- The diagnostics of rules that do not run tell nothing about the end of fixing. -/
theorem isEnding_of_mem_activate {e : Engine} {scope : Scope} {d : Diagnostic}
    (h : d ∈ (e.activate scope).2) :
  d.isEnding = false
  := by
  apply of_mem_activate (P := fun d => d.isEnding = false) _ _ h
  · intro id fault
    cases fault
    · rfl
    · rfl
  · intro id required
    rfl

/-- How the fixing of a tree ends. -/
def outcome (e : Engine) (clock : Clock) (t : Tree) (scope : Scope) : Outcome :=
  e.settle clock (e.activate scope).1 t e.maxPasses 0 (detect (e.activate scope).1 t)
    (addNew (e.activate scope).2 (detect (e.activate scope).1 t).failures)

theorem formatTimed_eq (e : Engine) (clock : Clock) (t : Tree) (scope : Scope) :
  e.formatTimed clock t scope
    = ({ path := none
         violations := (e.outcome clock t scope).detection.violations
           (e.outcome clock t scope).unstable
         diagnostics := (e.outcome clock t scope).diagnostics
           ++ (e.outcome clock t scope).detection.misplaced
         formatted := some (e.outcome clock t scope).detection.tree.text
         passes := (e.outcome clock t scope).passes },
       (e.outcome clock t scope).detection.tree)
  := rfl

theorem ends_outcome (e : Engine) (clock : Clock) (t : Tree) (scope : Scope) :
  Ends e clock (e.activate scope).1 t e.maxPasses (e.outcome clock t scope)
  := by
  rw [← Nat.zero_add e.maxPasses]
  apply ends_settle e clock Passes.none
  apply silent_addNew_failures
  intro d hd
  apply isEnding_of_mem_activate hd

end Engine

namespace Ends

variable {e : Engine} {clock : Clock} {active : List Active} {start : Tree} {cap : Nat}
  {o : Outcome}

/-- The last detection is that of the tree of the outcome. -/
theorem detection_eq (h : Ends e clock active start cap o) :
  o.detection = detect active o.detection.tree
  := by
  cases h <;> rfl

/-- The tree of the outcome is one of those that the passes go through. -/
theorem exists_passes (h : Ends e clock active start cap o) :
  ∃ k ≤ cap, Passes active start k o.detection.tree
  := by
  cases h with
  | @converged k t quiet passes le _ _ => exact ⟨k, le, passes⟩
  | capped passes _ _ => exact ⟨cap, Nat.le_refl _, passes⟩
  | @timedOut k t quiet passes lt _ _ _ => exact ⟨k, Nat.le_of_lt lt, passes⟩
  | aborted _ _ _ _ _ => exact ⟨0, Nat.zero_le _, .none⟩

/-- An unstable outcome comes after as many passes as are allowed, and more are needed. -/
theorem passes_of_unstable (h : Ends e clock active start cap o) (hu : o.unstable = true) :
  Passes active start cap o.detection.tree ∧ o.detection.correctable ≠ []
  := by
  cases h with
  | converged _ _ _ _ => cases hu
  | capped passes correctable _ => exact ⟨passes, correctable⟩
  | timedOut _ _ _ _ _ => cases hu
  | aborted _ _ _ _ _ => cases hu

end Ends

/-- Runs preserve what the fixes of the active rules preserve. -/
theorem formatTimed_invariant {e : Engine} {scope : Scope} {P : Tree → Prop}
    (hfix : ∀ a ∈ (e.activate scope).1, ∀ t n t', P t → t.isAttached n = true →
      a.fix t n = .ok t' → P t')
    (clock : Clock) {t : Tree} (h : P t) :
  P (e.formatTimed clock t scope).2
  := by
  obtain ⟨k, -, hk⟩ := (e.ends_outcome clock t scope).exists_passes
  rw [Engine.formatTimed_eq]
  apply hk.invariant hfix h

end Fettle
