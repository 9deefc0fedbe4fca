import Fettle.Proofs.Engine.Reporting

/-!
# The limit on fix passes

Of the fix passes that the limit allows, a run without a limit on time makes as many as there are
(`Completes`): it stops where nothing is left to correct, where a pass fails or where the limit is
reached.  The report counts the detections, of which there is one before the first pass, one after
each pass that was completed, and one more when fixing was given up (`Ends.completes`).

The limit shows only where it was reached with something left to correct, and the report then
tells so.  A run that is not cut short by it is the same with any higher one
(`Engine.settle_of_stable`).  `formatTimed_limit` puts the two together.
-/

namespace Fettle

/-- Whether a diagnostic tells that fixing was given up. -/
def Diagnostic.isAborted : Diagnostic → Bool
  | autocorrectAborted _ _ => true
  | _ => false

/-- Whether fixing was given up. -/
def FileReport.isAborted (r : FileReport) : Bool :=
  r.diagnostics.any Diagnostic.isAborted

/-- Of at most `cap` fix passes there are `k`, and they come to the tree `u`. -/
structure Completes (active : List Active) (start : Tree) (cap k : Nat) (u : Tree) : Prop where
  passes : Passes active start k u
  le : k ≤ cap
  most : ∀ j v, Passes active start j v → j ≤ cap → j ≤ k

/-- A fix pass over a tree, in which something is to be corrected, fails. -/
def PassFails (active : List Active) (u : Tree) : Prop :=
  (detect active u).correctable ≠ []
    ∧ ∃ failure, correct active (detect active u) = .error failure

/-! ### Giving up -/

theorem isAborted_of_isEnding {d : Diagnostic} (h : d.isEnding = false) :
  d.isAborted = false
  := by
  cases d <;> first | rfl | cases h

/-- A report tells that fixing was given up exactly if its outcome does. -/
theorem Engine.isAborted_formatTimed (e : Engine) (clock : Clock) (t : Tree) (scope : Scope) :
  (e.formatTimed clock t scope).1.isAborted
    = (e.outcome clock t scope).diagnostics.any Diagnostic.isAborted
  := by
  have hmisplaced : (e.outcome clock t scope).detection.misplaced.any Diagnostic.isAborted
      = false := by
    rw [List.any_eq_false]
    intro g hg
    obtain ⟨id, m, rfl⟩ := Detection.exists_of_mem_misplaced hg
    exact Bool.false_ne_true
  rw [FileReport.isAborted, formatTimed_eq, List.any_append, hmisplaced, Bool.or_false]

/-! ### The passes of a run -/

/-- A run without a limit on time makes as many fix passes as there are below the limit on them.
What it comes to and how it counts depends on whether one more was tried and failed. -/
theorem Ends.completes {e : Engine} {clock : Clock} {active : List Active} {start : Tree}
    {cap : Nat} {o : Outcome} (h : Ends e clock active start cap o) (he : e.timeout = none) :
  ∃ k u, Completes active start cap k u
    ∧ o.passes = k + 1 + (if o.diagnostics.any Diagnostic.isAborted then 1 else 0)
    ∧ (o.diagnostics.any Diagnostic.isAborted = true ↔ k < cap ∧ PassFails active u)
    ∧ o.detection.tree = (if o.diagnostics.any Diagnostic.isAborted then start else u)
    ∧ (o.unstable = true ↔ k = cap ∧ (detect active u).correctable ≠ [])
  := by
  have hquiet {quiet : List Diagnostic} (hs : ∀ d ∈ quiet, d.isEnding = false) :
      quiet.any Diagnostic.isAborted = false := by
    rw [List.any_eq_false]
    intro d hd
    rw [isAborted_of_isEnding (hs d hd)]
    exact Bool.false_ne_true
  have htree (t : Tree) : (detect active t).tree = t := rfl
  cases h with
  | @converged k t quiet passes le settled silent =>
    refine ⟨k, t, ⟨passes, le, fun j v hv _ => passes.le_of_settled settled hv⟩, ?_⟩
    simp only [hquiet silent, settled, PassFails, htree]
    simp
  | @capped t quiet passes correctable silent =>
    refine ⟨cap, t, ⟨passes, Nat.le_refl _, fun _ _ _ hj => hj⟩, ?_⟩
    have hunstable : (unstableDiagnostics (detect active t) cap).any Diagnostic.isAborted
        = false := by
      rw [List.any_eq_false]
      intro g hg
      obtain ⟨p, -, rfl⟩ := mem_unstableDiagnostics.mp hg
      exact Bool.false_ne_true
    simp only [List.any_append, hquiet silent, hunstable, htree]
    simp [correctable]
  | timedOut _ _ _ up _ =>
    rw [Engine.isTimeUp, he] at up
    cases up
  | @aborted k t quiet failure passes lt correctable failed silent =>
    refine ⟨k, t, ⟨passes, Nat.le_of_lt lt, fun j v hv _ => passes.le_of_failed failed hv⟩, ?_⟩
    have haborted : (addNew (quiet ++ [.autocorrectAborted (failure.ruleId.map RuleId.text)
        failure.fault.message]) (detect active start).failures).any Diagnostic.isAborted
        = true := by
      rw [List.any_eq_true]
      use .autocorrectAborted (failure.ruleId.map RuleId.text) failure.fault.message
      constructor
      · apply mem_addNew.mpr
        left
        apply List.mem_append_right _ (List.mem_singleton_self _)
      · rfl
    have hfails : PassFails active t := ⟨correctable, failure, failed⟩
    simp only [haborted, htree]
    simp [lt, Nat.ne_of_lt lt, hfails]

/-! ### A higher limit -/

/-- A run that is not cut short by the limit on fix passes is the same with a higher one. -/
theorem Engine.settle_of_stable {e e' : Engine} (he : e'.timeout = e.timeout) {clock : Clock}
    {active : List Active} {start : Tree} {left left' done : Nat} {d : Detection}
    {diagnostics : List Diagnostic} (hle : left ≤ left')
    (hstable : (e.settle clock active start left done d diagnostics).unstable = false) :
  e'.settle clock active start left' done d diagnostics
    = e.settle clock active start left done d diagnostics
  := by
  have hup (n : Nat) : e'.isTimeUp n = e.isTimeUp n := by
    rw [isTimeUp, isTimeUp, he]
  induction left generalizing left' done d diagnostics with
  | zero =>
    by_cases hnone : d.correctable.isEmpty = true
    · rw [settle.eq_def, settle.eq_def, if_pos hnone, if_pos hnone]
    · rw [settle, if_neg hnone] at hstable
      cases hstable
  | succ left ih =>
    obtain ⟨left', rfl⟩ : ∃ n, left' = n + 1 := ⟨left' - 1, by omega⟩
    rw [settle] at hstable
    rw [settle, settle, hup]
    split
    · rfl
    · rename_i hsome
      rw [if_neg hsome] at hstable
      split
      · rfl
      · rename_i hnot
        rw [if_neg hnot] at hstable
        cases hcorrect : correct active d with
        | error failure => rfl
        | ok u =>
          rw [hcorrect] at hstable
          apply ih (Nat.le_of_succ_le_succ hle) hstable

/-- A run without a limit on time makes the fix passes that there are below the limit on them.  The
report counts one detection more than them, and two more if the next pass failed; then the tree is
the given one, and otherwise that after the passes.  Fixing is reported as not settled exactly if
all passes that are allowed were made and something is left to correct.  If it is not so reported,
the report and the tree are the same with any higher limit. -/
theorem formatTimed_limit {e : Engine} (he : e.timeout = none) (clock : Clock) (t : Tree)
    (scope : Scope) :
  let active := (e.activate scope).1
  let r := (e.formatTimed clock t scope).1
  let t' := (e.formatTimed clock t scope).2
  ∃ k u, Completes active t e.maxPasses k u
    ∧ r.passes = k + 1 + (if r.isAborted then 1 else 0)
    ∧ r.passes ≤ e.maxPasses + 1
    ∧ (r.isAborted = true ↔ k < e.maxPasses ∧ PassFails active u)
    ∧ t' = (if r.isAborted then t else u)
    ∧ (r.isUnstable = true ↔ k = e.maxPasses ∧ (detect active u).correctable ≠ [])
    ∧ (r.isUnstable = false → ∀ cap, e.maxPasses ≤ cap →
      { e with maxPasses := cap }.formatTimed clock t scope = (r, t'))
  := by
  intro active r t'
  have hends := e.ends_outcome clock t scope
  obtain ⟨k, u, hcompletes, hpasses, haborted, htree, hunstable⟩ := hends.completes he
  rw [← e.isAborted_formatTimed clock t scope] at hpasses haborted htree
  rw [← e.isUnstable_format t scope clock] at hunstable
  refine ⟨k, u, hcompletes, hpasses, ?_, haborted, htree, hunstable, ?_⟩
  · have hcount : r.passes = k + 1 + (if r.isAborted then 1 else 0) := hpasses
    have hle := hcompletes.le
    rw [hcount]
    split
    · rename_i habort
      obtain ⟨hlt, -⟩ := haborted.mp habort
      omega
    · omega
  · intro hstable cap hcap
    have hstable' : (e.outcome clock t scope).unstable = false := by
      rw [← e.isUnstable_format t scope clock]
      exact hstable
    have hsame : { e with maxPasses := cap }.outcome clock t scope = e.outcome clock t scope := by
      apply Engine.settle_of_stable _ hcap hstable'
      rfl
    change _ = e.formatTimed clock t scope
    rw [Engine.formatTimed_eq, Engine.formatTimed_eq, hsame]

/-- Fixing that is given up in the second pass. -/
theorem formatTimed_limit_renameOnce :
  let e : Engine := ⟨[⟨⟨"demo:rename-once"⟩, renameOnce, [], [], false⟩], 3, none⟩
  let t : Tree := .ofRoot .file none (.leaf () .identifier "a" .nil)
  let active := (e.activate .empty).1
  let r := (e.formatTimed .stopped t .empty).1
  let t' := (e.formatTimed .stopped t .empty).2
  e.timeout = none
  ∧ ∃ k u, Completes active t 3 k u
    ∧ r.passes = k + 1 + (if r.isAborted then 1 else 0)
    ∧ r.passes ≤ 3 + 1
    ∧ (r.isAborted = true ↔ k < 3 ∧ PassFails active u)
    ∧ t' = (if r.isAborted then t else u)
    ∧ (r.isUnstable = true ↔ k = 3 ∧ (detect active u).correctable ≠ [])
    ∧ (r.isUnstable = false → ∀ cap, 3 ≤ cap →
      { e with maxPasses := cap }.formatTimed .stopped t .empty = (r, t'))
  := by
  intro e t active r t'
  use rfl
  apply formatTimed_limit (e := e) rfl .stopped t .empty

example :
  let e : Engine := ⟨[⟨⟨"demo:rename-once"⟩, renameOnce, [], [], false⟩], 3, none⟩
  let r := (e.formatTimed .stopped (.ofRoot .file none (.leaf () .identifier "a" .nil)) .empty).1
  r.passes = 3 ∧ r.isAborted = true
  := by
  decide +kernel

end Fettle
