import Fettle.Proofs.Engine.Reporting
import Fettle.Rules.NoTrailingSpaces

/-!
# Formatting a formatted tree

A tree in which nothing can be corrected is the tree of its own fixing, after one detection
(`Engine.outcome_of_settled`).  A run whose diagnostics do not tell that fixing was cut short
leaves such a tree (`Engine.settled_of_silent`), so a second run finds what the first one has
left, and changes nothing: `formatTimed_formatTimed`.

Fixing is not cut short by a failure where every fix succeeds (`exists_correct`); without a limit
on time, it then either settles everything or reaches the limit on fix passes
(`Ends.settled_of_stable`).
-/

namespace Fettle

/-- Where the diagnostics tell nothing about the end of fixing, nothing is left to correct. -/
theorem Ends.settled_of_silent {e : Engine} {clock : Clock} {active : List Active} {start : Tree}
    {cap : Nat} {o : Outcome} (h : Ends e clock active start cap o)
    (hsilent : ∀ d ∈ o.diagnostics, d.isEnding = false) :
  o.detection.correctable = [] ∧ o.unstable = false
  := by
  cases h with
  | converged _ _ settled _ => exact ⟨settled, rfl⟩
  | @capped t quiet _ correctable _ =>
    obtain ⟨p, ps, hp⟩ := List.exists_cons_of_ne_nil correctable
    have hmem : Diagnostic.unstable p.ruleId.text cap
        ∈ unstableDiagnostics (detect active t) cap := by
      rw [mem_unstableDiagnostics, hp]
      use p, List.mem_cons_self
    cases hsilent _ (List.mem_append_right _ hmem)
  | timedOut _ _ _ _ _ =>
    cases hsilent _ (List.mem_append_right _ (List.mem_singleton_self _))
  | aborted _ _ _ _ _ =>
    cases hsilent _ (mem_addNew.mpr
      (.inl (List.mem_append_right _ (List.mem_singleton_self _))))

/-! ### Fixes that succeed -/

section

variable {active : List Active} {P : Tree → Prop}
  (hfix : ∀ a ∈ active, ∀ t n t', P t → t.isAttached n = true → a.fix t n = .ok t' → P t')
  (hsucceeds : ∀ a ∈ active, ∀ t n, P t → t.isAttached n = true → ∃ t', a.fix t n = .ok t')

include hfix hsucceeds

theorem exists_fixAll (fixes : List (NodeId × RuleId)) {t : Tree} (h : P t) :
  ∃ u, fixAll active t fixes = .ok u
  := by
  induction fixes generalizing t with
  | nil => exact ⟨t, rfl⟩
  | cons fix fixes ih =>
    have hone : ∃ u, fixOne active t fix = .ok u := by
      rw [fixOne]
      split
      · rename_i hatt
        split
        · exact ⟨t, rfl⟩
        · rename_i a hfind
          obtain ⟨u, hu⟩ := hsucceeds a (List.mem_of_find?_eq_some hfind) t fix.1 h hatt
          rw [hu]
          exact ⟨u, rfl⟩
      · exact ⟨t, rfl⟩
    obtain ⟨u, hu⟩ := hone
    rw [fixAll, hu]
    apply ih (fixOne_invariant hfix h hu)

/-- A pass in which every fix succeeds and leaves the tree in order succeeds. -/
theorem exists_correct (hfault : ∀ t, P t → t.fault? = none) {t : Tree} (h : P t) :
  ∃ u, correct active (detect active t) = .ok u
  := by
  obtain ⟨u, hu⟩ := exists_fixAll hfix hsucceeds (detect active t).fixes h
  use u
  apply correct_of_ok hu
  apply hfault u
  apply fixAll_invariant hfix h hu

/-- Where fixes succeed and time does not matter, nothing is left to correct in the end if the
limit on fix passes is not reached. -/
theorem Ends.settled_of_stable (hfault : ∀ t, P t → t.fault? = none) {e : Engine}
    (he : e.timeout = none) {clock : Clock} {start : Tree} (hstart : P start) {cap : Nat}
    {o : Outcome} (h : Ends e clock active start cap o) (hstable : o.unstable = false) :
  o.detection.correctable = []
  := by
  cases h with
  | converged _ _ settled _ => exact settled
  | capped _ _ _ => cases hstable
  | timedOut _ _ _ up _ =>
    rw [Engine.isTimeUp, he] at up
    cases up
  | aborted passes _ _ failed _ =>
    obtain ⟨u, hu⟩ := exists_correct hfix hsucceeds hfault (passes.invariant hfix hstart)
    rw [hu] at failed
    cases failed

end

namespace Engine

variable {e : Engine} {clock : Clock} {t : Tree} {scope : Scope}

/-- A tree in which nothing can be corrected stays as it is. -/
theorem outcome_of_settled (h : (detect (e.activate scope).1 t).correctable = []) :
  e.outcome clock t scope
    = ⟨detect (e.activate scope).1 t,
        addNew (e.activate scope).2 (detect (e.activate scope).1 t).failures, 1, false⟩
  := by
  have hnone : (detect (e.activate scope).1 t).correctable.isEmpty = true := by
    rw [h]
    rfl
  rw [outcome]
  cases e.maxPasses with
  | zero => rw [settle, if_pos hnone]
  | succ n => rw [settle, if_pos hnone]

/-- A run that tells nothing about the end of fixing leaves a tree in which nothing can be
corrected. -/
theorem settled_of_silent
    (h : ∀ d ∈ (e.formatTimed clock t scope).1.diagnostics, d.isEnding = false) :
  (detect (e.activate scope).1 (e.formatTimed clock t scope).2).correctable = []
    ∧ (e.outcome clock t scope).unstable = false
  := by
  have hends := e.ends_outcome clock t scope
  rw [formatTimed_eq, ← hends.detection_eq]
  apply hends.settled_of_silent
  intro d hd
  apply h
  apply List.mem_append_left _ hd

end Engine

/-- After a run that was not cut short, another run on the tree that is returned returns it as
it is, after one detection, and reports the same violations and the same text. -/
theorem formatTimed_formatTimed {e : Engine} {clock : Clock} {t t' : Tree} {scope : Scope}
    {r : FileReport} (hr : e.formatTimed clock t scope = (r, t'))
    (h : ∀ d ∈ r.diagnostics, d.isEnding = false) (clock' : Clock) :
  ∃ ds, e.formatTimed clock' t' scope = ({ r with passes := 1, diagnostics := ds }, t')
  := by
  obtain rfl := congrArg Prod.fst hr
  obtain rfl := congrArg Prod.snd hr
  obtain ⟨hsettled, hstable⟩ := Engine.settled_of_silent h
  have hlast := (e.ends_outcome clock t scope).detection_eq
  rw [Engine.formatTimed_eq e clock' _ scope, Engine.outcome_of_settled hsettled]
  rw [Engine.formatTimed_eq e clock t scope, hstable, hlast]
  exact ⟨_, rfl⟩

/-- White space at the end of a line, which the first of two runs takes out. -/
theorem formatTimed_formatTimed_trimmed :
  let e : Engine := ⟨[⟨⟨"standard:no-trailing-spaces"⟩, NoTrailingSpaces.rule, [], [], false⟩],
    2, none⟩
  let t : Tree := .ofRoot .file none (.leaf () .identifier "x" (.leaf () .whitespace "  \n" .nil))
  let t' : Tree := ⟨.file, none, .leaf 1 .identifier "x" (.leaf 3 .whitespace "\n" .nil),
    .leaf 2 .whitespace "  \n" .nil, 4⟩
  let r : FileReport := ⟨none, [], [], some "x\n", 2⟩
  e.formatTimed .stopped t .empty = (r, t') ∧ (∀ d ∈ r.diagnostics, d.isEnding = false)
    ∧ ∃ ds, e.formatTimed .stopped t' .empty = ({ r with passes := 1, diagnostics := ds }, t')
  := by
  intro e t t' r
  have hr : e.formatTimed .stopped t .empty = (r, t') := by
    decide +kernel
  have hsilent : ∀ d ∈ r.diagnostics, d.isEnding = false := by
    intro d hd
    cases hd
  use hr, hsilent
  apply formatTimed_formatTimed hr hsilent

end Fettle
