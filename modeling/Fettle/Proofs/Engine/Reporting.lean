import Fettle.Proofs.Engine.Placing
import Fettle.Tree.Event

/-!
# Reports on formatted trees

The report of `Engine.format` is about the tree that is returned: its text is that of the tree,
and its violations are those that `Engine.lint` reports on the tree.  If fixing was not settled
within the limit on fix passes, the violations that could be corrected are marked, and the rules
that found them are named.  After a failed fix the tree is the one that was given.
`format_report` states this.
-/

namespace Fettle

/-- A violation whose fix was not settled; one that cannot be corrected stays as it is. -/
def Violation.unsettled (v : Violation) : Violation :=
  if v.correctable then { v with correctable := false, unstable := true } else v

/-- In the fix pass over a tree, the visit of a rule at a node fails. -/
def VisitFails (active : List Active) (t : Tree) (r : RuleId) (fault : Fault) : Prop :=
  ∃ before n after u a, (detect active t).fixes = before ++ (n, r) :: after
    ∧ fixAll active t before = .ok u ∧ u.isAttached n = true
    ∧ active.find? (fun a => a.id = r) = some a ∧ a.fix u n = .error fault

theorem fixAll_append {active : List Active} {t u : Tree} {before after : List (NodeId × RuleId)}
    (h : fixAll active t before = .ok u) :
  fixAll active t (before ++ after) = fixAll active u after
  := by
  induction before generalizing t with
  | nil =>
    obtain rfl := Except.ok.inj h
    rfl
  | cons fix before ih =>
    rw [fixAll] at h
    rw [List.cons_append, fixAll]
    split at h
    · apply ih h
    · cases h

namespace VisitFails

variable {active : List Active} {t : Tree} {r : RuleId} {fault : Fault}

/-- A pass with a failing visit fails, on account of its rule. -/
theorem correct_eq (h : VisitFails active t r fault) :
  correct active (detect active t) = .error ⟨some r, fault⟩
  := by
  obtain ⟨before, n, after, u, a, hfixes, hbefore, hatt, hfind, hfix⟩ := h
  have hone : fixOne active u (n, r) = .error ⟨some r, fault⟩ := by
    rw [fixOne, if_pos hatt, hfind]
    change (a.fix u n).mapError _ = _
    rw [hfix]
    rfl
  apply correct_of_error
  rw [hfixes, fixAll_append hbefore, fixAll, hone]

/-- Where a visit fails, something is to be corrected. -/
theorem correctable_ne_nil (h : VisitFails active t r fault) :
  (detect active t).correctable ≠ []
  := by
  obtain ⟨before, n, after, u, a, hfixes, -⟩ := h
  intro hnone
  rw [Detection.fixes, hnone] at hfixes
  cases before <;> cases hfixes

end VisitFails

/-! ### Marked violations -/

namespace Detection

theorem place_unstable (text : String) (p : Pending) :
  (place text true p).toOption = (place text false p).toOption.map Violation.unsettled
  := by
  rw [place, place]
  split
  · cases hp : p.correctable
    · simp [Except.toOption, Violation.unsettled]
    · simp [Except.toOption, Violation.unsettled]
  · rfl

/-- The violations of an unstable run are those of a stable one, marked. -/
theorem violations_unstable (d : Detection) :
  d.violations true = (d.violations false).map Violation.unsettled
  := by
  rw [violations, violations, violationsOf, violationsOf, List.map_filterMap]
  congr 1
  funext p
  apply place_unstable

theorem isUnstable_of_mem_misplaced {d : Detection} {g : Diagnostic} (h : g ∈ d.misplaced) :
  g.isUnstable = false
  := by
  obtain ⟨id, m, rfl⟩ := exists_of_mem_misplaced h
  rfl

end Detection

/-! ### Reports of runs -/

theorem isUnstable_of_isEnding {d : Diagnostic} (h : d.isEnding = false) :
  d.isUnstable = false
  := by
  cases d <;> first | rfl | cases h

theorem mem_unstableDiagnostics {d : Detection} {k : Nat} {g : Diagnostic} :
  g ∈ unstableDiagnostics d k
    ↔ ∃ p ∈ d.correctable, g = .unstable p.ruleId.text k
  := by
  simp only [unstableDiagnostics, List.mem_map, mem_sortedIds]
  constructor
  · rintro ⟨_, ⟨p, hp, rfl⟩, rfl⟩
    use p, hp
  · rintro ⟨p, hp, rfl⟩
    use p.ruleId, ⟨p, hp, rfl⟩

/-- The diagnostics that fixing is not settled are those of an unstable outcome. -/
theorem Ends.mem_unstable_iff {e : Engine} {clock : Clock} {active : List Active}
    {start : Tree} {cap : Nat} {o : Outcome} (h : Ends e clock active start cap o)
    {g : Diagnostic} (hg : g.isUnstable = true) :
  g ∈ o.diagnostics
    ↔ o.unstable = true ∧ ∃ p ∈ o.detection.correctable, g = .unstable p.ruleId.text cap
  := by
  have hquiet {quiet : List Diagnostic} (hs : ∀ d ∈ quiet, d.isEnding = false) :
      g ∉ quiet := by
    intro hmem
    rw [isUnstable_of_isEnding (hs g hmem)] at hg
    cases hg
  cases h with
  | converged _ _ _ silent => simp [hquiet silent]
  | capped _ _ silent =>
    rw [List.mem_append, mem_unstableDiagnostics]
    simp [hquiet silent]
  | timedOut _ _ _ _ silent =>
    rw [List.mem_append, List.mem_singleton]
    simp only [hquiet silent, false_or, Bool.false_eq_true, false_and, iff_false]
    rintro rfl
    cases hg
  | aborted _ _ _ _ silent =>
    simp only [mem_addNew, List.mem_append, List.mem_singleton, hquiet silent, false_or,
      Bool.false_eq_true, false_and, iff_false, not_or]
    constructor
    · rintro rfl
      cases hg
    · intro hmem
      rw [isUnstable_of_isEnding (isEnding_of_mem_failures hmem)] at hg
      cases hg

namespace Engine

variable (e : Engine) (t : Tree) (scope : Scope)

theorem mem_unstable_iff (clock : Clock) {g : Diagnostic} (hg : g.isUnstable = true) :
  g ∈ (e.formatTimed clock t scope).1.diagnostics
    ↔ (e.outcome clock t scope).unstable = true
      ∧ ∃ p ∈ (e.outcome clock t scope).detection.correctable,
        g = .unstable p.ruleId.text e.maxPasses
  := by
  rw [formatTimed_eq, List.mem_append, (e.ends_outcome clock t scope).mem_unstable_iff hg,
    or_iff_left]
  intro hmem
  rw [Detection.isUnstable_of_mem_misplaced hmem] at hg
  cases hg

/-- A report says that fixing is not settled exactly if its outcome is unstable. -/
theorem isUnstable_format (clock : Clock) :
  (e.formatTimed clock t scope).1.isUnstable = (e.outcome clock t scope).unstable
  := by
  rw [Bool.eq_iff_iff, FileReport.isUnstable, List.any_eq_true]
  constructor
  · rintro ⟨g, hmem, hg⟩
    apply ((mem_unstable_iff e t scope clock hg).mp hmem).1
  · intro hu
    obtain ⟨p, ps, hp⟩ := List.exists_cons_of_ne_nil
      ((e.ends_outcome clock t scope).passes_of_unstable hu).2
    use .unstable p.ruleId.text e.maxPasses
    constructor
    · apply (mem_unstable_iff e t scope clock rfl).mpr
      exact ⟨hu, p, by rw [hp]; apply List.mem_cons_self, rfl⟩
    · rfl

/-- A failed pass leads to the outcome in which fixing is given up. -/
theorem outcome_of_failed {e : Engine} {t : Tree} {scope : Scope} (he : e.timeout = none)
    (clock : Clock) {k : Nat} {u : Tree} {failure : FixFailure}
    (hpasses : Passes (e.activate scope).1 t k u) (hk : k < e.maxPasses)
    (hcorrectable : (detect (e.activate scope).1 u).correctable ≠ [])
    (hfailed : correct (e.activate scope).1 (detect (e.activate scope).1 u) = .error failure) :
  (e.outcome clock t scope).detection.tree = t
    ∧ .autocorrectAborted (failure.ruleId.map RuleId.text) failure.fault.message
      ∈ (e.outcome clock t scope).diagnostics
  := by
  have hends := e.ends_outcome clock t scope
  generalize e.outcome clock t scope = o at hends ⊢
  cases hends with
  | converged passes _ settled _ =>
    obtain rfl := Nat.le_antisymm (hpasses.le_of_failed hfailed passes)
      (passes.le_of_settled settled hpasses)
    obtain rfl := hpasses.unique passes
    exact absurd settled hcorrectable
  | capped passes _ _ => exact absurd (hpasses.le_of_failed hfailed passes) (by omega)
  | timedOut _ _ _ up _ =>
    rw [isTimeUp, he] at up
    cases up
  | aborted passes _ _ failed _ =>
    obtain rfl := Nat.le_antisymm (hpasses.le_of_failed hfailed passes)
      (passes.le_of_failed failed hpasses)
    obtain rfl := hpasses.unique passes
    obtain rfl := Except.error.inj (hfailed.symm.trans failed)
    constructor
    · rfl
    · apply mem_addNew.mpr
      left
      apply List.mem_append_right
      apply List.mem_singleton_self

end Engine

/-- The report of a run without a limit on time is about the tree that is returned, and that
is the given one if a fix fails in any pass. -/
theorem format_report {e : Engine} (he : e.timeout = none) (t : Tree) (scope : Scope) :
  let active := (e.activate scope).1
  let r := (e.format t scope).1
  let t' := (e.format t scope).2
  r.formatted = some t'.text
    ∧ r.violations = (if r.isUnstable
        then (e.lint t' scope).violations.map Violation.unsettled
        else (e.lint t' scope).violations)
    ∧ (∀ id k, Diagnostic.unstable id k ∈ r.diagnostics
      ↔ r.isUnstable = true ∧ k = e.maxPasses
        ∧ ∃ p ∈ (detect active t').correctable, p.ruleId.text = id)
    ∧ (∀ k u rule fault, Passes active t k u → k < e.maxPasses →
      VisitFails active u rule fault →
      t' = t ∧ Diagnostic.autocorrectAborted (some rule.text) fault.message ∈ r.diagnostics)
  := by
  intro active r t'
  have hr : r.isUnstable = (e.outcome .stopped t scope).unstable :=
    e.isUnstable_format t scope .stopped
  have hlast : (e.outcome .stopped t scope).detection = detect active t' :=
    (e.ends_outcome .stopped t scope).detection_eq
  refine ⟨rfl, ?violations, ?unstable, ?aborted⟩
  case violations =>
    have hviolations : r.violations
        = (e.outcome .stopped t scope).detection.violations r.isUnstable := by
      rw [hr]
      rfl
    have hlint : (e.lint t' scope).violations = (detect active t').violations false := rfl
    rw [hviolations, hlast, hlint]
    cases r.isUnstable with
    | false => rfl
    | true => apply Detection.violations_unstable
  case unstable =>
    intro id k
    rw [hr, ← hlast]
    apply (e.mem_unstable_iff t scope .stopped rfl).trans
    apply and_congr_right
    intro _
    constructor
    · rintro ⟨p, hp, heq⟩
      obtain ⟨rfl, rfl⟩ := Diagnostic.unstable.inj heq
      exact ⟨rfl, p, hp, rfl⟩
    · rintro ⟨rfl, p, hp, rfl⟩
      use p
  case aborted =>
    intro k u rule fault hpasses hk hfails
    obtain ⟨htree, hmem⟩ := Engine.outcome_of_failed he .stopped hpasses hk
      hfails.correctable_ne_nil hfails.correct_eq
    constructor
    · exact htree
    · apply List.mem_append_left
      exact hmem

/-- A rule that renames every identifier, and fails at those it has renamed. -/
def renameOnce : Rule where
  id := "demo:rename-once"
  description := "Renames identifiers once"
  properties := []
  modifiers := []
  inspect := fun s =>
    if s.kind = .identifier then .found [s.finding s.node 0 "Not renamed" true] else .clean
  fix := fun s =>
    if s.text = ['b'] then .error .readOnly
    else (s.tree.replace s.node (.ofLeaf .identifier "b")).map Prod.snd

/-- A fix that fails in the second pass leaves the tree as it was before the first. -/
theorem format_renameOnce :
  let e : Engine := ⟨[⟨⟨"demo:rename-once"⟩, renameOnce, [], [], false⟩], 3, none⟩
  let t : Tree := .ofRoot .file none (.leaf () .identifier "a" .nil)
  e.timeout = none ∧ (e.format t .empty).2 = t
    ∧ Diagnostic.autocorrectAborted (some "demo:rename-once") Fault.readOnly.message
      ∈ (e.format t .empty).1.diagnostics
  := by
  intro e t
  have hfirst : Passes (e.activate .empty).1 t 1
      ⟨.file, none, .leaf 2 .identifier "b" .nil, .leaf 1 .identifier "a" .nil, 3⟩ := by
    apply Passes.pass Passes.none
    · decide +kernel
    · have hfixes : (detect (e.activate .empty).1 t).fixes = [(1, ⟨"demo:rename-once"⟩)] := by
        decide +kernel
      have hone : fixOne (e.activate .empty).1 t (1, ⟨"demo:rename-once"⟩)
          = .ok ⟨.file, none, .leaf 2 .identifier "b" .nil, .leaf 1 .identifier "a" .nil, 3⟩ := by
        dsimp only [e, t]
        rfl
      apply correct_of_ok
      · rw [hfixes, fixAll, hone]
        rfl
      · rfl
  have hsecond : VisitFails (e.activate .empty).1
      ⟨.file, none, .leaf 2 .identifier "b" .nil, .leaf 1 .identifier "a" .nil, 3⟩
      ⟨"demo:rename-once"⟩ .readOnly := by
    refine ⟨[], 2, [], _, ⟨⟨⟨"demo:rename-once"⟩, renameOnce, [], [], false⟩, _⟩,
      ?_, rfl, rfl, rfl, rfl⟩
    decide +kernel
  constructor
  · rfl
  · apply (format_report rfl t .empty).2.2.2 1 _ _ _ hfirst _ hsecond
    decide

end Fettle
