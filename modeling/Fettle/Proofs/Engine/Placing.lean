import Fettle.Proofs.Engine.Passes

/-!
# Findings without a position

A finding at an offset that has no position in the document is not among the violations of a
report but is told by a diagnostic.  The diagnostics of this kind in a report are those of what is
pending in the tree that the report is about (`mem_lint_iff`, `mem_formatTimed_iff`): neither the
activation of rules nor fixing makes any.
-/

namespace Fettle

variable {id m : String}

/-- What is pending in a tree and has no position there. -/
def Unplaced (active : List Active) (t : Tree) (id m : String) : Prop :=
  ∃ p ∈ (detect active t).pending, ∃ fault, Position.ofOffset t.text p.offset = .error fault
    ∧ id = p.ruleId.text ∧ m = fault.message

namespace Detection

theorem place_eq_error_iff {text : String} {p : Pending} {d : Diagnostic} :
  place text false p = .error d
    ↔ ∃ fault, Position.ofOffset text p.offset = .error fault
      ∧ d = .invalidOffset p.ruleId.text fault.message
  := by
  rw [place]
  cases Position.ofOffset text p.offset with
  | ok pos => simp
  | error fault => simp [eq_comm]

theorem mem_misplacedOf_iff {text : String} {ps : List Pending} {d : Diagnostic} :
  d ∈ misplacedOf text ps ↔ ∃ p ∈ ps, place text false p = .error d
  := by
  rw [misplacedOf, List.mem_filterMap]
  apply exists_congr
  intro p
  apply and_congr_right
  intro _
  cases place text false p with
  | ok v => simp
  | error d => simp

theorem exists_of_mem_misplaced {d : Detection} {g : Diagnostic} (h : g ∈ d.misplaced) :
  ∃ id m, g = .invalidOffset id m
  := by
  obtain ⟨p, -, hp⟩ := mem_misplacedOf_iff.mp h
  obtain ⟨fault, -, rfl⟩ := place_eq_error_iff.mp hp
  exact ⟨_, _, rfl⟩

/-- The diagnostics of a detection that tell of findings without a position. -/
theorem mem_misplaced_iff {active : List Active} {t : Tree} :
  .invalidOffset id m ∈ (detect active t).misplaced ↔ Unplaced active t id m
  := by
  have hmem (p : Pending) : p ∈ (detect active t).sorted ↔ p ∈ (detect active t).pending :=
    List.mem_mergeSort
  rw [misplaced, mem_misplacedOf_iff]
  simp only [place_eq_error_iff, Diagnostic.invalidOffset.injEq, hmem]
  rfl

end Detection

/-- Failures of rules have a place. -/
theorem invalidOffset_notMem_failures {active : List Active} {t : Tree} :
  .invalidOffset id m ∉ (detect active t).failures
  := by
  intro h
  obtain ⟨f, -, hf⟩ := List.mem_map.mp h
  cases hf

namespace Engine

variable {e : Engine} {clock : Clock} {scope : Scope} {t : Tree}

theorem invalidOffset_notMem_activate :
  .invalidOffset id m ∉ (e.activate scope).2
  := by
  intro h
  apply of_mem_activate (P := fun d => d ≠ .invalidOffset id m) _ _ h rfl
  · intro rule fault
    cases fault
    · exact nofun
    · exact nofun
  · exact nofun

/-- Fixing adds no diagnostics of findings without a position. -/
theorem invalidOffset_notMem_settle {active : List Active} {left done : Nat} {d : Detection}
    {quiet : List Diagnostic} (h : .invalidOffset id m ∉ quiet) :
  .invalidOffset id m ∉ (e.settle clock active t left done d quiet).diagnostics
  := by
  induction left generalizing done d quiet with
  | zero =>
    rw [settle]
    split
    · exact h
    · simp [h, unstableDiagnostics]
  | succ left ih =>
    rw [settle]
    split
    · exact h
    · split
      · simp [h]
      · split
        · apply ih
          rw [mem_addNew]
          exact not_or.mpr ⟨h, invalidOffset_notMem_failures⟩
        · rw [mem_addNew]
          exact not_or.mpr ⟨by simp [h], invalidOffset_notMem_failures⟩

/-- What a report on a tree tells to have no position is pending in the tree. -/
theorem mem_lint_iff :
  .invalidOffset id m ∈ (e.lint t scope).diagnostics ↔ Unplaced (e.activate scope).1 t id m
  := by
  have hlint : (e.lint t scope).diagnostics
      = addNew (e.activate scope).2 (detect (e.activate scope).1 t).failures
        ++ (detect (e.activate scope).1 t).misplaced := rfl
  rw [hlint, List.mem_append, mem_addNew, Detection.mem_misplaced_iff]
  constructor
  · rintro ((h | h) | h)
    · exact absurd h invalidOffset_notMem_activate
    · exact absurd h invalidOffset_notMem_failures
    · exact h
  · exact .inr

/-- What a report after fixing tells to have no position is pending in the tree after fixing. -/
theorem mem_formatTimed_iff :
  .invalidOffset id m ∈ (e.formatTimed clock t scope).1.diagnostics
    ↔ Unplaced (e.activate scope).1 (e.formatTimed clock t scope).2 id m
  := by
  have hquiet : .invalidOffset id m ∉ (e.outcome clock t scope).diagnostics := by
    apply invalidOffset_notMem_settle
    rw [mem_addNew]
    exact not_or.mpr ⟨invalidOffset_notMem_activate, invalidOffset_notMem_failures⟩
  rw [formatTimed_eq, ← Detection.mem_misplaced_iff,
    ← (e.ends_outcome clock t scope).detection_eq, List.mem_append]
  constructor
  · rintro (h | h)
    · exact absurd h hquiet
    · exact h
  · exact .inr

end Engine

end Fettle
