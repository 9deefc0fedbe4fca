import Fettle.Proofs.Engine.Placing
import Fettle.Proofs.Order.Sorting
import Fettle.Proofs.Text.Boundaries

/-!
# What linting reports

In a list of visits a rule is asked up to and including the first visit in which it fails; what is
found in these visits is `emitted` (`fst_sweep`).  Linting reports what is emitted and not
suppressed: as a violation if its offset has a position, and as a diagnostic otherwise.  The sort is
one by offset and rule, but as earlier offsets have earlier positions it is also a stable sort of
the violations by line, column and rule (`violations_lint`).
-/

namespace Fettle

/-! ### What is emitted -/

/-- What is found in a visit. -/
def found (t : Tree) (v : NodeId × Active) : List Pending :=
  (v.2.inspect t v.1).findings.map (⟨v.1, v.2.id, ·⟩)

/-- Whether the rule of a visit fails in it. -/
def fails (t : Tree) (v : NodeId × Active) : Bool :=
  (v.2.inspect t v.1).failure.isSome

/-- Whether a rule has failed in one of some visits. -/
def hasFailed (t : Tree) (vs : List (NodeId × Active)) (id : RuleId) : Bool :=
  vs.any fun v => decide (v.2.id = id) && fails t v

/-- What is found in a list of visits, in which a rule is no longer asked after a visit in which it
fails. -/
def emitted (t : Tree) (vs : List (NodeId × Active)) : List Pending :=
  vs.zipIdx.flatMap fun v => if hasFailed t (vs.take v.2) v.1.2.id then [] else found t v.1

theorem hasFailed_append (t : Tree) (vs ws : List (NodeId × Active)) (id : RuleId) :
  hasFailed t (vs ++ ws) id = (hasFailed t vs id || hasFailed t ws id)
  := List.any_append

theorem hasFailed_singleton (t : Tree) (v : NodeId × Active) (id : RuleId) :
  hasFailed t [v] id = (decide (v.2.id = id) && fails t v)
  := by
  simp [hasFailed]

/-- The rules that have failed after a visit. -/
def failedAfter (t : Tree) (failed : List RuleId) (v : NodeId × Active) : List RuleId :=
  if fails t v then v.2.id :: failed else failed

theorem contains_failedAfter (t : Tree) (failed : List RuleId) (v : NodeId × Active)
    (id : RuleId) :
  (failedAfter t failed v).contains id = (failed.contains id || (decide (v.2.id = id) && fails t v))
  := by
  unfold failedAfter
  cases fails t v with
  | false => simp
  | true => simp [Bool.or_comm, eq_comm]

/-- One visit of a sweep. -/
theorem fst_sweep_cons (t : Tree) (failed : List RuleId) (v : NodeId × Active)
    (vs : List (NodeId × Active)) :
  (sweep t failed (v :: vs)).1
    = if failed.contains v.2.id then (sweep t failed vs).1
      else found t v ++ (sweep t (failedAfter t failed v) vs).1
  := by
  obtain ⟨n, a⟩ := v
  rw [sweep]
  split
  · rfl
  · unfold failedAfter fails found
    dsimp only
    cases (a.inspect t n).failure <;> rfl

/-- A sweep after some visits, when the rules that have failed in these are told, finds what is
left to be emitted. -/
theorem fst_sweep_after {t : Tree} {before vs : List (NodeId × Active)} {failed : List RuleId}
    (h : ∀ id, failed.contains id = hasFailed t before id) :
  (sweep t failed vs).1
    = (vs.zipIdx before.length).flatMap fun v =>
        if hasFailed t ((before ++ vs).take v.2) v.1.2.id then [] else found t v.1
  := by
  induction vs generalizing before failed with
  | nil => rfl
  | cons v vs ih =>
    have hstep {failed' : List RuleId}
        (h' : ∀ id, failed'.contains id = hasFailed t (before ++ [v]) id) := ih h'
    rw [List.length_append, List.length_singleton, List.append_assoc, List.singleton_append]
      at hstep
    rw [List.zipIdx_cons, List.flatMap_cons, List.take_left, ← h, fst_sweep_cons]
    split
    · rename_i hfailed
      rw [List.nil_append]
      apply hstep
      intro id
      rw [hasFailed_append, hasFailed_singleton, ← h]
      by_cases hid : v.2.id = id
      · rw [← hid, hfailed, Bool.true_or]
      · simp [hid]
    · rw [hstep]
      intro id
      rw [hasFailed_append, hasFailed_singleton, ← h, contains_failedAfter]

/-- A sweep finds what is emitted. -/
theorem fst_sweep (t : Tree) (vs : List (NodeId × Active)) :
  (sweep t [] vs).1 = emitted t vs
  := by
  have hnone (id : RuleId) : [].contains id = hasFailed t [] id := rfl
  exact fst_sweep_after hnone

/-! ### What is reported -/

/-- Whether a diagnostic tells that a finding has no position. -/
def Diagnostic.isMisplaced : Diagnostic → Bool
  | invalidOffset _ _ => true
  | _ => false

namespace Violation

/-- Whether a violation stands before another by line, column and rule, or stands at the same
place. -/
def atOrBefore (v w : Violation) : Bool :=
  decide (v.line < w.line ∨ v.line = w.line
    ∧ (v.column < w.column ∨ v.column = w.column ∧ v.ruleId ≤ w.ruleId))

theorem isTotalPreorder_atOrBefore :
  IsTotalPreorder atOrBefore
  where
  trans u v w h h' := by
    simp only [atOrBefore, decide_eq_true_eq] at h h' ⊢
    have hrule : u.ruleId ≤ v.ruleId → v.ruleId ≤ w.ruleId → u.ruleId ≤ w.ruleId :=
      String.le_trans
    grind
  total v w := by
    simp only [atOrBefore, Bool.or_eq_true, decide_eq_true_eq]
    have hrule := String.le_total v.ruleId w.ruleId
    grind

end Violation

namespace Pending

theorem isTotalPreorder_atOrBefore :
  IsTotalPreorder atOrBefore
  where
  trans p q r h h' := by
    simp only [atOrBefore, Bool.or_eq_true, Bool.and_eq_true, decide_eq_true_eq, beq_iff_eq]
      at h h' ⊢
    have hrule : p.ruleId ≤ q.ruleId → q.ruleId ≤ r.ruleId → p.ruleId ≤ r.ruleId :=
      String.le_trans
    grind
  total p q := by
    simp only [atOrBefore, Bool.or_eq_true, Bool.and_eq_true, decide_eq_true_eq, beq_iff_eq]
    have hrule : p.ruleId ≤ q.ruleId ∨ q.ruleId ≤ p.ruleId := String.le_total ..
    grind

/-- The violation that a finding is reported as, if its offset has a position. -/
def violation? (text : String) (p : Pending) : Option Violation :=
  match Position.ofOffset text p.offset with
  | .ok pos => some ⟨pos.line, pos.column, p.ruleId.text, p.finding.message, p.correctable, false⟩
  | .error _ => none

/-- The diagnostic that a finding is reported as, if its offset has no position. -/
def misplaced? (text : String) (p : Pending) : Option Diagnostic :=
  match Position.ofOffset text p.offset with
  | .ok _ => none
  | .error fault => some (.invalidOffset p.ruleId.text fault.message)

theorem toOption_place (text : String) (p : Pending) :
  (Detection.place text false p).toOption = p.violation? text
  := by
  unfold Detection.place violation?
  cases Position.ofOffset text p.offset <;> simp [Except.toOption]

theorem misplaced_place (text : String) (p : Pending) :
  (match Detection.place text false p with
    | .ok _ => none
    | .error d => some d) = p.misplaced? text
  := by
  unfold Detection.place misplaced?
  cases Position.ofOffset text p.offset <;> rfl

/-- Findings with positions stand in the order of their violations. -/
theorem atOrBefore_eq {text : String} {p q : Pending} {v w : Violation}
    (hp : p.violation? text = some v) (hq : q.violation? text = some w) :
  v.atOrBefore w = p.atOrBefore q
  := by
  unfold violation? at hp hq
  cases hpos : Position.ofOffset text p.offset with
  | error fault =>
    rw [hpos] at hp
    cases hp
  | ok pos =>
    cases hpos' : Position.ofOffset text q.offset with
    | error fault =>
      rw [hpos'] at hq
      cases hq
    | ok pos' =>
      rw [hpos] at hp
      rw [hpos'] at hq
      obtain rfl := Option.some.inj hp
      obtain rfl := Option.some.inj hq
      have hrule : (p.ruleId.text ≤ q.ruleId.text) = (p.ruleId ≤ q.ruleId) := rfl
      rw [Bool.eq_iff_iff]
      simp only [Violation.atOrBefore, atOrBefore, Bool.or_eq_true, Bool.and_eq_true,
        decide_eq_true_eq, beq_iff_eq, hrule]
      rcases Nat.lt_trichotomy p.offset q.offset with hlt | heq | hgt
      · have hbefore := Position.before_of_lt hpos hpos' hlt
        unfold Position.Before at hbefore
        omega
      · rw [heq, hpos'] at hpos
        obtain rfl := Except.ok.inj hpos
        simp [heq]
      · have hbefore := Position.before_of_lt hpos' hpos hgt
        unfold Position.Before at hbefore
        omega

theorem isMisplaced_of_misplaced? {text : String} {p : Pending} {d : Diagnostic}
    (h : p.misplaced? text = some d) :
  d.isMisplaced = true
  := by
  unfold misplaced? at h
  cases hpos : Position.ofOffset text p.offset with
  | ok pos =>
    rw [hpos] at h
    cases h
  | error fault =>
    rw [hpos] at h
    obtain rfl := Option.some.inj h
    rfl

/-- Each finding is reported in one of the two ways. -/
theorem length_filterMap_add (text : String) (ps : List Pending) :
  (ps.filterMap (violation? text)).length + (ps.filterMap (misplaced? text)).length = ps.length
  := by
  induction ps with
  | nil => rfl
  | cons p ps ih =>
    have hone : ((p.violation? text).isSome = true ∧ p.misplaced? text = none)
        ∨ (p.violation? text = none ∧ (p.misplaced? text).isSome = true) := by
      unfold violation? misplaced?
      cases Position.ofOffset text p.offset <;> simp
    rcases hone with ⟨hsome, hnone⟩ | ⟨hnone, hsome⟩
    · obtain ⟨v, hv⟩ := Option.isSome_iff_exists.mp hsome
      rw [List.filterMap_cons_some hv, List.filterMap_cons_none hnone, List.length_cons,
        List.length_cons]
      omega
    · obtain ⟨d, hd⟩ := Option.isSome_iff_exists.mp hsome
      rw [List.filterMap_cons_none hnone, List.filterMap_cons_some hd, List.length_cons,
        List.length_cons]
      omega

end Pending

namespace Engine

variable (e : Engine) (t : Tree) (scope : Scope)

/-- What is emitted and not suppressed, if the active rules are asked in turn at each node of a tree
in pre-order. -/
def surviving : List Pending :=
  (emitted t (t.preOrder.flatMap fun n => (e.activate scope).1.map fun a => (n, a))).filter fun p =>
    !Suppression.isSuppressed (Suppression.spans t) p.offset p.ruleId

theorem surviving_eq :
  e.surviving t scope = (detect (e.activate scope).1 t).pending
  := by
  rw [surviving, ← fst_sweep]
  rfl

theorem violations_lint_eq :
  (e.lint t scope).violations
    = ((e.surviving t scope).mergeSort Pending.atOrBefore).filterMap (Pending.violation? t.text)
  := by
  rw [surviving_eq]
  apply List.filterMap_congr
  intro p _
  apply Pending.toOption_place

variable {e t scope} in
/-- What is found in the order in which it is reported is reported as it is found. -/
theorem violations_lint_of_pairwise
    (h : (e.surviving t scope).Pairwise fun p q => p.atOrBefore q = true) :
  (e.lint t scope).violations = (e.surviving t scope).filterMap (Pending.violation? t.text)
  := by
  rw [violations_lint_eq, List.mergeSort_of_pairwise h]

theorem filter_diagnostics_lint :
  (e.lint t scope).diagnostics.filter Diagnostic.isMisplaced
    = ((e.surviving t scope).mergeSort Pending.atOrBefore).filterMap (Pending.misplaced? t.text)
  := by
  have hlint : (e.lint t scope).diagnostics
      = addNew (e.activate scope).2 (detect (e.activate scope).1 t).failures
        ++ (detect (e.activate scope).1 t).misplaced := rfl
  have hother : (addNew (e.activate scope).2 (detect (e.activate scope).1 t).failures).filter
      Diagnostic.isMisplaced = [] := by
    rw [List.filter_eq_nil_iff]
    intro d hd hmisplaced
    cases d <;> try cases hmisplaced
    rw [mem_addNew] at hd
    rcases hd with hd | hd
    · exact invalidOffset_notMem_activate hd
    · exact invalidOffset_notMem_failures hd
  have hplace : (detect (e.activate scope).1 t).misplaced
      = ((e.surviving t scope).mergeSort Pending.atOrBefore).filterMap
          (Pending.misplaced? t.text) := by
    rw [surviving_eq]
    apply List.filterMap_congr
    intro p _
    apply Pending.misplaced_place
  rw [hlint, List.filter_append, hother, List.nil_append, hplace, List.filter_eq_self]
  intro d hd
  obtain ⟨p, -, hp⟩ := List.mem_filterMap.mp hd
  apply Pending.isMisplaced_of_misplaced? hp

/-- What survives is reported once each: the violations are those of the findings that have a
position, by line, column and rule and else in the order in which they were emitted, and the
diagnostics of this kind are those of the other findings. -/
theorem violations_lint :
  StableSort Violation.atOrBefore
      ((e.surviving t scope).filterMap (Pending.violation? t.text)) (e.lint t scope).violations
    ∧ ((e.lint t scope).diagnostics.filter Diagnostic.isMisplaced).Perm
        ((e.surviving t scope).filterMap (Pending.misplaced? t.text))
    ∧ (e.surviving t scope).length = (e.lint t scope).violations.length
        + ((e.lint t scope).diagnostics.filter Diagnostic.isMisplaced).length
  := by
  have hsort := stableSort_mergeSort Pending.isTotalPreorder_atOrBefore (e.surviving t scope)
  rw [violations_lint_eq, filter_diagnostics_lint]
  refine ⟨?_, hsort.perm.filterMap _, ?_⟩
  · apply hsort.filterMap Violation.isTotalPreorder_atOrBefore
    intro p q v w hp hq
    apply Pending.atOrBefore_eq hp hq
  · rw [Pending.length_filterMap_add, List.length_mergeSort]

end Engine

end Fettle
