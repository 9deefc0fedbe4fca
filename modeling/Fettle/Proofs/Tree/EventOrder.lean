import Fettle.Proofs.Tree.Sound
import Fettle.Proofs.Tree.WellFormed
import Mathlib.Data.List.Induction

/-!
# Events in order

An event is `Misplaced` after some others by the numbers of branches that were opened and closed
before it.  Events are `Balanced` if none of them is misplaced and they close a root that they open,
and else `Refused`: the first one that is misplaced says why, and if there is none, then that
branches are left open, or that there is no root.

These numbers say how far a construction has come (`Progress.After`), and it goes on until an event
is misplaced (`Progress.outcome_run`).
-/

namespace Fettle

namespace Event

/-- Whether an event opens a branch. -/
def isStart : Event → Bool
  | .start _ _ => true
  | _ => false

/-- Whether an event closes a branch. -/
def isFinish : Event → Bool
  | .finish => true
  | _ => false

/-- The number of branches that some events open. -/
def starts (es : List Event) : Nat :=
  es.countP isStart

/-- The number of branches that some events close. -/
def finishes (es : List Event) : Nat :=
  es.countP isFinish

/-- An event is out of place after some events, and why. -/
inductive Misplaced (before : List Event) : Event → Fault → Prop where
  | leafKind {k : Kind} {l : Option String} (hk : k.isComposite = false) :
    Misplaced before (.start k l) (.leafKindAsComposite k)
  | secondRoot {k : Kind} {l : Option String} (hk : k.isComposite = true)
    (hbegun : 0 < starts before) (hdone : starts before = finishes before) :
    Misplaced before (.start k l) (.construction .secondRoot)
  | tokenOutside {k : Kind} {s : String} (hs : s ≠ "") (hout : starts before = finishes before) :
    Misplaced before (.token k s) (.construction .tokenOutside)
  | misfit {k : Kind} {s : String} {fault : Fault} (hs : s ≠ "")
    (hin : finishes before < starts before) (hmisfit : (Node.leaf () k s).Misfits fault) :
    Misplaced before (.token k s) fault
  | closeWithoutOpen (hout : starts before = finishes before) :
    Misplaced before .finish (.construction .closeWithoutOpen)

/-- No event of a list is out of place. -/
def InOrder (es : List Event) : Prop :=
  ∀ before e after, es = before ++ e :: after → ∀ fault, ¬ Misplaced before e fault

/-- Some events are in order, open a root and close all branches. -/
structure Balanced (es : List Event) : Prop where
  inOrder : InOrder es
  begun : 0 < starts es
  closed : starts es = finishes es

/-- Some events are not those of one tree, and why: the first event out of place comes before a
root that is left open or missing. -/
inductive Refused (es : List Event) : Fault → Prop where
  | misplaced {before after : List Event} {e : Event} {fault : Fault}
    (hes : es = before ++ e :: after) (hbefore : InOrder before)
    (he : Misplaced before e fault) : Refused es fault
  | leftOpen (h : InOrder es) (hopen : finishes es < starts es) :
    Refused es (.construction (.leftOpen (starts es - finishes es)))
  | noRoot (h : InOrder es) (hnone : starts es = 0) : Refused es (.construction .noRoot)

/-! ### One more event -/

@[simp]
theorem starts_concat (es : List Event) (e : Event) :
  starts (es ++ [e]) = starts es + if e.isStart then 1 else 0
  := by
  simp [starts, List.countP_cons]

@[simp]
theorem finishes_concat (es : List Event) (e : Event) :
  finishes (es ++ [e]) = finishes es + if e.isFinish then 1 else 0
  := by
  simp [finishes, List.countP_cons]

theorem inOrder_nil :
  InOrder []
  := by
  intro before e after h
  simp at h

theorem inOrder_concat_iff {es : List Event} {e : Event} :
  InOrder (es ++ [e]) ↔ InOrder es ∧ ∀ fault, ¬ Misplaced es e fault
  := by
  constructor
  · intro h
    constructor
    · rintro before e' after rfl
      apply h before e' (after ++ [e])
      simp
    · apply h es e []
      rfl
  · rintro ⟨h, he⟩ before e' after heq
    rcases List.eq_nil_or_concat after with rfl | ⟨after, e'', rfl⟩
    · obtain ⟨rfl, he'⟩ := List.append_inj' heq rfl
      obtain rfl := (List.cons.inj he').1
      exact he
    · rw [List.concat_eq_append, ← List.cons_append, ← List.append_assoc] at heq
      obtain ⟨rfl, -⟩ := List.append_inj' heq rfl
      exact h before e' after rfl

end Event

open Event

/-! ### Progress and counting -/

namespace Progress

/-- How far a construction has come after some events, by the numbers of branches opened and
closed. -/
def After (before : List Event) : Progress → Prop
  | fresh => starts before = 0 ∧ finishes before = 0
  | inside outer => starts before = finishes before + (outer + 1)
  | closed => 0 < starts before ∧ starts before = finishes before

variable {before : List Event} {p p' : Progress} {e : Event} {fault : Fault}

/-- With as many branches closed as opened, the construction has not begun or is past its end. -/
theorem After.eq_fresh_or_closed (h : p.After before) (hout : starts before = finishes before) :
  p = fresh ∧ starts before = 0 ∨ p = closed ∧ 0 < starts before
  := by
  cases p with
  | fresh => exact .inl ⟨rfl, h.1⟩
  | inside outer =>
    rw [After] at h
    omega
  | closed => exact .inr ⟨rfl, h.1⟩

theorem After.eq_inside (h : p.After before) (hin : finishes before < starts before) :
  p = inside (starts before - finishes before - 1)
  := by
  cases p with
  | fresh =>
    rw [After] at h
    omega
  | inside outer =>
    rw [After] at h
    rw [h, Nat.add_sub_cancel_left, Nat.add_sub_cancel]
  | closed =>
    rw [After] at h
    omega

/-- An event that stops the construction is out of place. -/
theorem After.misplaced (h : p.After before) (he : p.step e = .error fault) :
  Misplaced before e fault
  := by
  cases e with
  | start k l =>
    rw [Progress.step, branchFault?] at he
    cases hk : k.isComposite with
    | false =>
      rw [hk] at he
      obtain rfl := Except.error.inj he
      exact .leafKind hk
    | true =>
      rw [hk] at he
      cases p with
      | fresh => cases he
      | inside outer => cases he
      | closed =>
        obtain rfl := Except.error.inj he
        exact .secondRoot hk h.1 h.2
  | token k s =>
    simp only [Progress.step] at he
    split at he
    · cases he
    · rename_i hs
      cases p with
      | fresh =>
        obtain rfl := Except.error.inj he
        exact .tokenOutside hs (h.1.trans h.2.symm)
      | inside outer =>
        dsimp only at he
        split at he
        · rename_i fault' hleaf
          obtain rfl := Except.error.inj he
          rw [After] at h
          exact .misfit hs (by omega) (Node.ownFault?_eq_some_iff.mp hleaf)
        · cases he
      | closed =>
        obtain rfl := Except.error.inj he
        exact .tokenOutside hs h.2
  | finish =>
    cases p with
    | fresh =>
      obtain rfl := Except.error.inj he
      exact .closeWithoutOpen (h.1.trans h.2.symm)
    | inside outer => cases outer <;> cases he
    | closed =>
      obtain rfl := Except.error.inj he
      exact .closeWithoutOpen h.2

/-- What is wrong with an event is that it is out of place. -/
theorem After.step_eq_error_iff (h : p.After before) :
  p.step e = .error fault ↔ Misplaced before e fault
  := by
  constructor
  · exact h.misplaced
  · intro he
    cases he with
    | leafKind hk => simp [Progress.step, branchFault?, hk]
    | secondRoot hk hbegun hdone =>
      rcases h.eq_fresh_or_closed hdone with ⟨rfl, hzero⟩ | ⟨rfl, -⟩
      · omega
      · simp [Progress.step, branchFault?, hk, Progress.opened]
    | tokenOutside hs hout =>
      rcases h.eq_fresh_or_closed hout with ⟨rfl, -⟩ | ⟨rfl, -⟩
      · simp [Progress.step, hs]
      · simp [Progress.step, hs]
    | @misfit k s _ hs hin hmisfit =>
      have hleaf : leafFault? k s = some fault := Node.ownFault?_eq_some_iff.mpr hmisfit
      rw [h.eq_inside hin]
      simp [Progress.step, hs, hleaf]
    | closeWithoutOpen hout => rcases h.eq_fresh_or_closed hout with ⟨rfl, -⟩ | ⟨rfl, -⟩ <;> rfl

theorem After.step (h : p.After before) (he : p.step e = .ok p') :
  p'.After (before ++ [e])
  := by
  cases e with
  | start k l =>
    rw [Progress.step] at he
    split at he
    · cases he
    · cases p with
      | fresh =>
        obtain rfl := Except.ok.inj he
        simp_all [After, isStart, isFinish]
      | inside outer =>
        obtain rfl := Except.ok.inj he
        simp_all [After, isStart, isFinish]
        omega
      | closed => cases he
  | token k s =>
    have hp : p' = p := by
      simp only [Progress.step] at he
      split at he
      · exact (Except.ok.inj he).symm
      · cases p with
        | fresh => cases he
        | inside outer =>
          dsimp only at he
          split at he
          · cases he
          · exact (Except.ok.inj he).symm
        | closed => cases he
    subst hp
    cases p' <;> simpa [After, isStart, isFinish] using h
  | finish =>
    cases p with
    | fresh => cases he
    | inside outer =>
      cases outer with
      | zero =>
        obtain rfl := Except.ok.inj he
        simp_all [After, isStart, isFinish]
      | succ outer =>
        obtain rfl := Except.ok.inj he
        simp_all [After, isStart, isFinish]
        omega
    | closed => cases he

/-- Events one after the other. -/
theorem run_append {q : Progress} {es : List Event} (h : p.run es = .ok q) (fs : List Event) :
  p.run (es ++ fs) = q.run fs
  := by
  induction es generalizing p with
  | nil =>
    obtain rfl := Except.ok.inj h
    rfl
  | cons e es ih =>
    rw [run] at h
    rw [List.cons_append, run]
    split at h
    · cases h
    · exact ih h

/-- Nothing after a fault is looked at. -/
theorem run_append_of_error {es : List Event} (h : p.run es = .error fault) (fs : List Event) :
  p.run (es ++ fs) = .error fault
  := by
  induction es generalizing p with
  | nil => cases h
  | cons e es ih =>
    rw [run] at h
    rw [List.cons_append, run]
    split at h
    · exact h
    · exact ih h

theorem run_singleton (e : Event) :
  p.run [e] = p.step e
  := by
  rw [run]
  cases p.step e <;> rfl

/-- A token leaves the state as it is. -/
theorem run_token {q : Progress} {k : Kind} {es : List Event} {s : String}
    (h : p.run (.token k s :: es) = .ok q) :
  p.run es = .ok q
  := by
  rw [run, step.eq_def] at h
  dsimp only at h
  by_cases hs : s = ""
  · rwa [if_pos hs] at h
  · rw [if_neg hs] at h
    cases p with
    | fresh => cases h
    | closed => cases h
    | inside outer =>
      cases hleaf : leafFault? k s with
      | none => rwa [hleaf] at h
      | some fault =>
        rw [hleaf] at h
        cases h

/-- After the start of a branch there is one more to close. -/
theorem run_start {q : Progress} {k : Kind} {l : Option String} {es : List Event}
    (h : p.run (.start k l :: es) = .ok q) :
  branchFault? k = none ∧ ∃ p', p.opened = .ok p' ∧ p'.run es = .ok q
  := by
  rw [run, step] at h
  cases hk : branchFault? k with
  | some fault =>
    rw [hk] at h
    cases h
  | none =>
    rw [hk] at h
    dsimp only at h
    use rfl
    cases hp : p.opened with
    | error fault =>
      rw [hp] at h
      cases h
    | ok p' =>
      rw [hp] at h
      exact ⟨p', rfl, h⟩

/-- What comes of some events: they are in order, or one of them is the first out of place. -/
inductive Outcome (es : List Event) : Except Fault Progress → Prop where
  | ok {p : Progress} (h : InOrder es) (hafter : p.After es) : Outcome es (.ok p)
  | error {before after : List Event} {e : Event} {fault : Fault}
    (hes : es = before ++ e :: after) (hbefore : InOrder before)
    (he : Misplaced before e fault) : Outcome es (.error fault)

theorem outcome_run (es : List Event) :
  Outcome es (fresh.run es)
  := by
  -- whether an event is out of place depends on all events before it, so the last one comes off
  induction es using List.reverseRecOn with
  | nil => exact .ok inOrder_nil ⟨rfl, rfl⟩
  | append_singleton es e ih =>
    generalize hrun : fresh.run es = r at ih
    cases ih with
    | @ok p h hafter =>
      rw [run_append hrun, run_singleton]
      cases hstep : p.step e with
      | ok p' =>
        have hin : InOrder (es ++ [e]) := by
          rw [inOrder_concat_iff]
          use h
          intro fault hfault
          rw [hafter.step_eq_error_iff.mpr hfault] at hstep
          cases hstep
        exact .ok hin (hafter.step hstep)
      | error fault => exact .error rfl h (hafter.step_eq_error_iff.mp hstep)
    | @error before after e' fault hes hbefore he =>
      rw [run_append_of_error hrun]
      have hlonger : es ++ [e] = before ++ e' :: (after ++ [e]) := by
        rw [hes, List.append_assoc]
        rfl
      exact .error hlonger hbefore he

/-- Events in order are gone through. -/
theorem exists_run {es : List Event} (h : InOrder es) :
  ∃ p, fresh.run es = .ok p ∧ p.After es
  := by
  have houtcome := outcome_run es
  generalize fresh.run es = r at houtcome
  cases houtcome with
  | ok _ hafter => exact ⟨_, rfl, hafter⟩
  | error hes _ he => exact absurd he (h _ _ _ hes _)

/-- Events lead from the start to the end of the root exactly if they are balanced. -/
theorem run_eq_closed_iff {es : List Event} :
  fresh.run es = .ok closed ↔ Balanced es
  := by
  constructor
  · intro hrun
    have houtcome := outcome_run es
    rw [hrun] at houtcome
    cases houtcome with
    | ok h hafter => exact ⟨h, hafter.1, hafter.2⟩
  · rintro ⟨h, hbegun, hclosed⟩
    obtain ⟨p, hp, hafter⟩ := exists_run h
    rcases hafter.eq_fresh_or_closed hclosed with ⟨rfl, hzero⟩ | ⟨rfl, -⟩
    · omega
    · exact hp

theorem run_of_misplaced {before after : List Event} (hbefore : InOrder before)
    (he : Misplaced before e fault) :
  fresh.run (before ++ e :: after) = .error fault
  := by
  obtain ⟨p, hp, hafter⟩ := exists_run hbefore
  rw [run_append hp, run, hafter.step_eq_error_iff.mpr he]

end Progress

end Fettle
