import Fettle.Proofs.Tree.EventOrder

/-!
# Events that describe a tree

Some construction events `Describe` a tree if, those without effect left aside, they are the events
of the tree, which is a well-formed branch.  These are the events that are balanced
(`Event.balanced_iff`), and `Tree.ofEvents` makes the tree of them (`Tree.ofEvents_eq_ok_iff`).  It
gives the reason for which all others are refused (`Tree.ofEvents_eq_error_iff`).

The leaves of the tree are the tokens of the events in order, those without text left out.
-/

namespace Fettle

namespace Event

/-- Whether an event has an effect; a leaf with no text is passed over. -/
def counts : Event → Bool
  | .token _ text => text ≠ ""
  | _ => true

/-- The leaf that an event makes. -/
def token? : Event → Option (Kind × String)
  | .token k s => if s = "" then none else some (k, s)
  | .start _ _ => none
  | .finish => none

/-- The leaves that events make. -/
def tokens (es : List Event) : List (Kind × String) :=
  es.filterMap token?

/-- Some events, those without effect left aside, are the events of a tree that is a branch and
well formed. -/
structure Describe (es : List Event) (tree : NewNode) : Prop where
  events : es.filter counts = tree.toForest.events
  branch : tree.leafText? = none
  wellFormed : tree.WellFormed

theorem filter_token {k : Kind} {s : String} (hs : s ≠ "") (es : List Event) :
  (.token k s :: es : List Event).filter counts = .token k s :: es.filter counts
  := List.filter_cons_of_pos (decide_eq_true hs)

theorem filter_token_empty (k : Kind) (es : List Event) :
  (.token k "" :: es : List Event).filter counts = es.filter counts
  := rfl

/-! ### Tokens -/

@[simp]
theorem tokens_append (es fs : List Event) :
  tokens (es ++ fs) = tokens es ++ tokens fs
  := List.filterMap_append

theorem tokens_token {k : Kind} {s : String} (hs : s ≠ "") (es : List Event) :
  tokens (.token k s :: es) = (k, s) :: tokens es
  := by
  rw [tokens, List.filterMap_cons, token?, if_neg hs]
  rfl

@[simp]
theorem tokens_start (k : Kind) (l : Option String) (es : List Event) :
  tokens (.start k l :: es) = tokens es
  := rfl

@[simp]
theorem tokens_finish (es : List Event) :
  tokens (.finish :: es) = tokens es
  := rfl

/-- Events without effect make no leaf. -/
theorem tokens_filter (es : List Event) :
  tokens (es.filter counts) = tokens es
  := by
  induction es with
  | nil => rfl
  | cons e es ih =>
    cases e with
    | start k l => exact ih
    | finish => exact ih
    | token k s =>
      by_cases hs : s = ""
      · subst hs
        exact ih
      · rw [filter_token hs, tokens_token hs, tokens_token hs, ih]

end Event

open Event

namespace Progress

variable {p : Progress} {e : Event}

/-! ### Events of a tree -/

theorem step_of_not_counts (he : e.counts = false) :
  p.step e = .ok p
  := by
  cases e with
  | token k s =>
    have hs : s = "" := by simpa [counts] using he
    simp [Progress.step, hs]
  | start k l => cases he
  | finish => cases he

/-- Events without effect can be left aside. -/
theorem run_filter (es : List Event) :
  p.run (es.filter counts) = p.run es
  := by
  induction es generalizing p with
  | nil => rfl
  | cons e es ih =>
    cases he : e.counts with
    | false =>
      rw [List.filter_cons_of_neg (by simp [he]), ih, run, step_of_not_counts he]
    | true =>
      rw [List.filter_cons_of_pos he, run, run]
      cases p.step e with
      | ok q => apply ih
      | error fault => rfl

/-- The events of a forest leave the construction where it is. -/
theorem run_events {f : Draft} (hf : f.fault? = none) (outer : Nat) (es : List Event) :
  (inside outer).run (f.events ++ es) = (inside outer).run es
  := by
  induction f generalizing outer es with
  | nil => rfl
  | leaf i k s rest ih =>
    rw [Forest.fault?, Option.or_eq_none_iff] at hf
    have hs := (leafFault?_eq_none_iff.mp hf.1).2.1
    rw [Forest.events, List.cons_append, run]
    simp only [Progress.step, if_neg hs, hf.1]
    apply ih hf.2
  | branch i k l cs rest ihc ih =>
    rw [Forest.fault?, Option.or_eq_none_iff, Option.or_eq_none_iff] at hf
    rw [Forest.events, List.cons_append, run, Progress.step, hf.1]
    dsimp only [Progress.opened]
    rw [List.append_assoc, ihc hf.2.1, List.cons_append, run]
    apply ih hf.2.2

end Progress

/-- Events without effect are passed over when the others are put together. -/
theorem assemble_filter (es : List Event) :
  assemble (es.filter counts) = assemble es
  := by
  induction es with
  | nil => rfl
  | cons e es ih =>
    cases e with
    | start k l => rw [List.filter_cons_of_pos rfl, assemble, assemble, ih]
    | finish => rw [List.filter_cons_of_pos rfl, assemble, assemble, ih]
    | token k s =>
      by_cases hs : s = ""
      · rw [hs, filter_token_empty, ih, assemble, if_pos rfl]
      · rw [filter_token hs, assemble, assemble, ih]

namespace Progress

/-- Before and after the root there is no token with a text. -/
theorem eq_empty_of_run {q : Progress} {k : Kind} {es : List Event} {s : String}
    (h : p.run (.token k s :: es) = .ok q) (hout : ∀ outer, p ≠ inside outer) :
  s = ""
  := by
  by_contra hs
  cases p with
  | fresh =>
    rw [run, Progress.step, if_neg hs] at h
    cases h
  | inside outer => exact hout outer rfl
  | closed =>
    rw [run, Progress.step, if_neg hs] at h
    cases h

/-- After the root no event with an effect comes. -/
theorem filter_of_run_closed {es : List Event} (h : closed.run es = .ok closed) :
  es.filter counts = [] ∧ assemble es = (.nil, [])
  := by
  induction es with
  | nil => exact ⟨rfl, rfl⟩
  | cons e es ih =>
    cases e with
    | start k l =>
      obtain ⟨-, p, hp, -⟩ := run_start h
      cases hp
    | finish => cases h
    | token k s =>
      obtain rfl := eq_empty_of_run h nofun
      rw [filter_token_empty, assemble, if_pos rfl]
      exact ih (run_token h)

/-- The events up to the end of the root are those of the forests in the open branches. -/
theorem filter_of_run {outer : Nat} {es : List Event}
    (h : (inside outer).run es = .ok closed) :
  ∃ fs : List Draft, fs.length = outer ∧ (assemble es).2 = fs ++ [.nil]
    ∧ es.filter counts = (assemble es).1.events
      ++ (fs.flatMap fun f => Event.finish :: f.events) ++ [.finish]
  := by
  -- `fs` are the forests that come after branches opened earlier; a start takes the first of them
  -- as what comes after its own branch
  induction es generalizing outer with
  | nil => cases h
  | cons e es ih =>
    cases e with
    | start k l =>
      obtain ⟨-, p, hp, hrun⟩ := run_start h
      obtain rfl := Except.ok.inj hp
      obtain ⟨fs, hlength, hfs, hfilter⟩ := ih hrun
      cases fs with
      | nil => cases hlength
      | cons f fs =>
        have hassemble : assemble es = ((assemble es).1, f :: (fs ++ [.nil])) := by
          rw [← List.cons_append, ← hfs]
        refine ⟨fs, Nat.succ.inj hlength, ?_, ?_⟩
        · rw [assemble, hassemble]
        · rw [List.filter_cons_of_pos rfl, hfilter, assemble, hassemble]
          simp [Forest.events]
    | finish =>
      cases outer with
      | zero =>
        obtain ⟨hfilter, hassemble⟩ := filter_of_run_closed h
        refine ⟨[], rfl, ?_, ?_⟩
        · rw [assemble, hassemble]
          rfl
        · rw [List.filter_cons_of_pos rfl, hfilter, assemble]
          rfl
      | succ outer =>
        obtain ⟨fs, hlength, hfs, hfilter⟩ := @ih outer h
        refine ⟨(assemble es).1 :: fs, congrArg Nat.succ hlength, ?_, ?_⟩
        · rw [assemble, hfs]
          rfl
        · rw [List.filter_cons_of_pos rfl, hfilter, assemble]
          simp [Forest.events]
    | token k s =>
      obtain ⟨fs, hlength, hfs, hfilter⟩ := ih (run_token h)
      use fs, hlength
      rw [assemble]
      by_cases hs : s = ""
      · rw [hs, filter_token_empty, if_pos rfl]
        exact ⟨hfs, hfilter⟩
      · rw [filter_token hs, if_neg hs, hfilter]
        exact ⟨hfs, rfl⟩

/-- Events that take a construction from its start to the end of the root are those of a tree. -/
theorem exists_describe {es : List Event} (h : fresh.run es = .ok closed) :
  ∃ k l cs, Describe es (.branch () k l cs)
  := by
  induction es with
  | nil => cases h
  | cons e es ih =>
    cases e with
    | finish => cases h
    | token k s =>
      obtain ⟨k', l, cs, hdescribe⟩ := ih (run_token h)
      obtain rfl := eq_empty_of_run h nofun
      use k', l, cs
      constructor
      · rw [filter_token_empty, hdescribe.events]
      · exact hdescribe.branch
      · exact hdescribe.wellFormed
    | start k l =>
      obtain ⟨hk, p, hp, hrun⟩ := run_start h
      obtain rfl := Except.ok.inj hp
      obtain ⟨fs, hlength, -, hfilter⟩ := filter_of_run hrun
      obtain rfl := List.length_eq_zero_iff.mp hlength
      use k, l, (assemble es).1
      constructor
      · rw [List.filter_cons_of_pos rfl, hfilter, Node.toForest, Forest.events]
        simp [Forest.events]
      · rfl
      · rw [← Node.fault?_eq_none_iff, Node.fault?, Node.toForest, Forest.fault?, hk,
          (fault?_assemble hrun).1]
        rfl

end Progress

namespace Event.Describe

variable {es : List Event} {k : Kind} {l : Option String} {cs : Draft}
  (h : Describe es (.branch () k l cs))

include h

theorem fault? :
  (Forest.branch () k l cs .nil).fault? = none
  := Node.fault?_eq_none_iff.mpr h.wellFormed

/-- The events of a tree are put together to it. -/
theorem assemble_eq :
  assemble es = (.branch () k l cs .nil, [])
  := by
  have hassemble := assemble_events_append h.fault? []
  rw [List.append_nil] at hassemble
  rw [← assemble_filter, h.events]
  exact hassemble

/-- The events of a tree take a construction from its start to the end of the root. -/
theorem run_eq :
  Progress.fresh.run es = .ok .closed
  := by
  have hfault := h.fault?
  rw [Forest.fault?, Option.or_eq_none_iff, Option.or_eq_none_iff] at hfault
  rw [← Progress.run_filter, h.events, Node.toForest, Forest.events, Progress.run, Progress.step,
    hfault.1]
  dsimp only [Progress.opened]
  rw [Progress.run_events hfault.2.1]
  rfl

end Event.Describe

/-- Balanced events are those that describe a tree. -/
theorem Event.balanced_iff {es : List Event} :
  Balanced es ↔ ∃ tree, Describe es tree
  := by
  rw [← Progress.run_eq_closed_iff]
  constructor
  · intro h
    obtain ⟨k, l, cs, hdescribe⟩ := Progress.exists_describe h
    exact ⟨_, hdescribe⟩
  · rintro ⟨tree, h⟩
    cases tree with
    | leaf i k s => cases h.branch
    | branch i k l cs => exact h.run_eq

namespace Tree

variable {es : List Event}

/-- A tree is made of the events that describe it. -/
theorem ofEvents_eq_ok_iff {t : Tree} :
  ofEvents es = .ok t ↔ ∃ k l cs, Describe es (.branch () k l cs) ∧ t = ofRoot k l cs
  := by
  constructor
  · intro ht
    cases hrun : Progress.fresh.run es with
    | error fault => simp [ofEvents, hrun] at ht
    | ok p =>
      cases p with
      | fresh => simp [ofEvents, hrun] at ht
      | inside outer => simp [ofEvents, hrun] at ht
      | closed =>
        obtain ⟨k, l, cs, h⟩ := Progress.exists_describe hrun
        use k, l, cs, h
        simpa [ofEvents, hrun, h.assemble_eq] using ht.symm
  · rintro ⟨k, l, cs, h, rfl⟩
    simp [ofEvents, h.run_eq, h.assemble_eq]

/-- All other events are refused, and the fault is that of the first event out of place. -/
theorem ofEvents_eq_error_iff {fault : Fault} :
  ofEvents es = .error fault ↔ Refused es fault
  := by
  constructor
  · intro hfault
    have houtcome := Progress.outcome_run es
    rw [ofEvents] at hfault
    cases hrun : Progress.fresh.run es with
    | error fault' =>
      rw [hrun] at hfault houtcome
      obtain rfl := Except.error.inj hfault
      cases houtcome with
      | error hes hbefore he => exact .misplaced hes hbefore he
    | ok p =>
      rw [hrun] at hfault houtcome
      cases houtcome with
      | ok h hafter =>
        cases p with
        | fresh =>
          obtain rfl := Except.error.inj hfault
          exact .noRoot h hafter.1
        | inside outer =>
          rw [Progress.After] at hafter
          have hcount : starts es - finishes es = outer + 1 := by omega
          obtain rfl := Except.error.inj hfault
          rw [← hcount]
          exact .leftOpen h (by omega)
        | closed =>
          obtain ⟨k, l, cs, hdescribe⟩ := Progress.exists_describe hrun
          simp [hdescribe.assemble_eq] at hfault
  · intro h
    rw [ofEvents]
    cases h with
    | misplaced hes hbefore he => rw [hes, Progress.run_of_misplaced hbefore he]
    | leftOpen h hopen =>
      obtain ⟨p, hp, hafter⟩ := Progress.exists_run h
      have hcount : starts es - finishes es = starts es - finishes es - 1 + 1 := by omega
      rw [hp, hafter.eq_inside hopen, hcount]
      rfl
    | noRoot h hnone =>
      obtain ⟨p, hp, hafter⟩ := Progress.exists_run h
      rw [hp]
      cases p with
      | fresh => rfl
      | inside outer =>
        rw [Progress.After] at hafter
        omega
      | closed =>
        rw [Progress.After] at hafter
        omega

end Tree

/-! ### Leaves -/

/-- The kinds and texts of the leaves of a forest. -/
def Forest.tokens {ι : Type} (f : Forest ι) : List (Kind × String) :=
  f.leaves.map fun l => (l.kind, l.text)

theorem Forest.tokens_leaf {ι : Type} (i : ι) (k : Kind) (s : String) (rest : Forest ι) :
  (leaf i k s rest).tokens = (k, s) :: rest.tokens
  := rfl

theorem Forest.tokens_branch {ι : Type} (i : ι) (k : Kind) (l : Option String)
    (cs rest : Forest ι) :
  (branch i k l cs rest).tokens = cs.tokens ++ rest.tokens
  := List.map_append

theorem Forest.tokens_number {ι : Type} (f : Forest ι) (n : Nat) :
  (f.number n).tokens = f.tokens
  := by
  induction f generalizing n with
  | nil => rfl
  | leaf i k s rest ih => rw [number, tokens_leaf, tokens_leaf, ih]
  | branch i k l cs rest ihc ih => rw [number, tokens_branch, tokens_branch, ihc, ih]

/-- The events of a forest make its leaves. -/
theorem Forest.tokens_events {f : Draft} (hf : f.fault? = none) :
  Event.tokens f.events = f.tokens
  := by
  induction f with
  | nil => rfl
  | leaf i k s rest ih =>
    rw [fault?, Option.or_eq_none_iff] at hf
    have hs := (leafFault?_eq_none_iff.mp hf.1).2.1
    rw [events, Event.tokens_token hs, tokens_leaf, ih hf.2]
  | branch i k l cs rest ihc ih =>
    rw [fault?, Option.or_eq_none_iff, Option.or_eq_none_iff] at hf
    rw [events, Event.tokens_start, Event.tokens_append, Event.tokens_finish, tokens_branch,
      ihc hf.2.1, ih hf.2.2]

namespace Tree

variable {es : List Event}

/-- The leaves of what is described are the tokens in order. -/
theorem tokens_of_describe {k : Kind} {l : Option String} {cs : Draft}
    (h : Describe es (.branch () k l cs)) :
  (ofRoot k l cs).attached.tokens = Event.tokens es
  := by
  rw [← Event.tokens_filter, h.events, Node.toForest, Forest.tokens_events h.fault?, attached,
    Forest.tokens_branch, Forest.tokens_branch, ← cs.tokens_number 1]
  rfl

/-- Events that close what they open make a tree of their tokens. -/
theorem exists_ofEvents (h : Progress.fresh.run es = .ok .closed) :
  ∃ t, ofEvents es = .ok t ∧ t.attached.tokens = Event.tokens es
  := by
  obtain ⟨k, l, cs, hdescribe⟩ := Progress.exists_describe h
  use ofRoot k l cs, ofEvents_eq_ok_iff.mpr ⟨k, l, cs, hdescribe, rfl⟩
  exact tokens_of_describe hdescribe

end Tree

end Fettle
