import Fettle.Order
import Mathlib.Data.List.Lex
import Mathlib.Data.List.Nodup
import Mathlib.Data.Prod.Lex
import Mathlib.Data.String.Basic
import Mathlib.Tactic.Use

/-!
# The queue of rules

A queue *fits* the rules still to come if it holds them all, those with no predecessor among them
as free and the others with the number of their predecessors.  The queue of some rules fits them
(`Queue.fits_ofRules`), and the queue after a free rule has come fits the others
(`Queue.Fits.next`).

So `arrange` always takes the least of the rules none of those still to come has to precede, until
there is none: `Queue.Fits.arranged`.
-/

namespace Fettle

/-! ### Ids in ascending order -/

theorem RuleId.text_injective :
  Function.Injective RuleId.text
  := by
  rintro ⟨s⟩ ⟨t⟩ rfl
  rfl

theorem pairwise_insertId {a : RuleId} {ids : List RuleId}
    (h : ids.Pairwise fun b c => b.text < c.text) :
  (insertId a ids).Pairwise fun b c => b.text < c.text
  := by
  induction ids with
  | nil => apply List.pairwise_singleton
  | cons b ids ih =>
    obtain ⟨hb, hids⟩ := List.pairwise_cons.mp h
    rw [insertId]
    split
    · rename_i hlt
      apply List.pairwise_cons.mpr ⟨_, h⟩
      intro c hc
      rcases List.mem_cons.mp hc with rfl | hc
      · exact hlt
      · exact lt_trans hlt (hb c hc)
    · rename_i hlt
      split
      · exact h
      · rename_i hne
        apply List.pairwise_cons.mpr ⟨_, ih hids⟩
        intro c hc
        rcases mem_insertId.mp hc with rfl | hc
        · apply lt_of_le_of_ne (not_lt.mp hlt)
          intro heq
          exact hne (RuleId.text_injective heq.symm)
        · exact hb c hc

theorem pairwise_sortedIds (ids : List RuleId) :
  (sortedIds ids).Pairwise fun b c => b.text < c.text
  := by
  induction ids with
  | nil => apply List.Pairwise.nil
  | cons a ids ih => apply pairwise_insertId ih

theorem nodup_sortedIds (ids : List RuleId) :
  (sortedIds ids).Nodup
  := by
  apply (pairwise_sortedIds ids).imp
  rintro b c hlt rfl
  exact lt_irrefl _ hlt

/-! ### The order of free rules -/

namespace Registered

/-- What the order of free rules goes by: whether a rule runs late, and then its id. -/
def key (r : Registered) : Bool ×ₗ String :=
  toLex (r.late, r.id.text)

theorem precedes_iff {a b : Registered} :
  a.precedes b = true ↔ a.key < b.key
  := by
  have hlt : a.id < b.id ↔ a.id.text < b.id.text := Iff.rfl
  rw [precedes, key, key, Prod.Lex.toLex_lt_toLex]
  cases a.late <;> cases b.late <;> simp [hlt]

/-- Rules with the same key have the same id. -/
theorem id_of_key {a b : Registered} (h : a.key = b.key) :
  a.id = b.id
  := RuleId.text_injective (Prod.mk.inj (toLex_inj.mp h)).2

/-- Among rules with different ids, a rule is known by its id. -/
theorem eq_of_id {rules : List Registered} (h : (rules.map Registered.id).Nodup)
    {a b : Registered} (ha : a ∈ rules) (hb : b ∈ rules) (hid : a.id = b.id) :
  a = b
  := List.inj_on_of_nodup_map h ha hb hid

end Registered

theorem least?_eq_none_iff {rules : List Registered} :
  least? rules = none ↔ rules = []
  := by
  cases rules with
  | nil => simp [least?]
  | cons r rs =>
    rw [least?]
    split
    · simp
    · split <;> simp

/-- The first rule of a list is one of the list, and its key is the least. -/
theorem least?_spec {rules : List Registered} {m : Registered} (h : least? rules = some m) :
  m ∈ rules ∧ ∀ p ∈ rules, m.key ≤ p.key
  := by
  induction rules generalizing m with
  | nil => cases h
  | cons r rs ih =>
    rw [least?] at h
    split at h
    · rename_i hnone
      obtain rfl := Option.some.inj h
      rw [least?_eq_none_iff.mp hnone]
      simp
    · rename_i k hk
      obtain ⟨hmem, hle⟩ := ih hk
      split at h
      · rename_i hlt
        obtain rfl := Option.some.inj h
        rw [Registered.precedes_iff] at hlt
        use List.mem_cons_of_mem _ hmem
        rw [List.forall_mem_cons]
        exact ⟨hlt.le, hle⟩
      · rename_i hlt
        obtain rfl := Option.some.inj h
        rw [Registered.precedes_iff, not_lt] at hlt
        use List.mem_cons_self
        rw [List.forall_mem_cons]
        exact ⟨le_refl _, fun p hp => hlt.trans (hle p hp)⟩

/-! ### Predecessors -/

/-- A rule of a list that none of the list has to precede. -/
def IsFree (rest : List Registered) (r : Registered) : Prop :=
  r ∈ rest ∧ ∀ p ∈ rest, p.id ∉ r.runAfter

theorem IsFree.perm {rest rest' : List Registered} (h : rest.Perm rest') {r : Registered} :
  IsFree rest r ↔ IsFree rest' r
  := by
  simp only [IsFree, h.mem_iff]

theorem mem_predecessors {rest : List Registered} {r : Registered} {id : RuleId} :
  id ∈ predecessors rest r ↔ id ∈ r.runAfter ∧ ∃ p ∈ rest, p.id = id
  := by
  simp [predecessors]

theorem nodup_predecessors (rest : List Registered) (r : Registered) :
  (predecessors rest r).Nodup
  := nodup_sortedIds _

/-- A rule of a list is free exactly if it has no predecessor there. -/
theorem isFree_iff_predecessors {rest : List Registered} {r : Registered} (hr : r ∈ rest) :
  IsFree rest r ↔ (predecessors rest r).length = 0
  := by
  rw [List.length_eq_zero_iff, List.eq_nil_iff_forall_not_mem]
  constructor
  · rintro ⟨-, hfree⟩ id hid
    obtain ⟨hafter, p, hp, rfl⟩ := mem_predecessors.mp hid
    exact hfree p hp hafter
  · intro hnone
    use hr
    intro p hp hafter
    exact hnone p.id (mem_predecessors.mpr ⟨hafter, p, hp, rfl⟩)

/-- The rules other than one. -/
def others (rest : List Registered) (r : Registered) : List Registered :=
  rest.filter fun p => p.id ≠ r.id

theorem mem_others {rest : List Registered} {r p : Registered} :
  p ∈ others rest r ↔ p ∈ rest ∧ p.id ≠ r.id
  := by
  simp [others]

/-- When a rule has come, each rule that had to wait for it has one predecessor less. -/
theorem length_predecessors_others {rest : List Registered} {r : Registered} (hr : r ∈ rest)
    (w : Registered) :
  (predecessors (others rest r) w).length
    = if w.runAfter.contains r.id then (predecessors rest w).length - 1
      else (predecessors rest w).length
  := by
  have hperm : (predecessors (others rest r) w).Perm ((predecessors rest w).erase r.id) := by
    apply (List.perm_ext_iff_of_nodup (nodup_predecessors _ w)
      ((nodup_predecessors rest w).erase _)).mpr
    intro id
    rw [(nodup_predecessors rest w).mem_erase_iff, mem_predecessors, mem_predecessors]
    constructor
    · rintro ⟨hafter, p, hp, rfl⟩
      obtain ⟨hp, hne⟩ := mem_others.mp hp
      exact ⟨hne, hafter, p, hp, rfl⟩
    · rintro ⟨hne, hafter, p, hp, rfl⟩
      exact ⟨hafter, p, mem_others.mpr ⟨hp, hne⟩, rfl⟩
  have hmem : r.id ∈ predecessors rest w ↔ w.runAfter.contains r.id = true := by
    rw [mem_predecessors, List.contains_iff_mem]
    exact ⟨And.left, fun hafter => ⟨hafter, r, hr, rfl⟩⟩
  rw [hperm.length_eq, List.length_erase]
  simp only [hmem]

section

variable {rest : List Registered} {r : Registered} (h : (rest.map Registered.id).Nodup)
  (hr : r ∈ rest)

include h hr

theorem perm_cons_others :
  (r :: others rest r).Perm rest
  := by
  have hnodup := h.of_map
  have hnot : r ∉ others rest r := fun hmem => (mem_others.mp hmem).2 rfl
  have hcons : (r :: others rest r).Nodup := List.nodup_cons.mpr ⟨hnot, hnodup.filter _⟩
  apply (List.perm_ext_iff_of_nodup hcons hnodup).mpr
  intro p
  rw [List.mem_cons, mem_others]
  constructor
  · rintro (rfl | ⟨hp, -⟩)
    · exact hr
    · exact hp
  · intro hp
    by_cases hid : p.id = r.id
    · exact .inl (Registered.eq_of_id h hp hr hid)
    · exact .inr ⟨hp, hid⟩

omit hr in
theorem nodup_others :
  ((others rest r).map Registered.id).Nodup
  := h.sublist (List.filter_sublist.map _)

end

/-- A free rule stays free when another has come. -/
theorem IsFree.others {rest : List Registered} {r p : Registered} (hp : IsFree rest p)
    (hne : p.id ≠ r.id) :
  IsFree (others rest r) p
  := by
  use mem_others.mpr ⟨hp.1, hne⟩
  intro q hq
  apply hp.2 q (mem_others.mp hq).1

/-! ### Queues -/

@[simp]
theorem Waiting.rule_after (id : RuleId) (w : Waiting) :
  (w.after id).rule = w.rule
  := by
  rw [after]
  split <;> rfl

theorem Waiting.degree_after (id : RuleId) (w : Waiting) :
  (w.after id).degree
    = if w.rule.runAfter.contains id then w.degree - 1 else w.degree
  := by
  rw [after]
  split <;> rfl

namespace Queue

/-- A queue holds the rules still to come, the free ones as free and the others with the number
of their predecessors. -/
structure Fits (rest : List Registered) (q : Queue) : Prop where
  perm : (q.free ++ q.waiting.map Waiting.rule).Perm rest
  free : ∀ r ∈ q.free, IsFree rest r
  waiting : ∀ w ∈ q.waiting,
    w.degree = (predecessors rest w.rule).length ∧ w.degree ≠ 0

theorem fits_release {rest free : List Registered} {ws : List Waiting}
    (hperm : (free ++ ws.map Waiting.rule).Perm rest) (hfree : ∀ r ∈ free, IsFree rest r)
    (hws : ∀ w ∈ ws, w.degree = (predecessors rest w.rule).length) :
  Fits rest (release free ws)
  := by
  constructor
  · have hsplit := List.filter_append_perm (fun w : Waiting => decide (w.degree = 0)) ws
    have hmap := (hsplit.map Waiting.rule).append_left free
    rw [List.map_append, ← List.append_assoc] at hmap
    rw [release]
    simpa only [ne_eq, decide_not] using hmap.trans hperm
  · intro r hr
    rcases List.mem_append.mp hr with hr | hr
    · apply hfree r hr
    · obtain ⟨w, hw, rfl⟩ := List.mem_map.mp hr
      rw [List.mem_filter, decide_eq_true_eq] at hw
      have hrest : w.rule ∈ rest :=
        hperm.subset (List.mem_append_right _ (List.mem_map_of_mem hw.1))
      rw [isFree_iff_predecessors hrest, ← hws w hw.1, hw.2]
  · intro w hw
    rw [release, List.mem_filter, decide_eq_true_eq] at hw
    exact ⟨hws w hw.1, hw.2⟩

/-- The queue of some rules fits them. -/
theorem fits_ofRules (rules : List Registered) :
  Fits rules (ofRules rules)
  := by
  apply fits_release
  · rw [List.nil_append, List.map_map]
    apply List.Perm.of_eq
    apply List.map_id
  · intro r hr
    cases hr
  · intro w hw
    obtain ⟨r, -, rfl⟩ := List.mem_map.mp hw
    rfl

namespace Fits

variable {rest : List Registered} {q : Queue} (hq : q.Fits rest)

include hq

theorem not_isFree {w : Waiting} (hw : w ∈ q.waiting) :
  ¬ IsFree rest w.rule
  := by
  intro hfree
  obtain ⟨hdegree, hne⟩ := hq.waiting w hw
  rw [isFree_iff_predecessors hfree.1, ← hdegree] at hfree
  exact hne hfree

/-- The rules that are free in the queue are all that are. -/
theorem mem_free_iff {r : Registered} :
  r ∈ q.free ↔ IsFree rest r
  := by
  constructor
  · apply hq.free
  · intro hfree
    rcases List.mem_append.mp (hq.perm.symm.subset hfree.1) with hr | hr
    · exact hr
    · obtain ⟨w, hw, rfl⟩ := List.mem_map.mp hr
      exact absurd hfree (hq.not_isFree hw)

variable (h : (rest.map Registered.id).Nodup)

include h

/-- The queue after a free rule has come fits the other rules. -/
theorem next {r : Registered} (hr : r ∈ q.free) :
  (q.next r).Fits (others rest r)
  := by
  have hfree := hq.free r hr
  have hother : ∀ w ∈ q.waiting, w.rule.id ≠ r.id := by
    intro w hw hid
    have hmem := hq.perm.subset (List.mem_append_right _ (List.mem_map_of_mem hw))
    apply hq.not_isFree hw
    rw [Registered.eq_of_id h hmem hfree.1 hid]
    exact hfree
  apply fits_release
  · -- no rule that waits is the one that has come
    have hkept : (q.waiting.map Waiting.rule).filter (fun p => p.id ≠ r.id)
        = q.waiting.map Waiting.rule := by
      rw [List.filter_eq_self]
      intro p hp
      obtain ⟨w, hw, rfl⟩ := List.mem_map.mp hp
      simpa using hother w hw
    have hfilter := hq.perm.filter fun p => p.id ≠ r.id
    rw [List.filter_append, hkept] at hfilter
    have hrules : q.waiting.map (Waiting.rule ∘ Waiting.after r.id)
        = q.waiting.map Waiting.rule := by
      apply List.map_congr_left
      intro w _
      apply Waiting.rule_after
    rw [List.map_map, hrules]
    exact hfilter
  · intro p hp
    rw [List.mem_filter, decide_eq_true_eq] at hp
    apply (hq.free p hp.1).others hp.2
  · intro w hw
    obtain ⟨v, hv, rfl⟩ := List.mem_map.mp hw
    rw [Waiting.degree_after, Waiting.rule_after, length_predecessors_others hfree.1,
      (hq.waiting v hv).1]

end Fits

end Queue

/-! ### Arranging rules -/

/-- Some rules are put in order, and others left: each rule that comes is the one of least key
among those that are free then, and none of those left is free. -/
structure Arranged (rest order left : List Registered) : Prop where
  perm : (order ++ left).Perm rest
  least : ∀ a r b, order = a ++ r :: b → IsFree (r :: b ++ left) r
    ∧ ∀ p, IsFree (r :: b ++ left) p → r.key ≤ p.key
  stuck : ∀ p, ¬ IsFree left p

/-- The rules of a queue are put in order, if they have different ids. -/
theorem Queue.Fits.arranged {n : Nat} {rest : List Registered} {q : Queue} (hq : q.Fits rest)
    (h : (rest.map Registered.id).Nodup) (hn : rest.length ≤ n) :
  Arranged rest (arrange n q).1 (arrange n q).2
  := by
  induction n generalizing rest q with
  | zero =>
    obtain rfl := List.length_eq_zero_iff.mp (Nat.le_zero.mp hn)
    rw [arrange, hq.perm.eq_nil]
    constructor
    · apply List.Perm.refl
    · intro a r b heq
      simp at heq
    · rintro p ⟨hp, -⟩
      cases hp
  | succ n ih =>
    rw [arrange]
    split
    · rename_i hnone
      have hfree := least?_eq_none_iff.mp hnone
      have hperm := hq.perm
      rw [hfree, List.nil_append] at hperm
      constructor
      · exact hperm
      · intro a r b heq
        simp at heq
      · intro p hp
        rw [IsFree.perm hperm, ← hq.mem_free_iff, hfree] at hp
        cases hp
    · rename_i r hr
      obtain ⟨hmem, hle⟩ := least?_spec hr
      have hfree := hq.free r hmem
      have hcons := perm_cons_others h hfree.1
      have hlength := hcons.length_eq
      rw [List.length_cons] at hlength
      have hrest := ih (hq.next h hmem) (nodup_others h) (by omega)
      have hperm : (r :: (arrange n (q.next r)).1 ++ (arrange n (q.next r)).2).Perm rest :=
        (hrest.perm.cons r).trans hcons
      constructor
      · exact hperm
      · intro a s b heq
        cases a with
        | nil =>
          obtain ⟨rfl, rfl⟩ := List.cons.inj heq
          constructor
          · rwa [IsFree.perm hperm]
          · intro p hp
            rw [IsFree.perm hperm, ← hq.mem_free_iff] at hp
            apply hle p hp
        | cons x a =>
          obtain ⟨rfl, htail⟩ := List.cons.inj heq
          apply hrest.least a s b htail
      · exact hrest.stuck

/-- Rules with different ids are arranged, and that is their execution order unless some are
left. -/
theorem arranged_executionOrder {rules : List Registered}
    (h : (rules.map Registered.id).Nodup) :
  ∃ order left, Arranged rules order left
    ∧ executionOrder rules
      = if left.isEmpty then .ok order else .error (.cycle (cycleIn left))
  := by
  have harranged := (Queue.fits_ofRules rules).arranged h (Nat.le_refl _)
  refine ⟨_, _, harranged, ?_⟩
  rw [executionOrder]
  split
  · rename_i order heq
    rw [heq]
    rfl
  · rename_i order left hne heq
    rw [heq]
    cases left with
    | nil => exact absurd rfl hne
    | cons r left => rfl

end Fettle
