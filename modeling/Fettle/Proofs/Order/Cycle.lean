import Fettle.Proofs.Naming.Grammar
import Fettle.Proofs.Order.Topological
import Mathlib.Data.List.Cycle

/-!
# Cycles of rules

Where a rule has to come before itself, be it through a chain of others, some rules are left when
no more are free.  They are the greatest part of the rules in which every rule has to come after
another one of the part (`Arranged.subset_left`), so they are the same however the rules are
listed.

From each rule that is left one can go on to a rule that it names and that is left too, so the
walk from the least of them comes to a rule that is on its path (`goesRound_followBack`).  What lies
between is a cycle (`GoesRound.isCycle`), which is reported with its least id first:
`executionOrder_of_cyclic`.
-/

namespace Fettle

/-- A rule of a list is named by another one as a rule to come after. -/
def IsNamedBy (rules : List Registered) (p m : RuleId) : Prop :=
  ∃ r ∈ rules, r.id = m ∧ p ∈ r.runAfter

/-- Different rules of a list, each of which names the one before it, and the first the last. -/
structure IsCycle (rules : List Registered) (members : List RuleId) : Prop where
  ne_nil : members ≠ []
  nodup : members.Nodup
  registered : ∀ id ∈ members, ∃ r ∈ rules, r.id = id
  named : (members : Cycle RuleId).Chain (IsNamedBy rules)

/-- The walk from a rule to the least of its predecessors in `rest`, and so on from there, comes
to a rule that is on the path, and the path from there on is a list of members, turned round.  The
path so far is given from its end. -/
inductive GoesRound (rest : List Registered) : List RuleId → List RuleId → Prop where
  /-- The next rule is on the path. -/
  | again {current p : RuleId} {path : List RuleId}
      (next : predecessorIn? rest current = some p) (passed : p ∈ current :: path) :
      GoesRound rest (current :: path)
        (rotateToLeast ((current :: path).takeWhile (· ≠ p) ++ [p]))
  /-- The next rule is not on the path. -/
  | onward {current p : RuleId} {path members : List RuleId}
      (next : predecessorIn? rest current = some p) (fresh : p ∉ current :: path)
      (later : GoesRound rest (p :: current :: path) members) :
      GoesRound rest (current :: path) members

/-! ### Least ids -/

theorem leastId?_eq_none_iff {ids : List RuleId} :
  leastId? ids = none ↔ ids = []
  := by
  cases ids with
  | nil => simp [leastId?]
  | cons id ids =>
    rw [leastId?]
    split
    · simp
    · split <;> simp

/-- The least id of a list is one of the list, and none of the list is less. -/
theorem leastId?_spec {ids : List RuleId} {m : RuleId} (h : leastId? ids = some m) :
  m ∈ ids ∧ ∀ id ∈ ids, m.text ≤ id.text
  := by
  induction ids generalizing m with
  | nil => cases h
  | cons id ids ih =>
    rw [leastId?] at h
    split at h
    · rename_i hnone
      obtain rfl := Option.some.inj h
      rw [leastId?_eq_none_iff.mp hnone]
      simp
    · rename_i k hk
      obtain ⟨hmem, hle⟩ := ih hk
      split at h
      · rename_i hlt
        obtain rfl := Option.some.inj h
        use List.mem_cons_of_mem _ hmem
        rw [List.forall_mem_cons]
        exact ⟨le_of_lt hlt, hle⟩
      · rename_i hlt
        obtain rfl := Option.some.inj h
        use List.mem_cons_self
        rw [List.forall_mem_cons]
        exact ⟨le_refl _, fun p hp => (not_lt.mp hlt).trans (hle p hp)⟩

/-- The least id depends on which ids a list has, and on nothing else. -/
theorem leastId?_congr {ids ids' : List RuleId} (h : ∀ id, id ∈ ids ↔ id ∈ ids') :
  leastId? ids = leastId? ids'
  := by
  cases hm : leastId? ids with
  | none =>
    obtain rfl := leastId?_eq_none_iff.mp hm
    symm
    rw [leastId?_eq_none_iff, List.eq_nil_iff_forall_not_mem]
    intro id hid
    cases (h id).mpr hid
  | some m =>
    obtain ⟨hmem, hle⟩ := leastId?_spec hm
    cases hm' : leastId? ids' with
    | none =>
      rw [leastId?_eq_none_iff.mp hm'] at h
      cases (h m).mp hmem
    | some m' =>
      obtain ⟨hmem', hle'⟩ := leastId?_spec hm'
      congr 1
      apply RuleId.text_injective
      apply le_antisymm
      · apply hle m' ((h m').mpr hmem')
      · apply hle' m ((h m).mp hmem)

/-- Turning a list round to its least id is a rotation. -/
theorem isRotated_rotateToLeast (ids : List RuleId) :
  rotateToLeast ids ~r ids
  := by
  rw [rotateToLeast]
  split
  · apply List.IsRotated.refl
  · rename_i m _
    have hrotated : ids.dropWhile (· ≠ m) ++ ids.takeWhile (· ≠ m)
        ~r ids.takeWhile (· ≠ m) ++ ids.dropWhile (· ≠ m) := List.isRotated_append
    rwa [List.takeWhile_append_dropWhile] at hrotated

theorem head?_rotateToLeast {ids : List RuleId} {first : RuleId}
    (h : (rotateToLeast ids).head? = some first) :
  ∀ id ∈ ids, first ≤ id
  := by
  rw [rotateToLeast] at h
  split at h
  · rename_i hnone
    rw [leastId?_eq_none_iff.mp hnone] at h
    cases h
  · rename_i m hm
    obtain ⟨hmem, hle⟩ := leastId?_spec hm
    obtain ⟨u, v, rfl, hu⟩ := List.eq_append_cons_of_mem hmem
    rw [dropWhile_ne_append hu] at h
    obtain rfl := Option.some.inj h
    exact hle

/-! ### Predecessors -/

/-- Among rules with different ids, a rule is found by its id. -/
theorem Registered.find?_id_iff {rules : List Registered} (h : (rules.map Registered.id).Nodup)
    {m : RuleId} {r : Registered} :
  rules.find? (fun r => r.id = m) = some r ↔ r ∈ rules ∧ r.id = m
  := by
  constructor
  · intro hr
    have hid := List.find?_some hr
    rw [decide_eq_true_eq] at hid
    exact ⟨List.mem_of_find?_eq_some hr, hid⟩
  · rintro ⟨hr, rfl⟩
    cases hfind : rules.find? (fun p => p.id = r.id) with
    | none =>
      have hnot := List.find?_eq_none.mp hfind r hr
      simp at hnot
    | some p =>
      have hid := List.find?_some hfind
      rw [decide_eq_true_eq] at hid
      rw [Registered.eq_of_id h (List.mem_of_find?_eq_some hfind) hr hid]

/-- The predecessor of a rule is one of the rules that it names. -/
theorem isNamedBy_of_predecessorIn? {rest : List Registered} {p m : RuleId}
    (h : predecessorIn? rest m = some p) :
  p ∈ rest.map Registered.id ∧ IsNamedBy rest p m
  := by
  obtain ⟨r, hfind, hleast⟩ := Option.bind_eq_some_iff.mp h
  have hid := List.find?_some hfind
  rw [decide_eq_true_eq] at hid
  obtain ⟨hmem, -⟩ := leastId?_spec hleast
  obtain ⟨hafter, hrest⟩ := List.mem_filter.mp hmem
  rw [List.contains_iff_mem] at hrest
  exact ⟨hrest, r, List.mem_of_find?_eq_some hfind, hid, hafter⟩

/-- Where no rule is free, every rule has a predecessor. -/
theorem exists_predecessorIn? {rest : List Registered} (hstuck : ∀ r, ¬ IsFree rest r)
    {m : RuleId} (hm : m ∈ rest.map Registered.id) :
  ∃ p, predecessorIn? rest m = some p
  := by
  cases hfind : rest.find? (fun r => r.id = m) with
  | none =>
    obtain ⟨r, hr, hid⟩ := List.mem_map.mp hm
    have hnot := List.find?_eq_none.mp hfind r hr
    rw [decide_eq_true_eq] at hnot
    exact absurd hid hnot
  | some r =>
    have hr := List.mem_of_find?_eq_some hfind
    have hsome : ∃ q ∈ rest, q.id ∈ r.runAfter := by
      by_contra hnone
      push Not at hnone
      apply hstuck r ⟨hr, hnone⟩
    obtain ⟨q, hq, hafter⟩ := hsome
    rw [← Option.isSome_iff_exists, Option.isSome_iff_ne_none]
    intro hnone
    rw [predecessorIn?, hfind] at hnone
    have hnil := leastId?_eq_none_iff.mp hnone
    have hmem : q.id ∈ r.runAfter.filter fun p => (rest.map Registered.id).contains p := by
      rw [List.mem_filter, List.contains_iff_mem]
      exact ⟨hafter, List.mem_map_of_mem hq⟩
    rw [hnil] at hmem
    cases hmem

/-! ### Walks -/

/-- A walk among rules none of which is free closes before the number of steps is used up, which is
that of the rules that are not on the path, and one more. -/
theorem goesRound_followBack {rest : List Registered} (hstuck : ∀ r, ¬ IsFree rest r) {n : Nat}
    {current : RuleId} {path : List RuleId} (hnodup : (current :: path).Nodup)
    (hsub : current :: path ⊆ rest.map Registered.id)
    (hn : rest.length < n + (current :: path).length) :
  GoesRound rest (current :: path) (followBack rest n current (current :: path))
  := by
  induction n generalizing current path with
  | zero =>
    have hle := (hnodup.subperm hsub).length_le
    rw [List.length_map] at hle
    omega
  | succ n ih =>
    obtain ⟨p, hp⟩ := exists_predecessorIn? hstuck (hsub List.mem_cons_self)
    rw [followBack, hp]
    dsimp only
    split
    · rename_i hpassed
      apply GoesRound.again hp (List.contains_iff_mem.mp hpassed)
    · rename_i hfresh
      rw [List.contains_iff_mem] at hfresh
      apply GoesRound.onward hp hfresh
      apply ih
      · apply List.nodup_cons.mpr ⟨hfresh, hnodup⟩
      · apply List.cons_subset.mpr ⟨(isNamedBy_of_predecessorIn? hp).1, hsub⟩
      · rw [List.length_cons]
        omega

namespace IsCycle

variable {rules rest : List Registered} {members members' : List RuleId}

theorem mono (h : IsCycle rest members) (hsub : rest ⊆ rules) :
  IsCycle rules members
  where
  ne_nil := h.ne_nil
  nodup := h.nodup
  registered := by
    intro id hid
    obtain ⟨r, hr, heq⟩ := h.registered id hid
    use r, hsub hr
  named := by
    apply h.named.imp
    rintro p m ⟨r, hr, heq⟩
    use r, hsub hr

/-- A cycle may begin with any of its members. -/
theorem rotated (h : IsCycle rules members) (hr : members' ~r members) :
  IsCycle rules members'
  where
  ne_nil := by
    rintro rfl
    apply h.ne_nil (List.isRotated_nil_iff'.mp hr).symm
  nodup := hr.nodup_iff.mpr h.nodup
  registered := by
    intro id hid
    apply h.registered id (hr.mem_iff.mp hid)
  named := by
    rw [Cycle.coe_eq_coe.mpr hr]
    exact h.named

end IsCycle

/-- A walk that closes has gone round a cycle. -/
theorem GoesRound.isCycle {rest : List Registered} {path members : List RuleId}
    (h : GoesRound rest path members) (hnodup : path.Nodup)
    (hsub : path ⊆ rest.map Registered.id) (hchain : path.IsChain (IsNamedBy rest)) :
  IsCycle rest members ∧ ∀ first ∈ members.head?, ∀ id ∈ members, first ≤ id
  := by
  induction h with
  | @again current p path next passed =>
    obtain ⟨u, v, hsplit, hu⟩ := List.eq_append_cons_of_mem passed
    rw [hsplit, takeWhile_ne_append hu]
    rw [hsplit, List.append_cons] at hnodup hsub hchain
    have hne : u ++ [p] ≠ [] := by
      simp
    -- the rule at the end of the path names the one that comes again
    have hnamed : ((u ++ [p] : List RuleId) : Cycle RuleId).Chain (IsNamedBy rest) := by
      rw [Cycle.chain_ne_nil _ hne, List.getLast_append_singleton, List.isChain_cons]
      refine ⟨?_, hchain.left_of_append⟩
      intro first hfirst
      have hhead : (u ++ p :: v).head? = some first := by
        rw [List.append_cons, List.head?_append, hfirst]
        rfl
      rw [← hsplit] at hhead
      obtain rfl := Option.some.inj hhead
      apply (isNamedBy_of_predecessorIn? next).2
    have hcycle : IsCycle rest (u ++ [p]) := by
      refine ⟨hne, hnodup.of_append_left, ?_, hnamed⟩
      intro id hid
      apply List.mem_map.mp (hsub (List.mem_append_left _ hid))
    have hrotated := isRotated_rotateToLeast (u ++ [p])
    use hcycle.rotated hrotated
    intro first hfirst id hid
    apply head?_rotateToLeast hfirst id (hrotated.mem_iff.mp hid)
  | onward next fresh _ ih =>
    obtain ⟨hrest, hnamed⟩ := isNamedBy_of_predecessorIn? next
    apply ih
    · apply List.nodup_cons.mpr ⟨fresh, hnodup⟩
    · apply List.cons_subset.mpr ⟨hrest, hsub⟩
    · apply List.isChain_cons_cons.mpr ⟨hnamed, hchain⟩

/-! ### The rules that are left -/

namespace Arranged

variable {rules order left : List Registered}

theorem left_subset (h : Arranged rules order left) :
  left ⊆ rules
  := by
  intro r hr
  apply h.perm.subset (List.mem_append_right _ hr)

/-- Rules none of which is free among themselves are all left. -/
theorem subset_left (h : Arranged rules order left) {part : List Registered}
    (hpart : part ⊆ rules) (hstuck : ∀ r, ¬ IsFree part r) :
  part ⊆ left
  := by
  -- each rule of the part that comes has one of the part before it
  have hnot (n : Nat) : ∀ a r b, order = a ++ r :: b → a.length = n → r ∉ part := by
    induction n using Nat.strong_induction_on with
    | _ n ih =>
      intro a r b heq hn hr
      obtain ⟨hfree, -⟩ := h.least a r b heq
      apply hstuck r
      use hr
      intro p hp hafter
      have hmem := h.perm.symm.subset (hpart hp)
      rw [heq, List.append_assoc, List.mem_append] at hmem
      rcases hmem with hmem | hmem
      · obtain ⟨a₁, a₂, rfl⟩ := List.append_of_mem hmem
        rw [List.length_append, List.length_cons] at hn
        apply ih a₁.length (by omega) a₁ p (a₂ ++ r :: b) _ rfl hp
        rw [heq, List.append_assoc, List.cons_append]
      · apply hfree.2 p hmem hafter
  intro r hr
  rcases List.mem_append.mp (h.perm.symm.subset (hpart hr)) with hmem | hmem
  · obtain ⟨a, b, heq⟩ := List.append_of_mem hmem
    exact absurd hr (hnot _ a r b heq rfl)
  · exact hmem

/-- The same rules are left, however the rules are listed. -/
theorem left_perm {rules' order' left' : List Registered} (h : Arranged rules order left)
    (h' : Arranged rules' order' left') (hperm : rules'.Perm rules)
    (hnodup : (rules.map Registered.id).Nodup) :
  left'.Perm left
  := by
  have hleft : left.Nodup := by
    apply List.Nodup.of_append_right
    apply h.perm.nodup_iff.mpr hnodup.of_map
  have hleft' : left'.Nodup := by
    apply List.Nodup.of_append_right
    apply (h'.perm.trans hperm).nodup_iff.mpr hnodup.of_map
  apply (List.perm_ext_iff_of_nodup hleft' hleft).mpr
  intro r
  constructor
  · intro hr
    apply h.subset_left (fun p hp => hperm.subset (h'.left_subset hp)) h'.stuck hr
  · intro hr
    apply h'.subset_left (fun p hp => hperm.symm.subset (h.left_subset hp)) h.stuck hr

/-- Some rules are left where one has to come before itself. -/
theorem left_ne_nil (h : Arranged rules order left) (hnodup : (rules.map Registered.id).Nodup)
    {r : Registered} (hr : Relation.TransGen (HasToPrecede rules) r r) :
  left ≠ []
  := by
  rintro rfl
  have horder := (h.perm_order.map Registered.id).nodup_iff.mpr hnodup
  apply (h.respects.acyclic horder).mono h.perm_order.symm.subset r hr

end Arranged

section

variable {rest rest' : List Registered} (h : (rest.map Registered.id).Nodup)
  (hperm : rest'.Perm rest)

include h hperm

theorem predecessorIn?_perm (m : RuleId) :
  predecessorIn? rest' m = predecessorIn? rest m
  := by
  have h' := (hperm.map Registered.id).nodup_iff.mpr h
  have hfind : rest'.find? (fun r => r.id = m) = rest.find? fun r => r.id = m := by
    apply Option.ext
    intro r
    rw [Registered.find?_id_iff h, Registered.find?_id_iff h', hperm.mem_iff]
  have hcontains (p : RuleId) :
      (rest'.map Registered.id).contains p = (rest.map Registered.id).contains p := by
    rw [Bool.eq_iff_iff, List.contains_iff_mem, List.contains_iff_mem,
      (hperm.map Registered.id).mem_iff]
  rw [predecessorIn?, predecessorIn?, hfind]
  simp only [hcontains]

theorem followBack_perm (n : Nat) (current : RuleId) (path : List RuleId) :
  followBack rest' n current path = followBack rest n current path
  := by
  induction n generalizing current path with
  | zero => rfl
  | succ n ih =>
    rw [followBack, followBack, predecessorIn?_perm h hperm]
    simp only [ih]

/-- The cycle that is found does not depend on how the rules are listed. -/
theorem cycleIn_perm :
  cycleIn rest' = cycleIn rest
  := by
  have hleast : leastId? (rest'.map Registered.id) = leastId? (rest.map Registered.id) := by
    apply leastId?_congr
    intro id
    apply (hperm.map Registered.id).mem_iff
  rw [cycleIn, cycleIn, hleast, hperm.length_eq]
  simp only [followBack_perm h hperm]

end

/-- The search among rules none of which is free closes. -/
theorem goesRound_cycleIn {rest : List Registered} (hstuck : ∀ r, ¬ IsFree rest r)
    (hne : rest ≠ []) :
  ∃ start, leastId? (rest.map Registered.id) = some start ∧ GoesRound rest [start] (cycleIn rest)
  := by
  cases hstart : leastId? (rest.map Registered.id) with
  | none => exact absurd (List.map_eq_nil_iff.mp (leastId?_eq_none_iff.mp hstart)) hne
  | some start =>
    use start, rfl
    rw [cycleIn, hstart]
    apply goesRound_followBack hstuck
    · apply List.nodup_singleton
    · apply List.cons_subset.mpr ⟨(leastId?_spec hstart).1, List.nil_subset _⟩
    · rw [List.length_singleton]
      omega

/-! ### Rules that cannot be put in order -/

/-- Rules of which some are left are refused for the cycle among them. -/
theorem executionOrder_of_left {rules : List Registered}
    (hne : (arrange rules.length (.ofRules rules)).2 ≠ []) :
  executionOrder rules = .error (.cycle (cycleIn (arrange rules.length (.ofRules rules)).2))
  := by
  rw [executionOrder]
  split
  · rename_i heq
    rw [heq] at hne
    exact absurd rfl hne
  · rename_i heq
    rw [heq]

/-- Rules with different ids of which one has to come before itself, be it through a chain of
others, are refused for a cycle, with its least id first.  The search for it begins with the least
of the rules that are left and comes back to a rule on its path, and it finds the same cycle
however the rules are listed. -/
theorem executionOrder_of_cyclic {rules : List Registered}
    (h : (rules.map Registered.id).Nodup) {r : Registered}
    (hr : Relation.TransGen (HasToPrecede rules) r r) :
  ∃ members, executionOrder rules = .error (.cycle members)
    ∧ IsCycle rules members
    ∧ (∀ first ∈ members.head?, ∀ id ∈ members, first ≤ id)
    ∧ (∃ start,
      leastId? ((arrange rules.length (.ofRules rules)).2.map Registered.id) = some start
      ∧ GoesRound (arrange rules.length (.ofRules rules)).2 [start] members)
    ∧ ∀ rules', rules'.Perm rules → executionOrder rules' = .error (.cycle members)
  := by
  have harranged := (Queue.fits_ofRules rules).arranged h (Nat.le_refl _)
  have hne := harranged.left_ne_nil h hr
  obtain ⟨start, hstart, hcloses⟩ := goesRound_cycleIn harranged.stuck hne
  obtain ⟨hcycle, hleast⟩ := hcloses.isCycle (List.nodup_singleton start)
    (List.cons_subset.mpr ⟨(leastId?_spec hstart).1, List.nil_subset _⟩)
    (List.isChain_singleton start)
  refine ⟨_, executionOrder_of_left hne, hcycle.mono harranged.left_subset, hleast,
    ⟨start, hstart, hcloses⟩, ?_⟩
  intro rules' hperm
  have h' := (hperm.map Registered.id).nodup_iff.mpr h
  have harranged' := (Queue.fits_ofRules rules').arranged h' (Nat.le_refl _)
  have hleft := harranged.left_perm harranged' hperm h
  have hnodup : ((arrange rules.length (.ofRules rules)).2.map Registered.id).Nodup := by
    have happend := (harranged.perm.map Registered.id).nodup_iff.mpr h
    rw [List.map_append] at happend
    apply happend.of_append_right
  rw [executionOrder_of_left, cycleIn_perm hnodup hleft]
  intro hnil
  rw [hnil] at hleft
  apply hne hleft.nil_eq.symm

/-- Two cycles share a rule, and the rule of least id, from which the search begins, is on neither
of them. -/
theorem executionOrder_of_cyclic_linked :
  let rules : List Registered :=
    [.idle "standard:ddd" [⟨"standard:ccc"⟩] false,
      .idle "standard:aaa" [⟨"standard:bbb"⟩] false,
      .idle "standard:bbb" [⟨"standard:ccc"⟩] true,
      .idle "standard:ccc" [⟨"standard:ddd"⟩, ⟨"standard:bbb"⟩] false,
      .idle "standard:eee" [] false]
  let b : Registered := .idle "standard:bbb" [⟨"standard:ccc"⟩] true
  ((rules.map Registered.id).Nodup ∧ Relation.TransGen (HasToPrecede rules) b b)
  ∧ ∃ members, executionOrder rules = .error (.cycle members)
    ∧ IsCycle rules members
    ∧ (∀ first ∈ members.head?, ∀ id ∈ members, first ≤ id)
    ∧ (∃ start,
      leastId? ((arrange rules.length (.ofRules rules)).2.map Registered.id) = some start
      ∧ GoesRound (arrange rules.length (.ofRules rules)).2 [start] members)
    ∧ ∀ rules', rules'.Perm rules → executionOrder rules' = .error (.cycle members)
  := by
  intro rules b
  let c : Registered := .idle "standard:ccc" [⟨"standard:ddd"⟩, ⟨"standard:bbb"⟩] false
  have h : (rules.map Registered.id).Nodup := by
    decide
  have hb : Relation.TransGen (HasToPrecede rules) b b := by
    apply Relation.TransGen.head (b := c)
    · refine ⟨by simp [rules, b], by simp [rules, c], by decide⟩
    · apply Relation.TransGen.single
      refine ⟨by simp [rules, c], by simp [rules, b], by decide⟩
  use ⟨h, hb⟩
  apply executionOrder_of_cyclic h hb

example :
  executionOrder [.idle "standard:ddd" [⟨"standard:ccc"⟩] false,
    .idle "standard:aaa" [⟨"standard:bbb"⟩] false,
    .idle "standard:bbb" [⟨"standard:ccc"⟩] true,
    .idle "standard:ccc" [⟨"standard:ddd"⟩, ⟨"standard:bbb"⟩] false,
    .idle "standard:eee" [] false]
    = .error (.cycle [⟨"standard:bbb"⟩, ⟨"standard:ccc"⟩])
  := by
  rfl

end Fettle
