import Fettle.Proofs.Order.Queue
import Mathlib.Order.WellFoundedSet

/-!
# Execution orders

Rules can be put in order exactly if no rule has to come before itself, be it through a chain of
others (`exists_executionOrder_iff`).  The order is then the least of those in which every rule
comes after the rules it names, where orders are compared by the keys of their rules from the
front, so it does not depend on how the rules are listed: `executionOrder_least`.
-/

namespace Fettle

/-- A rule has to come before another of the same list, which names it as one to come after. -/
def HasToPrecede (rules : List Registered) (p r : Registered) : Prop :=
  p ∈ rules ∧ r ∈ rules ∧ p.id ∈ r.runAfter

/-- No rule has to come before itself, be it through a chain of rules. -/
def Acyclic (rules : List Registered) : Prop :=
  ∀ r, ¬ Relation.TransGen (HasToPrecede rules) r r

/-- Every rule comes after each rule of the list that it names as one to come after. -/
def Respects (order : List Registered) : Prop :=
  ∀ a r b, order = a ++ r :: b → ∀ p ∈ order, p.id ∈ r.runAfter → p ∈ a

theorem HasToPrecede.mono {rest rules : List Registered} (h : rest ⊆ rules) {p r : Registered}
    (hp : HasToPrecede rest p r) :
  HasToPrecede rules p r
  := ⟨h hp.1, h hp.2.1, hp.2.2⟩

theorem Acyclic.mono {rest rules : List Registered} (h : rest ⊆ rules) (hrules : Acyclic rules) :
  Acyclic rest
  := by
  intro r hr
  apply hrules r
  apply Relation.TransGen.mono _ r r hr
  intro p q hp
  apply hp.mono h

/-! ### Free rules -/

/-- Every rule of a list is free or has to come after one that is, be it through a chain. -/
theorem Acyclic.exists_isFree {rest : List Registered} (h : Acyclic rest) {r : Registered}
    (hr : r ∈ rest) :
  ∃ p, IsFree rest p ∧ Relation.ReflTransGen (HasToPrecede rest) p r
  := by
  have : Std.Irrefl (Relation.TransGen (HasToPrecede rest)) := ⟨h⟩
  have : IsStrictOrder Registered (Relation.TransGen (HasToPrecede rest)) := {}
  have hfounded := rest.finite_toSet.wellFoundedOn (r := Relation.TransGen (HasToPrecede rest))
  apply hfounded.induction hr
  intro r hr ih
  by_cases hfree : IsFree rest r
  · exact ⟨r, hfree, .refl⟩
  · -- a rule that is not free has a predecessor
    have hsome : ∃ q ∈ rest, q.id ∈ r.runAfter := by
      by_contra hnone
      apply hfree
      use hr
      intro q hq hafter
      exact hnone ⟨q, hq, hafter⟩
    obtain ⟨q, hq, hafter⟩ := hsome
    have hbefore : HasToPrecede rest q r := ⟨hq, hr, hafter⟩
    obtain ⟨p, hp, hchain⟩ := ih q hq (.single hbefore)
    exact ⟨p, hp, hchain.tail hbefore⟩

namespace Arranged

variable {rules order left : List Registered}

/-- No rule is left where none has to come before itself. -/
theorem left_eq_nil (h : Arranged rules order left) (hrules : Acyclic rules) :
  left = []
  := by
  rw [List.eq_nil_iff_forall_not_mem]
  intro r hr
  have hsub : left ⊆ rules := fun p hp => h.perm.subset (List.mem_append_right _ hp)
  obtain ⟨p, hp, -⟩ := (hrules.mono hsub).exists_isFree hr
  exact h.stuck p hp

theorem perm_order (h : Arranged rules order []) :
  order.Perm rules
  := by
  simpa using h.perm

/-- Rules all of which are arranged come after the rules they name. -/
theorem respects (h : Arranged rules order []) :
  Respects order
  := by
  intro a r b heq p hp hafter
  obtain ⟨hfree, -⟩ := h.least a r b heq
  rw [List.append_nil] at hfree
  rw [heq, List.mem_append] at hp
  exact hp.resolve_right fun hlater => hfree.2 p hlater hafter

end Arranged

/-! ### Orders that respect what rules name -/

namespace Respects

variable {order : List Registered} (h : Respects order)
  (hnodup : (order.map Registered.id).Nodup)

include h hnodup

/-- A rule that has to precede another comes earlier. -/
theorem idxOf_lt {p r : Registered} (hp : HasToPrecede order p r) :
  (order.map Registered.id).idxOf p.id < (order.map Registered.id).idxOf r.id
  := by
  obtain ⟨hmem, hr, hafter⟩ := hp
  obtain ⟨a, b, rfl⟩ := List.append_of_mem hr
  have hbefore := List.mem_map_of_mem (f := Registered.id) (h a r b rfl p hmem hafter)
  rw [List.map_append, List.map_cons] at hnodup ⊢
  have hnot : r.id ∉ a.map Registered.id := by
    intro hin
    exact List.disjoint_of_nodup_append hnodup hin List.mem_cons_self
  rw [List.idxOf_append_of_mem hbefore, List.idxOf_append_of_notMem hnot, List.idxOf_cons_self,
    Nat.add_zero]
  apply List.idxOf_lt_length_of_mem hbefore

theorem idxOf_lt_of_transGen {p r : Registered}
    (hchain : Relation.TransGen (HasToPrecede order) p r) :
  (order.map Registered.id).idxOf p.id < (order.map Registered.id).idxOf r.id
  := by
  induction hchain with
  | single hp => apply h.idxOf_lt hnodup hp
  | tail _ hp ih => apply ih.trans (h.idxOf_lt hnodup hp)

/-- An order can respect what rules name only if no rule has to come before itself. -/
theorem acyclic :
  Acyclic order
  := by
  intro r hr
  apply lt_irrefl _ (h.idxOf_lt_of_transGen hnodup hr)

omit h hnodup in
theorem tail {r : Registered} (h : Respects (r :: order))
    (hnodup : ((r :: order).map Registered.id).Nodup) :
  Respects order
  := by
  intro a s b heq p hp hafter
  have hmem := h (r :: a) s b (by rw [heq, List.cons_append]) p (List.mem_cons_of_mem _ hp) hafter
  rcases List.mem_cons.mp hmem with rfl | hmem
  · rw [List.map_cons, List.nodup_cons] at hnodup
    exact absurd (List.mem_map_of_mem hp) hnodup.1
  · exact hmem

end Respects

/-- Where each rule has the least key of those that are free when it comes, the order is the least
of those that respect what rules name. -/
theorem map_key_le {order other : List Registered} (hnodup : (order.map Registered.id).Nodup)
    (hleast : ∀ a r b, order = a ++ r :: b → ∀ p, IsFree (r :: b) p → r.key ≤ p.key)
    (hperm : other.Perm order) (h : Respects other) :
  order.map Registered.key ≤ other.map Registered.key
  := by
  induction order generalizing other with
  | nil => rw [hperm.eq_nil]
  | cons r order ih =>
    cases other with
    | nil => cases hperm.nil_eq
    | cons o other =>
      have hfree : IsFree (r :: order) o := by
        use hperm.subset List.mem_cons_self
        intro p hp hafter
        cases h [] o other rfl p (hperm.symm.subset hp) hafter
      rw [List.map_cons, List.map_cons]
      rcases (hleast [] r order rfl o hfree).lt_or_eq with hlt | heq
      · apply le_of_lt
        apply List.Lex.rel hlt
      · obtain rfl := Registered.eq_of_id hnodup List.mem_cons_self hfree.1
          (Registered.id_of_key heq)
        have hnodup' := (hperm.map Registered.id).nodup_iff.mpr hnodup
        apply List.cons_le_cons
        apply ih (List.nodup_cons.mp hnodup).2 _ hperm.cons_inv (h.tail hnodup')
        intro a s b hsplit p hp
        apply hleast (r :: a) s b _ p hp
        rw [hsplit, List.cons_append]

/-- An order of some rules in which each comes after the rules it names, and which is the least
such order by whether rules run late and by their ids, compared from the front. -/
structure IsLeastOrder (rules order : List Registered) : Prop where
  perm : order.Perm rules
  respects : Respects order
  least : ∀ other, other.Perm rules → Respects other →
    order.map Registered.key ≤ other.map Registered.key

/-- There is one least order, whatever the list of the rules, as far as their ids go. -/
theorem IsLeastOrder.map_id_eq {rules rules' order order' : List Registered}
    (h' : IsLeastOrder rules' order') (hperm : rules'.Perm rules) (h : IsLeastOrder rules order) :
  order'.map Registered.id = order.map Registered.id
  := by
  have hkeys : order'.map Registered.key = order.map Registered.key := by
    apply le_antisymm
    · apply h'.least order (h.perm.trans hperm.symm) h.respects
    · apply h.least order' (h'.perm.trans hperm) h'.respects
  have hids (l : List Registered) : l.map Registered.id
      = (l.map Registered.key).map fun k => ⟨(ofLex k).2⟩ := by
    rw [List.map_map]
    rfl
  rw [hids, hkeys, ← hids]

/-! ### The execution order -/

section

variable {rules : List Registered} (h : (rules.map Registered.id).Nodup)

include h

/-- An execution order arranges all rules. -/
theorem arranged_of_executionOrder {order : List Registered}
    (horder : executionOrder rules = .ok order) :
  Arranged rules order []
  := by
  obtain ⟨order', left, harranged, heq⟩ := arranged_executionOrder h
  rw [horder] at heq
  split at heq
  · rename_i hnone
    rw [List.isEmpty_iff] at hnone
    rwa [Except.ok.inj heq, ← hnone]
  · cases heq

/-- Rules can be put in order exactly if no rule has to come before itself. -/
theorem exists_executionOrder_iff :
  (∃ order, executionOrder rules = .ok order) ↔ Acyclic rules
  := by
  constructor
  · rintro ⟨order, horder⟩
    have harranged := arranged_of_executionOrder h horder
    have hnodup := (harranged.perm_order.map Registered.id).nodup_iff.mpr h
    apply (harranged.respects.acyclic hnodup).mono harranged.perm_order.symm.subset
  · intro hacyclic
    obtain ⟨order, left, harranged, heq⟩ := arranged_executionOrder h
    rw [harranged.left_eq_nil hacyclic] at heq
    exact ⟨order, heq⟩

theorem isLeastOrder_of_executionOrder {order : List Registered}
    (horder : executionOrder rules = .ok order) :
  IsLeastOrder rules order
  := by
  have harranged := arranged_of_executionOrder h horder
  use harranged.perm_order, harranged.respects
  intro other hperm hrespects
  have hnodup := (harranged.perm_order.map Registered.id).nodup_iff.mpr h
  apply map_key_le hnodup _ (hperm.trans harranged.perm_order.symm) hrespects
  intro a r b heq p hp
  obtain ⟨-, hle⟩ := harranged.least a r b heq
  rw [List.append_nil] at hle
  apply hle p hp

/-- Rules with different ids can be put in order exactly if no rule has to come before itself.  The
order is the least of those that respect what rules name, and the ids come in it in the same order
however the rules are listed. -/
theorem executionOrder_least :
  ((∃ order, executionOrder rules = .ok order) ↔ Acyclic rules)
  ∧ ∀ order, executionOrder rules = .ok order →
    IsLeastOrder rules order
    ∧ ∀ rules', rules'.Perm rules → ∃ order', executionOrder rules' = .ok order'
      ∧ order'.map Registered.id = order.map Registered.id
  := by
  use exists_executionOrder_iff h
  intro order horder
  use isLeastOrder_of_executionOrder h horder
  intro rules' hperm
  have h' := (hperm.map Registered.id).nodup_iff.mpr h
  have hacyclic := ((exists_executionOrder_iff h).mp ⟨order, horder⟩).mono hperm.subset
  obtain ⟨order', horder'⟩ := (exists_executionOrder_iff h').mpr hacyclic
  use order', horder'
  apply (isLeastOrder_of_executionOrder h' horder').map_id_eq hperm
  apply isLeastOrder_of_executionOrder h horder

end

/-- A registered rule that finds nothing. -/
def Registered.idle (id : String) (runAfter : List RuleId) (late : Bool) : Registered where
  id := ⟨id⟩
  rule := ⟨id, "", [], [], fun _ => .clean, fun s => .ok s.tree⟩
  runAfter := runAfter
  requires := []
  late := late

/-- A rule that comes after another of greater id and after one that is not there, and a rule that
runs late although its id is not the greatest. -/
theorem executionOrder_least_forced :
  let rules : List Registered :=
    [.idle "standard:alpha" [⟨"standard:zeta"⟩, ⟨"standard:absent"⟩] false,
      .idle "standard:beta" [] true, .idle "standard:zeta" [] false]
  (rules.map Registered.id).Nodup
  ∧ ((∃ order, executionOrder rules = .ok order) ↔ Acyclic rules)
  ∧ ∀ order, executionOrder rules = .ok order →
    IsLeastOrder rules order
    ∧ ∀ rules', rules'.Perm rules → ∃ order', executionOrder rules' = .ok order'
      ∧ order'.map Registered.id = order.map Registered.id
  := by
  intro rules
  have h : (rules.map Registered.id).Nodup := by
    decide
  use h
  apply executionOrder_least h

example :
  (executionOrder [.idle "standard:alpha" [⟨"standard:zeta"⟩, ⟨"standard:absent"⟩] false,
    .idle "standard:beta" [] true, .idle "standard:zeta" [] false]).map (List.map Registered.id)
    = .ok [⟨"standard:zeta"⟩, ⟨"standard:alpha"⟩, ⟨"standard:beta"⟩]
  := by
  rfl

end Fettle
