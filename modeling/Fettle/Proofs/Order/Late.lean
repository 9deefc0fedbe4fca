import Fettle.Proofs.Order.Topological

/-!
# Rules that run late

A rule that runs late comes before one that does not exactly if that one has to come after a late
rule that has not come before: the late rule itself, or one of greater id
(`mem_after_late_iff`).  With several late rules it need not be the late rule itself:
`exists_late_before_unforced`.
-/

namespace Fettle

section

variable {rules order a b : List Registered} {l p : Registered}
  (h : (rules.map Registered.id).Nodup) (horder : executionOrder rules = .ok order)
  (hsplit : order = a ++ l :: b)

include h horder hsplit

/-- A rule comes later than a late one only if it has to come after a late rule that could have
come in the place of the first. -/
theorem exists_late_of_mem_after (hl : l.late = true) (hp : p ∈ b) (hplain : p.late = false) :
  ∃ f ∈ l :: b, f.late = true ∧ (f = l ∨ l.id < f.id)
    ∧ Relation.TransGen (HasToPrecede rules) f p
  := by
  have harranged := arranged_of_executionOrder h horder
  obtain ⟨-, hleast⟩ := harranged.least a l b hsplit
  rw [List.append_nil] at hleast
  have hsub : l :: b ⊆ rules := by
    intro r hr
    apply harranged.perm_order.subset
    rw [hsplit]
    apply List.mem_append_right _ hr
  have hacyclic := (exists_executionOrder_iff h).mp ⟨order, horder⟩
  obtain ⟨f, hf, hchain⟩ := (hacyclic.mono hsub).exists_isFree (List.mem_cons_of_mem l hp)
  have hlate : f.late = true ∧ (f = l ∨ l.id < f.id) := by
    rcases (hleast f hf).lt_or_eq with hlt | heq
    · rw [← Registered.precedes_iff, Registered.precedes, hl] at hlt
      cases hcase : f.late with
      | true =>
        rw [hcase, if_pos rfl, decide_eq_true_eq] at hlt
        exact ⟨rfl, .inr hlt⟩
      | false => simp [hcase] at hlt
    · have hmem : l ∈ rules := hsub List.mem_cons_self
      obtain rfl := Registered.eq_of_id h hmem (hsub hf.1) (Registered.id_of_key heq)
      exact ⟨hl, .inl rfl⟩
  refine ⟨f, hf.1, hlate.1, hlate.2, ?_⟩
  rcases Relation.reflTransGen_iff_eq_or_transGen.mp hchain with rfl | hchain
  · rw [hlate.1] at hplain
    cases hplain
  · apply Relation.TransGen.mono _ f p hchain
    intro q r hq
    apply hq.mono hsub

/-- What has to come after a rule comes later than all that is before the rule. -/
theorem mem_after_of_transGen {f : Registered} (hf : f ∈ l :: b)
    (hchain : Relation.TransGen (HasToPrecede rules) f p) :
  p ∈ b
  := by
  have harranged := arranged_of_executionOrder h horder
  have hperm := harranged.perm_order
  have hnodup := (hperm.map Registered.id).nodup_iff.mpr h
  have hp : p ∈ order := by
    obtain ⟨q, -, hq⟩ := Relation.TransGen.tail'_iff.mp hchain
    apply hperm.symm.subset hq.2.1
  have hlt : (order.map Registered.id).idxOf f.id < (order.map Registered.id).idxOf p.id := by
    apply harranged.respects.idxOf_lt_of_transGen hnodup
    apply Relation.TransGen.mono _ f p hchain
    intro q r hq
    apply hq.mono hperm.symm.subset
  rw [hsplit, List.map_append] at hnodup hlt
  have hnot : f.id ∉ a.map Registered.id := fun hin =>
    List.disjoint_of_nodup_append hnodup hin (List.mem_map_of_mem hf)
  rw [List.idxOf_append_of_notMem hnot] at hlt
  rw [hsplit, List.mem_append, List.mem_cons] at hp
  rcases hp with hp | rfl | hp
  · have hin := List.mem_map_of_mem (f := Registered.id) hp
    have hbound := List.idxOf_lt_length_of_mem hin
    rw [List.idxOf_append_of_mem hin] at hlt
    omega
  · have hout : p.id ∉ a.map Registered.id := fun hin =>
      List.disjoint_of_nodup_append hnodup hin List.mem_cons_self
    rw [List.idxOf_append_of_notMem hout, List.map_cons, List.idxOf_cons_self] at hlt
    omega
  · exact hp

/-- A rule that runs late comes before one that does not exactly if that one has to come, be it
through a chain of rules, after a late rule that does not come before the first: the first itself,
or one of greater id. -/
theorem mem_after_late_iff (hl : l.late = true) (hplain : p.late = false) :
  p ∈ b ↔ ∃ f ∈ l :: b, f.late = true ∧ (f = l ∨ l.id < f.id)
    ∧ Relation.TransGen (HasToPrecede rules) f p
  := by
  constructor
  · intro hp
    apply exists_late_of_mem_after h horder hsplit hl hp hplain
  · rintro ⟨f, hf, -, -, hchain⟩
    apply mem_after_of_transGen h horder hsplit hf hchain

end

/-- Two late rules, and a rule that has to come after the second of them. -/
theorem mem_after_late_iff_second :
  let l : Registered := .idle "standard:aaa" [] true
  let f : Registered := .idle "standard:bbb" [] true
  let p : Registered := .idle "standard:ccc" [⟨"standard:bbb"⟩] false
  (([p, f, l].map Registered.id).Nodup ∧ executionOrder [p, f, l] = .ok [l, f, p]
    ∧ [l, f, p] = [] ++ l :: [f, p] ∧ l.late = true ∧ p.late = false)
  ∧ (p ∈ [f, p] ↔ ∃ g ∈ [l, f, p], g.late = true ∧ (g = l ∨ l.id < g.id)
    ∧ Relation.TransGen (HasToPrecede [p, f, l]) g p)
  := by
  have horder : executionOrder [.idle "standard:ccc" [⟨"standard:bbb"⟩] false,
      .idle "standard:bbb" [] true, .idle "standard:aaa" [] true]
        = .ok [.idle "standard:aaa" [] true, .idle "standard:bbb" [] true,
          .idle "standard:ccc" [⟨"standard:bbb"⟩] false] := by
    rfl
  intro l f p
  have h : ([p, f, l].map Registered.id).Nodup := by
    decide
  use ⟨h, horder, rfl, rfl, rfl⟩
  apply mem_after_late_iff (a := []) h horder rfl rfl rfl

/-- A late rule can come before one that does not run late and need not come after it. -/
theorem exists_late_before_unforced :
  ¬ ∀ (rules order a b : List Registered) (l p : Registered),
    (rules.map Registered.id).Nodup → executionOrder rules = .ok order → order = a ++ l :: b →
    l.late = true → p ∈ b → p.late = false → Relation.TransGen (HasToPrecede rules) l p
  := by
  intro hall
  have hchain := hall
    [.idle "standard:aaa" [] true, .idle "standard:bbb" [] true,
      .idle "standard:ccc" [⟨"standard:bbb"⟩] false]
    _ [] [.idle "standard:bbb" [] true, .idle "standard:ccc" [⟨"standard:bbb"⟩] false]
    (.idle "standard:aaa" [] true) (.idle "standard:ccc" [⟨"standard:bbb"⟩] false)
    (by decide) rfl rfl rfl (by simp) rfl
  -- no rule names the first one
  obtain ⟨q, ⟨-, hq, hafter⟩, -⟩ := Relation.TransGen.head'_iff.mp hchain
  simp only [List.mem_cons, List.not_mem_nil, or_false] at hq
  rcases hq with rfl | rfl | rfl
  · exact absurd hafter (by decide)
  · exact absurd hafter (by decide)
  · exact absurd hafter (by decide)

end Fettle
