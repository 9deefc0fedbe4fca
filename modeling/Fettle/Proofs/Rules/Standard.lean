import Fettle.Kotlin.Run
import Fettle.Proofs.Engine.Passes
import Fettle.Proofs.Rules.Rewrite
import Mathlib.Data.List.Nodup

/-!
# Runs with the standard rules

The engine of the standard rules can always be made, and the active rules of a scope are some of
its rules, in its order.  So what `Rewrite` preserves in sound trees, runs with the standard
rules preserve (`standard_invariant`).
-/

namespace Fettle

/-! ### Active rules -/

namespace Activation

theorem sublist_configure (scope : Scope) (resolver : Resolver) (rules : List Registered) :
  ((configure scope resolver rules).1.map Active.rule).Sublist rules
  := by
  induction rules generalizing resolver with
  | nil => apply List.Sublist.refl
  | cons r rules ih =>
    rw [configure]
    split
    · apply (ih resolver).cons
    · apply (ih resolver).cons
    · split
      · apply (ih _).cons_cons
      · apply (ih _).cons

theorem sublist_prune (n : Nat) (active : List Active) :
  (prune n active).1.Sublist active
  := by
  induction n generalizing active with
  | zero => apply List.Sublist.refl
  | succ n ih =>
    rw [prune]
    split
    · apply List.Sublist.refl
    · apply (ih _).trans List.filter_sublist

end Activation

namespace Engine

variable {e : Engine} {scope : Scope}

/-- The active rules are rules of the engine, in its order. -/
theorem sublist_activate :
  ((e.activate scope).1.map Active.rule).Sublist e.rules
  := by
  apply List.Sublist.trans _ (Activation.sublist_configure scope (.ofScope scope) e.rules)
  apply (Activation.sublist_prune _ _).map

theorem rule_mem_of_mem_activate {a : Active} (h : a ∈ (e.activate scope).1) :
  a.rule ∈ e.rules
  := by
  apply sublist_activate.mem
  apply List.mem_map_of_mem h

end Engine

/-! ### The standard engine -/

/-- The standard rules in execution order. -/
def standardOrder : List Registered :=
  [⟨⟨"standard:comment-wrapping"⟩, CommentWrapping.rule, [], [], false⟩,
    ⟨⟨"standard:no-multi-spaces"⟩, NoMultiSpaces.rule, [⟨"standard:comment-wrapping"⟩], [],
      false⟩,
    ⟨⟨"standard:no-trailing-spaces"⟩, NoTrailingSpaces.rule, [], [], false⟩,
    ⟨⟨"standard:no-consecutive-blank-lines"⟩, NoConsecutiveBlankLines.rule, [], [], true⟩]

/-- The engine of the standard rules can be made, whatever the configuration. -/
theorem standardEngine_eq (c : Config) :
  Kotlin.standardEngine c = .ok ⟨standardOrder, max c.maxPasses 1, c.timeout⟩
  := by
  obtain ⟨m, timeout, properties, overrides⟩ := c
  cases timeout with
  | none => rfl
  | some limit => rfl

theorem nodup_standardOrder :
  (standardOrder.map Registered.id).Nodup
  := by
  decide

theorem rule_mem_standard {r : Registered} (h : r ∈ standardOrder) :
  r.rule ∈ Preset.standard.rules
  := by
  simp only [standardOrder, List.mem_cons, List.not_mem_nil, or_false] at h
  rcases h with rfl | rfl | rfl | rfl <;> simp [Preset.rules]

section

variable {e : Engine} {scope : Scope} (he : e.rules = standardOrder)

include he

/-- The active rules are standard rules. -/
theorem rule_mem_of_mem_active :
  ∀ a ∈ (e.activate scope).1, a.rule.rule ∈ Preset.standard.rules
  := by
  intro a ha
  apply rule_mem_standard
  rw [← he]
  apply Engine.rule_mem_of_mem_activate ha

/-- What comes of a fix of an active standard rule. -/
theorem Active.fixSound {a : Active} (ha : a ∈ (e.activate scope).1) {t t' : Tree} {n : NodeId}
    (h : t.Sound) (hn : t.isAttached n = true) (hfix : a.fix t n = .ok t') :
  FixSound (a.site t n) (a.inspect t n) t'
  := rewrite_of_fix (rule_mem_of_mem_active he a ha) h hn hfix

/-- The active rules have different ids. -/
theorem find?_active {a : Active} (ha : a ∈ (e.activate scope).1) :
  (e.activate scope).1.find? (fun b => b.id = a.id) = some a
  := by
  have hids : ((e.activate scope).1.map Active.id).Nodup := by
    have hsub : ((e.activate scope).1.map Active.rule).Sublist standardOrder := by
      rw [← he]
      apply Engine.sublist_activate
    have hmap := hsub.map Registered.id
    rw [List.map_map] at hmap
    apply nodup_standardOrder.sublist hmap
  cases hfind : (e.activate scope).1.find? (fun b => b.id = a.id) with
  | none =>
    rw [List.find?_eq_none] at hfind
    apply absurd (decide_eq_true rfl) (hfind a ha)
  | some b =>
    have hb := List.find?_some hfind
    rw [decide_eq_true_eq] at hb
    rw [List.inj_on_of_nodup_map hids (List.mem_of_find?_eq_some hfind) ha hb]

/-- Runs with the standard rules preserve soundness and what `Rewrite` preserves in sound
trees. -/
theorem standard_invariant {P : List (Leaf NodeId) → Prop}
    (hP : ∀ t t' : Tree, t.Sound → t'.Sound → Rewrite t.leaves t'.leaves → P t.leaves →
      P t'.leaves)
    (clock : Clock) {t : Tree} (h : t.Sound) (ht : P t.leaves) :
  (e.formatTimed clock t scope).2.Sound ∧ P (e.formatTimed clock t scope).2.leaves
  := by
  apply formatTimed_invariant (P := fun t => t.Sound ∧ P t.leaves) _ clock ⟨h, ht⟩
  rintro a ha u n u' ⟨hu, hPu⟩ hn hfix
  obtain ⟨hu', hrewrite | ⟨rfl, -⟩⟩ := Active.fixSound he ha hu hn hfix
  · use hu'
    apply hP u u' hu hu' hrewrite hPu
  · exact ⟨hu', hPu⟩

end

end Fettle
