import Fettle.Proofs.Config.Resolving
import Fettle.Proofs.Order.Queue
import Fettle.Proofs.Rules.Standard

/-!
# Which rules are active

A rule is configured if its scope switches it on and gives its properties usable values.  When
properties of one name are equal, this depends on the rule alone, not on the rules that were
configured before it (`fst_configure`).  Of the configured rules the active ones are the largest
part in which every rule that is required is there (`upheld_activate`, `subset_activate`).
-/

namespace Fettle

/-- Properties of one name that some rules declare are the same. -/
def Consistent (rules : List Registered) : Prop :=
  ∀ r ∈ rules, ∀ p ∈ r.rule.properties, ∀ r' ∈ rules, ∀ p' ∈ r'.rule.properties,
    p'.name = p.name → p' = p

theorem Consistent.mono {rules rules' : List Registered} (h : rules' ⊆ rules)
    (hrules : Consistent rules) :
  Consistent rules'
  := fun r hr p hp r' hr' => hrules r (h hr) p hp r' (h hr')

namespace Activation

/-- A rule with its settings, if a scope switches it on and has settings for it. -/
def configured? (scope : Scope) (r : Registered) : Option Active :=
  match scope.isEnabled r.id with
  | .ok true => ((Resolver.ofScope scope).resolve r.rule.properties).1.toOption.map (⟨r, ·⟩)
  | _ => none

theorem rule_of_configured? {scope : Scope} {r : Registered} {a : Active}
    (h : configured? scope r = some a) :
  a.rule = r
  := by
  rw [configured?] at h
  split at h
  · obtain ⟨settings, -, rfl⟩ := Option.map_eq_some_iff.mp h
    rfl
  · cases h

/-- Rules whose properties of one name are the same are configured each by itself. -/
theorem fst_configure_of_remembers {scope : Scope} {rules : List Registered}
    {resolver : Resolver} {read : List Property} (hrules : Consistent rules)
    (hresolver : resolver.Remembers scope read)
    (hread : ∀ r ∈ rules, ∀ p ∈ r.rule.properties, ∀ q ∈ read, q.name = p.name → q = p) :
  (configure scope resolver rules).1 = rules.filterMap (configured? scope)
  := by
  induction rules generalizing resolver read with
  | nil => rfl
  | cons r rules ih =>
    have hrest := hrules.mono (List.subset_cons_self r rules)
    have hlater {resolver' : Resolver} {read' : List Property}
        (hresolver' : resolver'.Remembers scope read')
        (hsub : read' ⊆ read ++ r.rule.properties) :
        (configure scope resolver' rules).1 = rules.filterMap (configured? scope) := by
      apply ih hrest hresolver'
      intro r' hr' p hp q hq
      rcases List.mem_append.mp (hsub hq) with hq | hq
      · exact hread r' (List.mem_cons_of_mem _ hr') p hp q hq
      · exact hrules r' (List.mem_cons_of_mem _ hr') p hp r List.mem_cons_self q hq
    rw [configure, List.filterMap_cons, configured?]
    split
    · rename_i hoff
      rw [hoff]
      apply hlater hresolver (List.subset_append_left _ _)
    · rename_i fault hfault
      rw [hfault]
      apply hlater hresolver (List.subset_append_left _ _)
    · rename_i hon
      have hvalue := Resolver.resolve_eq_of_remembers hresolver (hread r List.mem_cons_self)
      have hafter : (configure scope (resolver.resolve r.rule.properties).2 rules).1
          = rules.filterMap (configured? scope) :=
        hlater (hresolver.snd_values r.rule.properties) (readUpTo_subset _ _ _)
      simp only [hon, ← hvalue]
      revert hafter
      rcases resolver.resolve r.rule.properties with ⟨_ | settings, resolver'⟩
      · exact fun hafter => hafter
      · intro hafter
        rw [← hafter]
        rfl

/-- Rules of an engine whose properties of one name are the same are configured each by itself. -/
theorem fst_configure {scope : Scope} {rules : List Registered} (hrules : Consistent rules) :
  (configure scope (.ofScope scope) rules).1 = rules.filterMap (configured? scope)
  := by
  apply fst_configure_of_remembers hrules (.ofScope scope)
  intro r _ p _ q hq
  cases hq

/-! ### Required rules -/

/-- Every rule that some rules require is among them. -/
def Upheld (active : List Active) : Prop :=
  ∀ a ∈ active, ∀ id ∈ a.rule.requires, id ∈ active.map Active.id

theorem orphan?_eq_none_iff {active : List Active} :
  orphan? active = none ↔ Upheld active
  := by
  rw [orphan?, List.findSome?_eq_none_iff]
  apply forall₂_congr
  intro a _
  rw [Option.map_eq_none_iff, List.find?_eq_none]
  apply forall₂_congr
  intro id _
  simp

theorem orphan?_eq_some {active : List Active} {id required : RuleId}
    (h : orphan? active = some (id, required)) :
  ∃ a ∈ active, a.id = id ∧ required ∈ a.rule.requires ∧ required ∉ active.map Active.id
  := by
  obtain ⟨a, ha, hfind⟩ := List.exists_of_findSome?_eq_some h
  obtain ⟨id', hid', heq⟩ := Option.map_eq_some_iff.mp hfind
  obtain ⟨rfl, rfl⟩ := Prod.mk.inj heq
  have hmissing := List.find?_some hid'
  simp only [Bool.not_eq_true', List.contains_eq_mem, decide_eq_false_iff_not] at hmissing
  exact ⟨a, ha, rfl, List.mem_of_find?_eq_some hid', hmissing⟩

/-- The rules that are left require each other only. -/
theorem upheld_prune {n : Nat} {active : List Active} (h : active.length ≤ n) :
  Upheld (prune n active).1
  := by
  induction n generalizing active with
  | zero =>
    obtain rfl := List.length_eq_zero_iff.mp (Nat.le_zero.mp h)
    intro a ha
    cases ha
  | succ n ih =>
    rw [prune]
    split
    · rename_i hnone
      apply orphan?_eq_none_iff.mp hnone
    · rename_i id required horphan
      obtain ⟨a, ha, hid, -⟩ := orphan?_eq_some horphan
      apply ih
      have hless : (active.filter fun a => a.id ≠ id).length < active.length := by
        apply List.length_filter_lt_length_iff_exists.mpr
        exact ⟨a, ha, by simp [hid]⟩
      omega

/-- Rules that require each other only are left. -/
theorem subset_prune {n : Nat} {active kept : List Active} (hids : (active.map Active.id).Nodup)
    (hkept : Upheld kept) (hsub : kept ⊆ active) :
  kept ⊆ (prune n active).1
  := by
  induction n generalizing active with
  | zero => exact hsub
  | succ n ih =>
    rw [prune]
    split
    · exact hsub
    · rename_i id required horphan
      obtain ⟨a, ha, hid, hrequired, hmissing⟩ := orphan?_eq_some horphan
      apply ih (hids.sublist (List.filter_sublist.map _))
      intro b hb
      rw [List.mem_filter, decide_eq_true_eq]
      use hsub hb
      rintro hbid
      obtain rfl := List.inj_on_of_nodup_map hids ha (hsub hb) (hid.trans hbid.symm)
      apply hmissing
      apply List.map_subset _ hsub (hkept a hb required hrequired)

end Activation

namespace Engine

open Activation

variable {e : Engine} {scope : Scope}

theorem fst_activate (e : Engine) (scope : Scope) :
  (e.activate scope).1 = (prune (configure scope (.ofScope scope) e.rules).1.length
    (configure scope (.ofScope scope) e.rules).1).1
  := rfl

/-- Every rule that an active rule requires is active. -/
theorem upheld_activate :
  Upheld (e.activate scope).1
  := by
  rw [fst_activate]
  apply upheld_prune (Nat.le_refl _)

theorem nodup_activate (hids : (e.rules.map Registered.id).Nodup) :
  ((e.activate scope).1.map Active.id).Nodup
  := by
  have hsub : ((e.activate scope).1.map Active.rule).Sublist e.rules := sublist_activate
  have hmap := hsub.map Registered.id
  rw [List.map_map] at hmap
  apply hids.sublist hmap

/-- An active rule is configured. -/
theorem configured?_of_mem_activate (hrules : Consistent e.rules) {a : Active}
    (ha : a ∈ (e.activate scope).1) :
  configured? scope a.rule = some a
  := by
  rw [fst_activate, fst_configure hrules] at ha
  obtain ⟨r, -, hr⟩ := List.mem_filterMap.mp ((sublist_prune _ _).subset ha)
  rwa [rule_of_configured? hr]

/-- Configured rules that require each other only are active. -/
theorem subset_activate (hids : (e.rules.map Registered.id).Nodup) (hrules : Consistent e.rules)
    {kept : List Active} (hkept : Upheld kept)
    (hsub : ∀ a ∈ kept, a.rule ∈ e.rules ∧ configured? scope a.rule = some a) :
  kept ⊆ (e.activate scope).1
  := by
  rw [fst_activate]
  apply subset_prune _ hkept
  · intro a ha
    obtain ⟨hmem, hconfigured⟩ := hsub a ha
    rw [fst_configure hrules]
    apply List.mem_filterMap.mpr ⟨a.rule, hmem, hconfigured⟩
  · have hmap := (sublist_configure scope (.ofScope scope) e.rules).map Registered.id
    rw [List.map_map] at hmap
    apply hids.sublist hmap

end Engine

end Fettle
