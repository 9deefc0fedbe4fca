import Fettle.Proofs.Engine.Isolation
import Mathlib.Order.Bounds.Defs

/-!
# The selection of rules

One resolver serves all rules of a file.  What it answers for the properties of a rule in its turn
it still answers when all rules have had theirs (`Resolver.fst_values_of_knownBy`), so the resolver
of the file, as it is in the end, tells which rules are configured (`Activation.configure_eq`).

The active rules are the largest set that the file *supports*: each rule of it is switched on and
configured, and the rules that it requires are in the set.  Every other rule that is not just
switched off is named in one diagnostic, which says why it does not run.  `isGreatest_activate`
states this.
-/

namespace Fettle

/-! ### One resolver for all rules -/

namespace Resolver

/-- What a resolver has read another one has read with the same outcome. -/
def KnownBy (r r' : Resolver) : Prop :=
  ∀ name v, r.known.lookup name = some v → r'.known.lookup name = some v

theorem KnownBy.refl (r : Resolver) :
  r.KnownBy r
  := fun _ _ h => h

theorem KnownBy.trans {r r' r'' : Resolver} (h : r.KnownBy r') (h' : r'.KnownBy r'') :
  r.KnownBy r''
  := fun name v hv => h' name v (h name v hv)

theorem value_of_lookup {r : Resolver} {p : Property} {v : Except PropertyFault PropertyValue}
    (h : r.known.lookup p.name = some v) :
  r.value p = (v, r)
  := by
  rw [value, h]

/-- A resolver knows what it has just answered. -/
theorem lookup_value (r : Resolver) (p : Property) :
  (r.value p).2.known.lookup p.name = some (r.value p).1
  := by
  rw [value]
  cases h : r.known.lookup p.name with
  | some v => exact h
  | none => exact List.lookup_cons_self

theorem knownBy_value (r : Resolver) (p : Property) :
  r.KnownBy (r.value p).2
  := by
  rw [value]
  cases h : r.known.lookup p.name with
  | some v => apply KnownBy.refl
  | none =>
    intro name v hv
    have hname : name ≠ p.name := by
      rintro rfl
      rw [h] at hv
      cases hv
    rw [List.lookup_cons, beq_eq_false_iff_ne.mpr hname]
    exact hv

theorem knownBy_values (r : Resolver) (ps : List Property) :
  r.KnownBy (r.values ps).2
  := by
  induction ps generalizing r with
  | nil => apply KnownBy.refl
  | cons p ps ih =>
    cases hp : (r.value p).1 with
    | error fault =>
      rw [values_cons_of_error hp]
      apply knownBy_value
    | ok v =>
      rw [values_cons_of_ok hp]
      apply (r.knownBy_value p).trans (ih _)

/-- A resolver that knows what another one has answered gives the same answers. -/
theorem fst_values_of_knownBy {r r' : Resolver} {ps : List Property}
    (h : (r.values ps).2.KnownBy r') :
  (r'.values ps).1 = (r.values ps).1
  := by
  induction ps generalizing r with
  | nil => rfl
  | cons p ps ih =>
    have hknown := r.lookup_value p
    cases hp : (r.value p).1 with
    | error fault =>
      rw [values_cons_of_error hp] at h ⊢
      have hp' : r'.value p = (.error fault, r') := value_of_lookup (h _ _ (hp ▸ hknown))
      rw [values_cons_of_error (congrArg Prod.fst hp')]
    | ok v =>
      rw [values_cons_of_ok hp] at h ⊢
      have hlater := (knownBy_values _ ps).trans h
      have hp' : r'.value p = (.ok v, r') := value_of_lookup (hlater _ _ (hp ▸ hknown))
      rw [values_cons_of_ok (congrArg Prod.fst hp'), hp', ih h]

theorem knownBy_resolve (r : Resolver) (ps : List Property) :
  r.KnownBy (r.resolve ps).2
  := r.knownBy_values ps

theorem fst_resolve_of_knownBy {r r' : Resolver} {ps : List Property}
    (h : (r.resolve ps).2.KnownBy r') :
  (r'.resolve ps).1 = (r.resolve ps).1
  := congrArg (Except.map Settings.ofList) (fst_values_of_knownBy (r := r) h)

end Resolver

namespace Activation

/-- The resolver of a file after a rule has had its turn: a rule that is switched on asks for the
properties that it declares. -/
def consult (scope : Scope) (resolver : Resolver) (r : Registered) : Resolver :=
  match scope.isEnabled r.id with
  | .ok true => (resolver.resolve r.rule.properties).2
  | _ => resolver

theorem knownBy_consult (scope : Scope) (resolver : Resolver) (r : Registered) :
  resolver.KnownBy (consult scope resolver r)
  := by
  rw [consult]
  split
  · apply Resolver.knownBy_resolve
  · apply Resolver.KnownBy.refl

theorem knownBy_foldl_consult (scope : Scope) (resolver : Resolver) (rules : List Registered) :
  resolver.KnownBy (rules.foldl (consult scope) resolver)
  := by
  induction rules generalizing resolver with
  | nil => apply Resolver.KnownBy.refl
  | cons r rules ih => apply (knownBy_consult scope resolver r).trans (ih _)

/-- A rule with its settings, if it is switched on and a resolver has values for its
properties. -/
def configuredBy? (scope : Scope) (resolver : Resolver) (r : Registered) : Option Active :=
  match scope.isEnabled r.id with
  | .ok true => (resolver.resolve r.rule.properties).1.toOption.map (⟨r, ·⟩)
  | _ => none

/-- Why a rule that is not switched off is not configured. -/
def faultBy? (scope : Scope) (resolver : Resolver) (r : Registered) : Option PropertyFault :=
  match scope.isEnabled r.id with
  | .ok false => none
  | .error fault => some fault
  | .ok true =>
    match (resolver.resolve r.rule.properties).1 with
    | .ok _ => none
    | .error fault => some fault

/-- Each rule is configured, or not, as by any resolver that knows what all rules have asked. -/
theorem configure_eq {scope : Scope} {rules : List Registered} {resolver final : Resolver}
    (h : (rules.foldl (consult scope) resolver).KnownBy final) :
  configure scope resolver rules
    = (rules.filterMap (configuredBy? scope final),
      rules.filterMap fun r => (faultBy? scope final r).map (.ofProperty r.id))
  := by
  induction rules generalizing resolver with
  | nil => rfl
  | cons r rules ih =>
    have hrest := ih h
    have hturn := (knownBy_foldl_consult scope (consult scope resolver r) rules).trans h
    rw [configure, List.filterMap_cons, List.filterMap_cons, configuredBy?, faultBy?]
    rw [consult] at hrest hturn
    cases hon : scope.isEnabled r.id with
    | error fault =>
      simp only [hon] at hrest ⊢
      rw [hrest]
      rfl
    | ok on =>
      cases on with
      | false =>
        simp only [hon] at hrest ⊢
        rw [hrest]
        rfl
      | true =>
        simp only [hon] at hrest hturn ⊢
        have hvalue := Resolver.fst_resolve_of_knownBy hturn
        rw [hvalue]
        rcases hr : resolver.resolve r.rule.properties with ⟨value, resolver'⟩
        rw [hr] at hrest
        cases value with
        | error fault => simp [hrest, Except.toOption]
        | ok settings => simp [hrest, Except.toOption]

end Activation

/-! ### Faults -/

/-- What is wrong with the switch of a rule is its state. -/
theorem Scope.exists_of_isEnabled_error {s : Scope} {id : RuleId} {fault : PropertyFault}
    (h : s.isEnabled id = .error fault) :
  ∃ key value, fault = .invalidRuleState key value
  := by
  have hread {key : String} {v : Value} (hv : readState key v = .error fault) :
      ∃ key value, fault = .invalidRuleState key value := by
    cases v with
    | boolean b => cases hv
    | string t =>
      rw [readState] at hv
      split at hv
      · cases hv
      · split at hv
        · cases hv
        · exact ⟨_, _, (Except.error.inj hv).symm⟩
    | _ => exact ⟨_, _, (Except.error.inj hv).symm⟩
  rw [isEnabled] at h
  split at h
  · exact hread h
  · split at h
    · exact hread h
    · cases h

/-- What is wrong with a property is its value. -/
theorem Property.exists_of_resolve_error {p : Property} {s : Scope} {fault : PropertyFault}
    (h : p.resolve s = .error fault) :
  ∃ name value expected, fault = .invalid name value expected
  := by
  rw [resolve] at h
  split at h
  · rw [parse] at h
    split at h
    · cases h
    · exact ⟨_, _, _, (Except.error.inj h).symm⟩
  · cases h

/-- What is wrong with the properties of a rule is the value of one. -/
theorem Resolver.Remembers.exists_of_values_error {r : Resolver} {s : Scope}
    {read ps : List Property} {fault : PropertyFault} (h : r.Remembers s read)
    (he : (r.values ps).1 = .error fault) :
  ∃ name value expected, fault = .invalid name value expected
  := by
  induction ps generalizing r read with
  | nil => cases he
  | cons p ps ih =>
    cases hp : (r.value p).1 with
    | error fault' =>
      rw [values_cons_of_error hp] at he
      obtain rfl := Except.error.inj he
      rw [h.fst_value] at hp
      apply Property.exists_of_resolve_error hp
    | ok v =>
      rw [values_cons_of_ok hp] at he
      cases hrest : ((r.value p).2.values ps).1 with
      | error fault' =>
        rw [hrest] at he
        obtain rfl := Except.error.inj he
        apply ih (h.snd_value p) hrest
      | ok vs =>
        rw [hrest] at he
        cases he

/-- The rule that a diagnostic names. -/
def Diagnostic.ruleText? : Diagnostic → Option String
  | property id _ | ruleState id _ | missingRequiredRule id _ | unstable id _ | ruleFailed id _
  | invalidOffset id _ => some id
  | autocorrectAborted id _ => id
  | timedOut _ => none

theorem Diagnostic.ruleText?_ofProperty (id : RuleId) (fault : PropertyFault) :
  (ofProperty id fault).ruleText? = some id.text
  := by
  cases fault <;> rfl

/-- The diagnostics of a list that name a rule. -/
def diagnosticsOf (id : RuleId) (ds : List Diagnostic) : List Diagnostic :=
  ds.filter fun d => d.ruleText? = some id.text

theorem diagnosticsOf_append (id : RuleId) (ds es : List Diagnostic) :
  diagnosticsOf id (ds ++ es) = diagnosticsOf id ds ++ diagnosticsOf id es
  := List.filter_append ..

namespace Activation

/-! ### Rules that are not configured -/

/-- The faults of rules with different ids are told of each once. -/
theorem diagnosticsOf_faults {scope : Scope} {resolver : Resolver} {rules : List Registered}
    (hids : (rules.map Registered.id).Nodup) {r : Registered} (hr : r ∈ rules) :
  diagnosticsOf r.id
      (rules.filterMap fun q => (faultBy? scope resolver q).map (.ofProperty q.id))
    = ((faultBy? scope resolver r).map (Diagnostic.ofProperty r.id)).toList
  := by
  have hnames (q : Registered) :
      ((faultBy? scope resolver q).map (Diagnostic.ofProperty q.id)).filter
          (fun d => d.ruleText? = some r.id.text)
        = if q.id = r.id then (faultBy? scope resolver q).map (Diagnostic.ofProperty q.id)
          else none := by
    have hid : q.id.text = r.id.text ↔ q.id = r.id := RuleId.text_injective.eq_iff
    cases faultBy? scope resolver q with
    | none => simp
    | some fault => simp [Option.filter, Diagnostic.ruleText?_ofProperty, hid]
  have hone := congrArg
    (List.filterMap fun q => (faultBy? scope resolver q).map (Diagnostic.ofProperty q.id))
    (Engine.filter_id_eq hids hr)
  simp only [List.filterMap_filter, decide_eq_true_eq] at hone
  rw [diagnosticsOf, List.filter_filterMap]
  simp only [hnames]
  rw [hone, List.filterMap_cons]
  cases faultBy? scope resolver r <;> rfl

/-! ### Rules that miss a required rule -/

/-- What is told of the rules that are taken out names each of them once, and a rule that it
requires and that is not among those left. -/
structure Accounted (active left : List Active) (ds : List Diagnostic) : Prop where
  kept : ∀ a ∈ left, diagnosticsOf a.id ds = []
  dropped : ∀ a ∈ active, a ∉ left → ∃ required ∈ a.rule.requires,
    required ∉ left.map Active.id
      ∧ diagnosticsOf a.id ds = [.missingRequiredRule a.id.text required.text]
  named : ∀ d ∈ ds, ∃ a ∈ active, a ∉ left ∧ d.ruleText? = some a.id.text

theorem accounted_prune {n : Nat} {active : List Active} (hids : (active.map Active.id).Nodup) :
  Accounted active (prune n active).1 (prune n active).2
  := by
  have hnothing (active : List Active) : Accounted active active [] := by
    constructor
    · intro a _
      rfl
    · intro a ha hnot
      exact absurd ha hnot
    · intro d hd
      cases hd
  induction n generalizing active with
  | zero => apply hnothing
  | succ n ih =>
    rw [prune]
    split
    · apply hnothing
    · rename_i id required horphan
      obtain ⟨a, ha, rfl, hrequired, hmissing⟩ := orphan?_eq_some horphan
      obtain ⟨hkept, hdropped, hnamed⟩ := ih (hids.sublist (List.filter_sublist.map _))
      have hleft := sublist_prune n (active.filter fun b => b.id ≠ a.id)
      generalize prune n (active.filter fun b => b.id ≠ a.id) = rest at *
      have hother {b : Active} (hb : b.id ≠ a.id) :
          diagnosticsOf b.id (.missingRequiredRule a.id.text required.text :: rest.2)
            = diagnosticsOf b.id rest.2 := by
        apply List.filter_cons_of_neg
        simp [Diagnostic.ruleText?, RuleId.text_injective.eq_iff, Ne.symm hb]
      have hself : diagnosticsOf a.id rest.2 = [] := by
        apply List.filter_eq_nil_iff.mpr
        intro d hd hname
        obtain ⟨b, hb, -, hbname⟩ := hnamed d hd
        rw [hbname, decide_eq_true_eq, Option.some.injEq, RuleId.text_injective.eq_iff] at hname
        simpa [hname] using (List.mem_filter.mp hb).2
      have hout : ∀ b ∈ rest.1, b.id ≠ a.id := by
        intro b hb
        simpa using (List.mem_filter.mp (hleft.subset hb)).2
      constructor
      · intro b hb
        rw [hother (hout b hb)]
        apply hkept b hb
      · intro b hb hnot
        by_cases hbid : b.id = a.id
        · obtain rfl := List.inj_on_of_nodup_map hids hb ha hbid
          use required, hrequired
          constructor
          · intro hmem
            apply hmissing
            apply List.map_subset _ (hleft.trans List.filter_sublist).subset hmem
          · rw [diagnosticsOf, List.filter_cons_of_pos (by simp [Diagnostic.ruleText?])]
            rw [← diagnosticsOf, hself]
        · rw [hother hbid]
          apply hdropped b _ hnot
          rw [List.mem_filter, decide_eq_true_eq]
          exact ⟨hb, hbid⟩
      · intro d hd
        rcases List.mem_cons.mp hd with rfl | hd
        · use a, ha
          constructor
          · intro hmem
            exact hout a hmem rfl
          · rfl
        · obtain ⟨b, hb, hnot, hname⟩ := hnamed d hd
          exact ⟨b, (List.mem_filter.mp hb).1, hnot, hname⟩

end Activation

namespace Engine

open Activation

variable {e : Engine} {scope : Scope}

/-- The resolver of a file when all rules have had their turn. -/
def resolver (e : Engine) (scope : Scope) : Resolver :=
  e.rules.foldl (consult scope) (.ofScope scope)

/-- A rule is switched on, and the resolver of the file has values for all properties that it
declares. -/
structure Usable (e : Engine) (scope : Scope) (r : Registered) : Prop where
  enabled : scope.isEnabled r.id = .ok true
  resolved : ∃ settings, ((e.resolver scope).resolve r.rule.properties).1 = .ok settings

/-- A set of registered rules that are usable and require rules of the set only. -/
structure Supports (e : Engine) (scope : Scope) (rules : Set Registered) : Prop where
  registered : ∀ r ∈ rules, r ∈ e.rules
  usable : ∀ r ∈ rules, e.Usable scope r
  required : ∀ r ∈ rules, ∀ id ∈ r.requires, ∃ q ∈ rules, q.id = id

/-- Why a rule does not run: its state or the value of a property cannot be used, or it is usable
and a rule that it requires does not run. -/
inductive Explains (e : Engine) (scope : Scope) (r : Registered) : Diagnostic → Prop where
  | state {fault : PropertyFault} (unclear : scope.isEnabled r.id = .error fault) :
      Explains e scope r (.ruleState r.id.text fault.message)
  | property {fault : PropertyFault} (enabled : scope.isEnabled r.id = .ok true)
      (unresolved : ((e.resolver scope).resolve r.rule.properties).1 = .error fault) :
      Explains e scope r (.property r.id.text fault.message)
  | missing {required : RuleId} (usable : e.Usable scope r) (requires : required ∈ r.requires)
      (inactive : required ∉ (e.activate scope).1.map Active.id) :
      Explains e scope r (.missingRequiredRule r.id.text required.text)

theorem exists_remembers (e : Engine) (scope : Scope) :
  ∃ read, (e.resolver scope).Remembers scope read
  := by
  have hfoldl (rules : List Registered) {resolver : Resolver}
      (h : ∃ read, resolver.Remembers scope read) :
      ∃ read, (rules.foldl (consult scope) resolver).Remembers scope read := by
    induction rules generalizing resolver with
    | nil => exact h
    | cons r rules ih =>
      apply ih
      obtain ⟨read, hread⟩ := h
      rw [consult]
      split
      · exact ⟨_, hread.snd_values r.rule.properties⟩
      · exact ⟨read, hread⟩
  apply hfoldl
  exact ⟨[], .ofScope scope⟩

theorem configure_rules (e : Engine) (scope : Scope) :
  configure scope (.ofScope scope) e.rules
    = (e.rules.filterMap (configuredBy? scope (e.resolver scope)),
      e.rules.filterMap fun r =>
        (faultBy? scope (e.resolver scope) r).map (.ofProperty r.id))
  := configure_eq (Resolver.KnownBy.refl _)

theorem configuredBy?_eq_some_iff {r : Registered} {a : Active} :
  configuredBy? scope (e.resolver scope) r = some a
    ↔ a.rule = r ∧ scope.isEnabled r.id = .ok true
      ∧ ((e.resolver scope).resolve r.rule.properties).1 = .ok a.settings
  := by
  rw [configuredBy?]
  cases scope.isEnabled r.id with
  | error fault => simp
  | ok on =>
    cases on with
    | false => simp
    | true =>
      cases ((e.resolver scope).resolve r.rule.properties).1 with
      | error fault => simp [Except.toOption]
      | ok settings =>
        simp only [Except.toOption, Option.map_some, Option.some.injEq, true_and, Except.ok.injEq]
        constructor
        · rintro rfl
          exact ⟨rfl, rfl⟩
        · rintro ⟨rfl, rfl⟩
          rfl

theorem mem_configured_iff {a : Active} :
  a ∈ (configure scope (.ofScope scope) e.rules).1
    ↔ a.rule ∈ e.rules ∧ scope.isEnabled a.rule.id = .ok true
      ∧ ((e.resolver scope).resolve a.rule.rule.properties).1 = .ok a.settings
  := by
  rw [configure_rules, List.mem_filterMap]
  simp only [configuredBy?_eq_some_iff]
  constructor
  · rintro ⟨r, hr, rfl, hon, hvalue⟩
    exact ⟨hr, hon, hvalue⟩
  · rintro ⟨hr, hon, hvalue⟩
    exact ⟨a.rule, hr, rfl, hon, hvalue⟩

/-- What is wrong with a rule that has a fault is its state or a property. -/
theorem explains_of_faultBy? {r : Registered} {fault : PropertyFault}
    (h : faultBy? scope (e.resolver scope) r = some fault) :
  e.Explains scope r (.ofProperty r.id fault)
  := by
  rw [faultBy?] at h
  split at h
  · cases h
  · rename_i hstate
    obtain rfl := Option.some.inj h
    obtain ⟨key, value, rfl⟩ := Scope.exists_of_isEnabled_error hstate
    exact .state hstate
  · rename_i hon
    cases hvalue : ((e.resolver scope).resolve r.rule.properties).1 with
    | ok settings =>
      rw [hvalue] at h
      cases h
    | error fault' =>
      rw [hvalue] at h
      obtain rfl := Option.some.inj h
      obtain ⟨read, hread⟩ := e.exists_remembers scope
      have hvalues : ((e.resolver scope).values r.rule.properties).1 = .error fault' := by
        rw [Resolver.resolve] at hvalue
        cases hv : ((e.resolver scope).values r.rule.properties).1 with
        | error fault => simpa [hv, Except.map] using hvalue
        | ok vs => simp [hv, Except.map] at hvalue
      obtain ⟨name, value, expected, rfl⟩ := hread.exists_of_values_error hvalues
      exact .property hon hvalue

/-- A rule that is not switched off is usable or has a fault. -/
theorem faultBy?_eq_none_iff {r : Registered} (h : scope.isEnabled r.id ≠ .ok false) :
  faultBy? scope (e.resolver scope) r = none ↔ e.Usable scope r
  := by
  rw [faultBy?]
  cases hon : scope.isEnabled r.id with
  | error fault =>
    refine iff_of_false (by simp) ?_
    rintro ⟨henabled, -⟩
    rw [hon] at henabled
    cases henabled
  | ok on =>
    cases on with
    | false => exact absurd hon h
    | true =>
      cases hvalue : ((e.resolver scope).resolve r.rule.properties).1 with
      | error fault =>
        refine iff_of_false (by simp) ?_
        rintro ⟨-, settings, hsettings⟩
        rw [hvalue] at hsettings
        cases hsettings
      | ok settings => exact iff_of_true rfl ⟨hon, settings, hvalue⟩

theorem usable_of_configured {a : Active}
    (ha : a ∈ (configure scope (.ofScope scope) e.rules).1) :
  e.Usable scope a.rule
  := by
  obtain ⟨-, hon, hvalue⟩ := mem_configured_iff.mp ha
  exact ⟨hon, _, hvalue⟩

/-- A rule is configured in one way. -/
theorem configured_ext {a b : Active} (ha : a ∈ (configure scope (.ofScope scope) e.rules).1)
    (hb : b ∈ (configure scope (.ofScope scope) e.rules).1) (h : a.rule = b.rule) :
  a = b
  := by
  obtain ⟨-, -, hvalue⟩ := mem_configured_iff.mp ha
  obtain ⟨-, -, hvalue'⟩ := mem_configured_iff.mp hb
  obtain ⟨rule, settings⟩ := a
  obtain ⟨rule', settings'⟩ := b
  obtain rfl : rule = rule' := h
  rw [hvalue] at hvalue'
  obtain rfl : settings = settings' := Except.ok.inj hvalue'
  rfl

theorem configured_of_mem_activate {a : Active} (ha : a ∈ (e.activate scope).1) :
  a ∈ (configure scope (.ofScope scope) e.rules).1
  := (sublist_prune _ _).subset ha

/-! ### What is active -/

/-- The active rules support each other. -/
theorem supports_activate :
  e.Supports scope {r | r ∈ (e.activate scope).1.map Active.rule}
  := by
  constructor
  · intro r hr
    obtain ⟨a, ha, rfl⟩ := List.mem_map.mp hr
    apply rule_mem_of_mem_activate ha
  · intro r hr
    obtain ⟨a, ha, rfl⟩ := List.mem_map.mp hr
    apply usable_of_configured (configured_of_mem_activate ha)
  · intro r hr id hid
    obtain ⟨a, ha, rfl⟩ := List.mem_map.mp hr
    obtain ⟨b, hb, hbid⟩ := List.mem_map.mp (upheld_activate a ha id hid)
    exact ⟨b.rule, List.mem_map_of_mem hb, hbid⟩

/-- Rules that support each other are active. -/
theorem Supports.subset_activate (hids : (e.rules.map Registered.id).Nodup)
    {rules : Set Registered} (h : e.Supports scope rules) :
  rules ⊆ {r | r ∈ (e.activate scope).1.map Active.rule}
  := by
  classical
  have hconfigured {r : Registered} (hr : r ∈ rules) : ∃ a : Active, a.rule = r
      ∧ a ∈ (configure scope (.ofScope scope) e.rules).1.filter fun a => a.rule ∈ rules := by
    obtain ⟨hon, settings, hvalue⟩ := h.usable r hr
    use ⟨r, settings⟩, rfl
    rw [List.mem_filter, decide_eq_true_eq]
    exact ⟨mem_configured_iff.mpr ⟨h.registered r hr, hon, hvalue⟩, hr⟩
  have hkept : (configure scope (.ofScope scope) e.rules).1.filter (fun a => a.rule ∈ rules)
      ⊆ (e.activate scope).1 := by
    apply subset_prune
    · have hmap := (sublist_configure scope (.ofScope scope) e.rules).map Registered.id
      rw [List.map_map] at hmap
      apply hids.sublist hmap
    · intro a ha id hid
      rw [List.mem_filter, decide_eq_true_eq] at ha
      obtain ⟨q, hq, rfl⟩ := h.required a.rule ha.2 id hid
      obtain ⟨b, rfl, hb⟩ := hconfigured hq
      apply List.mem_map_of_mem hb
    · apply List.filter_subset_self
  intro r hr
  obtain ⟨a, rfl, ha⟩ := hconfigured hr
  apply List.mem_map_of_mem (hkept ha)

/-! ### What is told of the others -/

section

variable (hids : (e.rules.map Registered.id).Nodup)

include hids

theorem accounted_activate :
  Accounted (configure scope (.ofScope scope) e.rules).1 (e.activate scope).1
    (prune (configure scope (.ofScope scope) e.rules).1.length
      (configure scope (.ofScope scope) e.rules).1).2
  := by
  apply accounted_prune
  have hmap := (sublist_configure scope (.ofScope scope) e.rules).map Registered.id
  rw [List.map_map] at hmap
  apply hids.sublist hmap

/-- What is told of a rule is its fault, and what is told of it when it misses another. -/
theorem diagnosticsOf_activate {r : Registered} (hr : r ∈ e.rules) :
  diagnosticsOf r.id (e.activate scope).2
    = ((faultBy? scope (e.resolver scope) r).map (Diagnostic.ofProperty r.id)).toList
      ++ diagnosticsOf r.id (prune (configure scope (.ofScope scope) e.rules).1.length
        (configure scope (.ofScope scope) e.rules).1).2
  := by
  have hsplit : (e.activate scope).2 = (configure scope (.ofScope scope) e.rules).2
      ++ (prune (configure scope (.ofScope scope) e.rules).1.length
        (configure scope (.ofScope scope) e.rules).1).2 := rfl
  have hfaults : (configure scope (.ofScope scope) e.rules).2
      = e.rules.filterMap fun r =>
        (faultBy? scope (e.resolver scope) r).map (.ofProperty r.id) :=
    congrArg Prod.snd (configure_rules e scope)
  rw [hsplit, diagnosticsOf_append, hfaults, diagnosticsOf_faults hids hr]

/-- Every rule that does not run and is not just switched off is named once, with the reason. -/
theorem exists_explains {r : Registered} (hr : r ∈ e.rules)
    (hinactive : r ∉ (e.activate scope).1.map Active.rule)
    (hon : scope.isEnabled r.id ≠ .ok false) :
  ∃ d, diagnosticsOf r.id (e.activate scope).2 = [d] ∧ e.Explains scope r d
  := by
  obtain ⟨-, hdropped, hnamed⟩ := @accounted_activate e scope hids
  rw [diagnosticsOf_activate hids hr]
  cases hfault : faultBy? scope (e.resolver scope) r with
  | some fault =>
    refine ⟨.ofProperty r.id fault, ?_, explains_of_faultBy? hfault⟩
    rw [Option.map_some, Option.toList_some, List.append_right_eq_self]
    apply List.filter_eq_nil_iff.mpr
    intro d hd hname
    obtain ⟨a, ha, -, haname⟩ := hnamed d hd
    rw [haname, decide_eq_true_eq, Option.some.injEq, RuleId.text_injective.eq_iff] at hname
    -- the rule that is named is configured, so it has no fault
    obtain rfl := List.inj_on_of_nodup_map hids (mem_configured_iff.mp ha).1 hr hname
    rw [(faultBy?_eq_none_iff hon).mpr (usable_of_configured ha)] at hfault
    cases hfault
  | none =>
    have husable := (faultBy?_eq_none_iff hon).mp hfault
    obtain ⟨settings, hvalue⟩ := husable.resolved
    have ha : ⟨r, settings⟩ ∈ (configure scope (.ofScope scope) e.rules).1 :=
      mem_configured_iff.mpr ⟨hr, husable.enabled, hvalue⟩
    obtain ⟨required, hrequired, hmissing, hds⟩ := hdropped _ ha
      fun hmem => hinactive (List.mem_map_of_mem hmem)
    exact ⟨_, hds, .missing husable hrequired hmissing⟩

/-- What is told names a rule that does not run and is not just switched off. -/
theorem exists_of_mem_diagnostics {d : Diagnostic} (hd : d ∈ (e.activate scope).2) :
  ∃ r ∈ e.rules, r ∉ (e.activate scope).1.map Active.rule
    ∧ scope.isEnabled r.id ≠ .ok false ∧ d.ruleText? = some r.id.text
  := by
  rcases List.mem_append.mp hd with hd | hd
  · rw [configure_rules, List.mem_filterMap] at hd
    obtain ⟨r, hr, hfault⟩ := hd
    obtain ⟨fault, hfault, rfl⟩ := Option.map_eq_some_iff.mp hfault
    have hon : scope.isEnabled r.id ≠ .ok false := by
      intro hoff
      rw [faultBy?, hoff] at hfault
      cases hfault
    refine ⟨r, hr, ?_, hon, Diagnostic.ruleText?_ofProperty _ _⟩
    intro hmem
    rw [(faultBy?_eq_none_iff hon).mpr (supports_activate.usable r hmem)] at hfault
    cases hfault
  · obtain ⟨a, ha, hleft, hname⟩ := (accounted_activate hids).named d hd
    have husable := usable_of_configured ha
    refine ⟨a.rule, (mem_configured_iff.mp ha).1, ?_, ?_, hname⟩
    · intro hmem
      obtain ⟨b, hb, hrule⟩ := List.mem_map.mp hmem
      apply hleft
      rwa [← configured_ext (configured_of_mem_activate hb) ha hrule]
    · rw [husable.enabled]
      simp

end

/-- The active rules are the largest set of rules that are usable and require each other only, in
the order of the engine.  Every rule that is not among them and not just switched off is named in
one diagnostic, which says why it does not run, and no other rule is named. -/
theorem isGreatest_activate {s : Setup} {e : Engine} (he : s.build = .ok e) (scope : Scope) :
  IsGreatest {rules | e.Supports scope rules} {r | r ∈ (e.activate scope).1.map Active.rule}
    ∧ ((e.activate scope).1.map Active.rule).Sublist e.rules
    ∧ (∀ r ∈ e.rules, r ∉ (e.activate scope).1.map Active.rule →
      scope.isEnabled r.id ≠ .ok false →
      ∃ d, diagnosticsOf r.id (e.activate scope).2 = [d] ∧ e.Explains scope r d)
    ∧ ∀ d ∈ (e.activate scope).2, ∃ r ∈ e.rules, r ∉ (e.activate scope).1.map Active.rule
      ∧ scope.isEnabled r.id ≠ .ok false ∧ d.ruleText? = some r.id.text
  := by
  have hids := nodup_of_build he
  refine ⟨⟨supports_activate, ?_⟩, sublist_activate, ?_, ?_⟩
  · intro rules hrules
    apply hrules.subset_activate hids
  · intro r hr hinactive hon
    apply exists_explains hids hr hinactive hon
  · intro d hd
    apply exists_of_mem_diagnostics hids hd

/-- A rule that is switched off leaves out the rule that requires it, and the one that requires
that rule in its turn, while two rules that require each other are active. -/
theorem isGreatest_activate_chain :
  let rule : String → List Modifier → Rule :=
    fun id modifiers => ⟨id, "", [], modifiers, fun _ => .clean, fun s => .ok s.tree⟩
  let off : Scope := Scope.empty.insert "ktlint_demo_a" (.string "disabled")
  ∃ e, Setup.build ⟨[rule "demo:a" [], rule "demo:b" [.requires "demo:a"],
      rule "demo:c" [.requires "demo:b"], rule "demo:d" [.requires "demo:e"],
      rule "demo:e" [.requires "demo:d"]], [], 10, none⟩ = .ok e
    ∧ (e.activate off).1.map Active.id = [⟨"demo:d"⟩, ⟨"demo:e"⟩]
    ∧ IsGreatest {rules | e.Supports off rules} {r | r ∈ (e.activate off).1.map Active.rule}
    ∧ ∃ r ∈ e.rules, r.id = ⟨"demo:c"⟩
      ∧ ∃ d, diagnosticsOf r.id (e.activate off).2 = [d] ∧ e.Explains off r d
  := by
  intro rule off
  let registered : String → List Modifier → List RuleId → Registered :=
    fun id modifiers requires => ⟨⟨id⟩, rule id modifiers, [], requires, false⟩
  let c := registered "demo:c" [.requires "demo:b"] [⟨"demo:b"⟩]
  let e : Engine := ⟨[registered "demo:a" [] [],
    registered "demo:b" [.requires "demo:a"] [⟨"demo:a"⟩], c,
    registered "demo:d" [.requires "demo:e"] [⟨"demo:e"⟩],
    registered "demo:e" [.requires "demo:d"] [⟨"demo:d"⟩]], 10, none⟩
  have he : Setup.build ⟨[rule "demo:a" [], rule "demo:b" [.requires "demo:a"],
      rule "demo:c" [.requires "demo:b"], rule "demo:d" [.requires "demo:e"],
      rule "demo:e" [.requires "demo:d"]], [], 10, none⟩ = .ok e := by
    dsimp only [e, c, registered, rule]
    rfl
  have hactive : (e.activate off).1.map Active.id = [⟨"demo:d"⟩, ⟨"demo:e"⟩] := by
    decide +kernel
  have hc : c ∉ (e.activate off).1.map Active.rule := by
    intro hmem
    have hid := List.mem_map_of_mem (f := Registered.id) hmem
    rw [List.map_map] at hid
    exact absurd (hactive ▸ hid) (by decide)
  obtain ⟨hgreatest, -, hothers, -⟩ := isGreatest_activate he off
  use e, he, hactive, hgreatest, c, by simp [e], rfl
  apply hothers c (by simp [e]) hc
  decide

end Engine

end Fettle
