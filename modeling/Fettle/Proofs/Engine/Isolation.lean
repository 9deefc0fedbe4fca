import Fettle.Proofs.Engine.Activity
import Fettle.Proofs.Engine.Emission
import Fettle.Proofs.Order.Registering

/-!
# Rules do not disturb each other

Linting asks all rules in one sweep, drops what is suppressed, and sorts what remains, but what it
reports of one rule depends on that rule alone, once it is active with its settings
(`filter_violations_lint`).  The rules that a rule requires are all that it takes for the rule to
be active, and the order in which rules are listed has no effect: `violations_lint_of_rule`.
-/

namespace Fettle

/-! ### One rule in a sweep -/

/-- What a sweep finds for one rule is what a sweep of its visits finds. -/
theorem filter_sweep (t : Tree) (id : RuleId) {failed failed' : List RuleId}
    (h : failed.contains id = failed'.contains id) (vs : List (NodeId × Active)) :
  (sweep t failed vs).1.filter (fun p => p.ruleId = id)
    = (sweep t failed' (vs.filter fun v => v.2.id = id)).1
  := by
  induction vs generalizing failed failed' with
  | nil => rfl
  | cons v vs ih =>
    by_cases hid : v.2.id = id
    · have hfound : (found t v).filter (fun p => p.ruleId = id) = found t v := by
        rw [List.filter_eq_self]
        intro p hp
        obtain ⟨f, -, rfl⟩ := List.mem_map.mp hp
        simp [hid]
      have hnext : (failedAfter t failed v).contains id = (failedAfter t failed' v).contains id := by
        rw [contains_failedAfter, contains_failedAfter, h]
      rw [List.filter_cons_of_pos (by simp [hid]), fst_sweep_cons, fst_sweep_cons, hid, h]
      split
      · apply ih h
      · rw [List.filter_append, hfound, ih hnext]
    · have hfound : (found t v).filter (fun p => p.ruleId = id) = [] := by
        rw [List.filter_eq_nil_iff]
        intro p hp
        obtain ⟨f, -, rfl⟩ := List.mem_map.mp hp
        simp [hid]
      have hnext : (failedAfter t failed v).contains id = failed'.contains id := by
        rw [contains_failedAfter, decide_eq_false hid, Bool.false_and, Bool.or_false, h]
      rw [List.filter_cons_of_neg (by simp [hid]), fst_sweep_cons]
      split
      · apply ih h
      · rw [List.filter_append, hfound, List.nil_append, ih hnext]

theorem filter_visits (t : Tree) (active : List Active) (id : RuleId) :
  (visits t active).filter (fun v => v.2.id = id)
    = visits t (active.filter fun a => a.id = id)
  := by
  simp only [visits, List.filter_flatMap, List.filter_map]
  rfl

namespace Engine

/-- What linting reports of one rule depends on the active rules of its id only. -/
theorem filter_violations_lint {e e' : Engine} {scope : Scope} {id : RuleId}
    (h : (e.activate scope).1.filter (fun a => a.id = id)
      = (e'.activate scope).1.filter (fun a => a.id = id)) (t : Tree) :
  (e.lint t scope).violations.filter (fun v => v.ruleId = id.text)
    = (e'.lint t scope).violations.filter (fun v => v.ruleId = id.text)
  := by
  have hrule (ps : List Pending) :
      (ps.filterMap (Pending.violation? t.text)).filter (fun v => v.ruleId = id.text)
        = (ps.filter fun p => p.ruleId = id).filterMap (Pending.violation? t.text) := by
    rw [List.filter_filterMap, List.filterMap_filter]
    apply List.filterMap_congr
    intro p _
    have hid : p.ruleId.text = id.text ↔ p.ruleId = id := RuleId.text_injective.eq_iff
    unfold Pending.violation?
    cases Position.ofOffset t.text p.offset with
    | error fault => simp
    | ok pos => simp [Option.filter, hid]
  have hsurviving (e : Engine) : (e.surviving t scope).filter (fun p => p.ruleId = id)
      = (sweep t [] (visits t ((e.activate scope).1.filter fun a => a.id = id))).1.filter
          fun p => !Suppression.isSuppressed (Suppression.spans t) p.offset p.ruleId := by
    rw [surviving_eq]
    unfold detect
    rw [List.filter_comm, filter_sweep t id rfl, filter_visits]
  have hlint (e : Engine) := hrule ((e.surviving t scope).mergeSort Pending.atOrBefore)
  simp only [filter_mergeSort Pending.isTotalPreorder_atOrBefore, ← violations_lint_eq] at hlint
  rw [hlint, hlint, hsurviving, hsurviving, h]

/-- What linting reports depends on the rules of the engine only, not on its limits. -/
theorem violations_lint_congr {e e' : Engine} (h : e'.rules = e.rules) (t : Tree)
    (scope : Scope) :
  (e'.lint t scope).violations = (e.lint t scope).violations
  := by
  obtain ⟨rules, maxPasses, timeout⟩ := e
  obtain ⟨rules', maxPasses', timeout'⟩ := e'
  obtain rfl : rules' = rules := h
  rfl

end Engine

/-! ### A rule and those it requires -/

/-- A rule requires another, which is in a list. -/
def Requires (rules : List Registered) (r q : Registered) : Prop :=
  q ∈ rules ∧ q.id ∈ r.requires

namespace Engine

/-- An engine holds a rule of another engine, and those that it requires there, be it through a
chain of rules, and no others. -/
def HoldsOnly (e' e : Engine) (r : Registered) : Prop :=
  ∀ q, q ∈ e'.rules ↔ Relation.ReflTransGen (Requires e.rules) r q

section

variable {s : Setup} {e : Engine} (he : s.build = .ok e)

include he

theorem nodup_of_build :
  (e.rules.map Registered.id).Nodup
  := by
  obtain ⟨all, order, -, hids, -, horder, rfl⟩ := Setup.build_eq_ok_iff.mp he
  have hperm := (isLeastOrder_of_executionOrder hids horder).perm
  exact (hperm.map Registered.id).nodup_iff.mpr hids

theorem supplied_of_build :
  Supplied e.rules
  := by
  obtain ⟨all, order, -, hids, hsupplied, horder, rfl⟩ := Setup.build_eq_ok_iff.mp he
  apply hsupplied.perm (isLeastOrder_of_executionOrder hids horder).perm.symm

/-- The rules that a rule requires are enough to make an engine. -/
theorem exists_holdsOnly {r : Registered} (hr : r ∈ e.rules) :
  ∃ s' e', Setup.build s' = .ok e' ∧ e'.HoldsOnly e r
  := by
  classical
  have hmem {q : Registered} (hq : Relation.ReflTransGen (Requires e.rules) r q) :
      q ∈ e.rules := by
    cases hq with
    | refl => exact hr
    | tail _ hlast => exact hlast.1
  have hsupplied : Supplied
      (e.rules.filter fun q => Relation.ReflTransGen (Requires e.rules) r q) := by
    intro q hq id hid
    rw [List.mem_filter, decide_eq_true_eq] at hq
    obtain ⟨p, hp, rfl⟩ := List.mem_map.mp (supplied_of_build he q hq.1 id hid)
    apply List.mem_map_of_mem
    rw [List.mem_filter, decide_eq_true_eq]
    exact ⟨hp, hq.2.tail ⟨hp, hid⟩⟩
  obtain ⟨s', e', he', hperm⟩ := Setup.exists_build_of_subset he List.filter_sublist hsupplied
  use s', e', he'
  intro q
  rw [hperm.mem_iff, List.mem_filter, decide_eq_true_eq]
  exact ⟨And.right, fun hq => ⟨hmem hq, hq⟩⟩

end

/-- Of entries with different ids, one has the id of an entry that is among them. -/
theorem filter_id_eq {α β : Type} [DecidableEq β] {id : α → β} {l : List α}
    (h : (l.map id).Nodup) {a : α} (ha : a ∈ l) :
  l.filter (fun b => id b = id a) = [a]
  := by
  induction l with
  | nil => cases ha
  | cons b l ih =>
    obtain ⟨hb, hl⟩ := List.nodup_cons.mp h
    rcases List.mem_cons.mp ha with rfl | ha
    · have hother : l.filter (fun b => id b = id a) = [] := by
        rw [List.filter_eq_nil_iff]
        intro c hc hid
        apply hb
        rw [← of_decide_eq_true hid]
        apply List.mem_map_of_mem hc
      rw [List.filter_cons_of_pos (by simp), hother]
    · have hne : id b ≠ id a := by
        intro hid
        apply hb
        rw [hid]
        apply List.mem_map_of_mem ha
      rw [List.filter_cons_of_neg (by simp [hne]), ih hl ha]

/-- A rule that is active in an engine is active with the same settings in one that holds just what
it requires. -/
theorem mem_activate_of_holdsOnly {s' : Setup} {e e' : Engine} {scope : Scope} {a : Active}
    (he' : s'.build = .ok e') (hrules : Consistent e.rules)
    (ha : a ∈ (e.activate scope).1) (hholds : e'.HoldsOnly e a.rule) :
  a ∈ (e'.activate scope).1
  := by
  classical
  have hsub : e'.rules ⊆ e.rules := by
    intro q hq
    cases (hholds q).mp hq with
    | refl => apply rule_mem_of_mem_activate ha
    | tail _ hlast => exact hlast.1
  have hkept : (e.activate scope).1.filter (fun b => b.rule ∈ e'.rules) ⊆ (e'.activate scope).1 := by
    apply subset_activate (nodup_of_build he') (hrules.mono hsub)
    · intro b hb id hid
      rw [List.mem_filter, decide_eq_true_eq] at hb
      obtain ⟨c, hc, rfl⟩ := List.mem_map.mp (upheld_activate b hb.1 id hid)
      apply List.mem_map_of_mem
      rw [List.mem_filter, decide_eq_true_eq]
      use hc
      apply (hholds c.rule).mpr
      apply ((hholds b.rule).mp hb.2).tail
      exact ⟨rule_mem_of_mem_activate hc, hid⟩
    · intro b hb
      rw [List.mem_filter, decide_eq_true_eq] at hb
      exact ⟨hb.2, configured?_of_mem_activate hrules hb.1⟩
  apply hkept
  rw [List.mem_filter, decide_eq_true_eq]
  exact ⟨ha, (hholds a.rule).mpr .refl⟩

/-- If properties of one name are the same, what linting reports of an active rule is what an
engine reports that holds only this rule and those it requires; and the order in which rules are
listed makes no difference. -/
theorem violations_lint_of_rule {s : Setup} {e : Engine} (he : s.build = .ok e)
    (hrules : Consistent e.rules) :
  (∀ scope, ∀ a ∈ (e.activate scope).1,
      (∃ s' e', Setup.build s' = .ok e' ∧ e'.HoldsOnly e a.rule)
      ∧ ∀ s' e', Setup.build s' = .ok e' → e'.HoldsOnly e a.rule → ∀ t,
        (e.lint t scope).violations.filter (fun v => v.ruleId = a.id.text)
          = (e'.lint t scope).violations.filter (fun v => v.ruleId = a.id.text))
    ∧ ∀ s', Setup.Reordered s' s → ∃ e', s'.build = .ok e'
      ∧ ∀ t scope, (e'.lint t scope).violations = (e.lint t scope).violations
  := by
  constructor
  · intro scope a ha
    use exists_holdsOnly he (rule_mem_of_mem_activate ha)
    intro s' e' he' hholds
    have ha' := mem_activate_of_holdsOnly he' hrules ha hholds
    apply filter_violations_lint
    rw [filter_id_eq (nodup_activate (nodup_of_build he)) ha,
      filter_id_eq (nodup_activate (nodup_of_build he')) ha']
  · intro s' hs'
    obtain ⟨e', he', heq⟩ := hs'.exists_build he
    use e', he'
    apply violations_lint_congr heq

/-- Three rules: one reports every node and requires another, which declares the same property, and
the third one reports every node as well.  What the third one reports is missed without it, and
nothing else is. -/
theorem violations_lint_of_rule_third :
  let quiet : Rule := ⟨"demo:quiet", "", [.indentSize], [], fun _ => .clean, fun s => .ok s.tree⟩
  let loud : Rule := ⟨"demo:loud", "", [.indentSize], [.requires "demo:quiet"],
    fun s => .found [s.finding s.node 0 "a node" false], fun s => .ok s.tree⟩
  let other : Rule := ⟨"demo:other", "", [.maxLineLength], [],
    fun s => .found [s.finding s.node 0 "another node" false], fun s => .ok s.tree⟩
  let file : Tree := .ofRoot .file none .nil
  ∃ e e', Setup.build ⟨[quiet, other, loud], [], 10, none⟩ = .ok e
    ∧ Setup.build ⟨[quiet, loud], [], 10, none⟩ = .ok e'
    ∧ Consistent e.rules
    ∧ (e.lint file .empty).violations.map Violation.ruleId = ["demo:loud", "demo:other"]
    ∧ (e'.lint file .empty).violations.map Violation.ruleId = ["demo:loud"]
    ∧ (∃ a ∈ (e.activate .empty).1, a.id = ⟨"demo:loud"⟩ ∧ e'.HoldsOnly e a.rule
      ∧ ∀ t, (e.lint t .empty).violations.filter (fun v => v.ruleId = a.id.text)
          = (e'.lint t .empty).violations.filter (fun v => v.ruleId = a.id.text))
    ∧ ∃ e'', Setup.build ⟨[loud, other, quiet], [], 10, none⟩ = .ok e''
      ∧ ∀ t scope, (e''.lint t scope).violations = (e.lint t scope).violations
  := by
  intro quiet loud other file
  let loud' : Registered := ⟨⟨"demo:loud"⟩, loud, [], [⟨"demo:quiet"⟩], false⟩
  let other' : Registered := ⟨⟨"demo:other"⟩, other, [], [], false⟩
  let quiet' : Registered := ⟨⟨"demo:quiet"⟩, quiet, [], [], false⟩
  let e : Engine := ⟨[loud', other', quiet'], 10, none⟩
  let e' : Engine := ⟨[loud', quiet'], 10, none⟩
  have he : Setup.build ⟨[quiet, other, loud], [], 10, none⟩ = .ok e := by
    dsimp only [e, quiet', other', loud', quiet, other, loud]
    rfl
  have he' : Setup.build ⟨[quiet, loud], [], 10, none⟩ = .ok e' := by
    dsimp only [e', quiet', loud', quiet, loud]
    rfl
  have hrules : Consistent e.rules := by
    simp [Consistent, e, quiet', other', loud', quiet, other, loud, Property.indentSize,
      Property.maxLineLength]
  have hactive : ⟨loud', ⟨[("indent_size", .int 4)]⟩⟩ ∈ (e.activate .empty).1 := by
    apply List.mem_cons_self
  have hholds : e'.HoldsOnly e loud' := by
    intro q
    constructor
    · intro hq
      obtain rfl | rfl : q = loud' ∨ q = quiet' := by simpa [e'] using hq
      · exact .refl
      · apply Relation.ReflTransGen.single
        simp [Requires, e, loud', quiet']
    · intro hq
      induction hq with
      | refl => apply List.mem_cons_self
      | @tail p q _ hlast ih =>
        obtain ⟨hq, hid⟩ := hlast
        obtain rfl | rfl : p = loud' ∨ p = quiet' := by simpa [e'] using ih
        · obtain rfl | rfl | rfl : q = loud' ∨ q = other' ∨ q = quiet' := by simpa [e] using hq
          · simp [loud'] at hid
          · simp [loud', other'] at hid
          · simp [e']
        · simp [quiet'] at hid
  have hreordered : Setup.Reordered ⟨[loud, other, quiet], [], 10, none⟩
      ⟨[quiet, other, loud], [], 10, none⟩ :=
    ⟨List.reverse_perm [quiet, other, loud], [], .refl _, .nil⟩
  obtain ⟨honly, horder⟩ := violations_lint_of_rule he hrules
  have hall : (e.lint file .empty).violations.map Violation.ruleId
      = ["demo:loud", "demo:other"] := by
    rw [violations_lint_of_pairwise (by decide +kernel)]
    decide +kernel
  have hpair : (e'.lint file .empty).violations.map Violation.ruleId = ["demo:loud"] := by
    rw [violations_lint_of_pairwise (by decide +kernel)]
    decide +kernel
  refine ⟨e, e', he, he', hrules, hall, hpair, ?_, horder _ hreordered⟩
  use ⟨loud', ⟨[("indent_size", .int 4)]⟩⟩, hactive, rfl, hholds
  apply (honly .empty _ hactive).2 _ e' he' hholds

end Engine

end Fettle
