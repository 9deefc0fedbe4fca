import Fettle.Config.Scope
import Fettle.Proofs.Naming.Grammar

/-!
# Switching rules in a scope

The key that decides whether a rule is enabled is its own one or, without it, that of its rule
set (`Scope.deciding?`); what stands under it has to be a state (`Scope.States`).

Names of rules and rule sets have no underscores, so a key belongs to one rule only
(`Scope.eq_of_ruleKey_eq`) and no rule's key is that of a rule set (`Scope.ruleKey_ne`).  Hence a
rule does not depend on the keys of other rules, and depends on the key of a rule set only if it
belongs to the set and has no key of its own: `Scope.isEnabled_independent`.
-/

namespace Fettle

open Text

/-! ### Names in lower case -/

theorem IsSimple.letter_or_hyphen {s : List Char} (h : IsSimple s) :
  ∀ c ∈ s, ('a' ≤ c ∧ c ≤ 'z') ∨ c = '-'
  := by
  induction h with
  | word letters =>
    intro c hc
    exact .inl (letters.2 c hc)
  | joined letters _ ih =>
    intro c hc
    rcases List.mem_append.mp hc with hc | hc
    · exact .inl (letters.2 c hc)
    · rcases List.mem_cons.mp hc with rfl | hc
      · exact .inr rfl
      · apply ih c hc

theorem IsSimple.underscore_notMem {s : List Char} (h : IsSimple s) :
  '_' ∉ s
  := by
  intro hmem
  rcases h.letter_or_hyphen '_' hmem with hletter | heq
  · exact absurd hletter (by decide)
  · cases heq

theorem asciiLower_append (s t : String) :
  asciiLower (s ++ t) = asciiLower s ++ asciiLower t
  := by
  simp [asciiLower]

theorem sameIgnoringCase_iff {s t : String} :
  sameIgnoringCase s t = true ↔ asciiLower s = asciiLower t
  := beq_iff_eq

theorem toLower_of_letter {c : Char} (hc : 'a' ≤ c) :
  c.toLower = c
  := by
  apply dif_neg
  rintro ⟨-, hcapital⟩
  have hcapital : c ≤ 'Z' := hcapital
  exact absurd (le_trans hc hcapital) (by decide)

/-- Names are in lower case. -/
theorem IsSimple.asciiLower_eq {s : String} (h : IsSimple s.toList) :
  asciiLower s = s
  := by
  have hlower : s.toList.map Char.toLower = s.toList.map id := by
    apply List.map_congr_left
    intro c hc
    rcases h.letter_or_hyphen c hc with ⟨hletter, -⟩ | rfl
    · apply toLower_of_letter hletter
    · rfl
  rw [asciiLower, hlower, List.map_id, String.ofList_toList]

namespace Scope

/-! ### The keys of rules and rule sets -/

section

variable {set name : String} (hset : IsSimple set.toList)

include hset

theorem asciiLower_setKey :
  asciiLower ("ktlint_" ++ set) = "ktlint_" ++ set
  := by
  rw [asciiLower_append, hset.asciiLower_eq]
  rfl

theorem setKey_eq :
  setKey ⟨set ++ ":" ++ name⟩ = "ktlint_" ++ set
  := by
  rw [setKey, RuleId.ruleSet_eq hset.colon_notMem]

theorem ruleKey_eq :
  ruleKey ⟨set ++ ":" ++ name⟩ = "ktlint_" ++ set ++ "_" ++ name
  := by
  rw [ruleKey, RuleId.ruleSet_eq hset.colon_notMem, RuleId.name_eq hset.colon_notMem]

theorem asciiLower_ruleKey (hname : IsSimple name.toList) :
  asciiLower (ruleKey ⟨set ++ ":" ++ name⟩) = "ktlint_" ++ (set ++ ("_" ++ name))
  := by
  rw [ruleKey_eq hset, asciiLower_append, asciiLower_append, asciiLower_setKey hset,
    hname.asciiLower_eq, String.append_assoc, String.append_assoc]
  rfl

end

section

variable {a b set : String} {r q : RuleId} (hr : RuleId.parse a = .ok r)

include hr

/-- A key belongs to one rule, also where the case of letters does not matter. -/
theorem eq_of_ruleKey_eq (hq : RuleId.parse b = .ok q)
    (h : asciiLower (ruleKey q) = asciiLower (ruleKey r)) :
  q = r
  := by
  obtain ⟨set, name, hset, hname, rfl⟩ := (RuleId.parse_eq_ok_iff.mp hr).exists_parts
  obtain ⟨set', name', hset', hname', rfl⟩ := (RuleId.parse_eq_ok_iff.mp hq).exists_parts
  rw [asciiLower_ruleKey hset hname, asciiLower_ruleKey hset' hname', String.append_right_inj]
    at h
  have hsplit : set'.toList ++ '_' :: name'.toList = set.toList ++ '_' :: name.toList := by
    simpa using congrArg String.toList h
  have hfront := congrArg (List.takeWhile (· ≠ '_')) hsplit
  have hback := congrArg (List.dropWhile (· ≠ '_')) hsplit
  rw [takeWhile_ne_append hset'.underscore_notMem, takeWhile_ne_append hset.underscore_notMem]
    at hfront
  rw [dropWhile_ne_append hset'.underscore_notMem, dropWhile_ne_append hset.underscore_notMem]
    at hback
  rw [String.toList_injective hfront, String.toList_injective (List.cons.inj hback).2]

/-- The key of a rule is not that of a rule set. -/
theorem ruleKey_ne (hset : IsSimple set.toList) :
  asciiLower (ruleKey r) ≠ asciiLower ("ktlint_" ++ set)
  := by
  intro h
  obtain ⟨set', name, hset', hname, rfl⟩ := (RuleId.parse_eq_ok_iff.mp hr).exists_parts
  rw [asciiLower_ruleKey hset' hname, asciiLower_setKey hset, String.append_right_inj] at h
  apply hset.underscore_notMem
  rw [← h]
  simp

/-- The key of a rule set is that of the rules that belong to it. -/
theorem ruleSet_eq_of_setKey_eq (hset : IsSimple set.toList)
    (h : asciiLower (setKey r) = asciiLower ("ktlint_" ++ set)) :
  r.ruleSet = set
  := by
  obtain ⟨set', name, hset', -, rfl⟩ := (RuleId.parse_eq_ok_iff.mp hr).exists_parts
  rw [setKey_eq hset', asciiLower_setKey hset', asciiLower_setKey hset, String.append_right_inj]
    at h
  rw [RuleId.ruleSet_eq hset'.colon_notMem, h]

/-- The key of a rule is not that of its rule set. -/
theorem ruleKey_ne_setKey (hq : RuleId.parse b = .ok q) :
  asciiLower (setKey r) ≠ asciiLower (ruleKey q)
  := by
  obtain ⟨set, name, hset, -, rfl⟩ := (RuleId.parse_eq_ok_iff.mp hr).exists_parts
  rw [setKey_eq hset]
  apply (ruleKey_ne hq hset).symm

end

/-! ### What decides -/

/-- A value that switches a rule on or off. -/
inductive States : Value → Bool → Prop where
  | boolean (b : Bool) : States (.boolean b) b
  | enabled {s : String} (h : sameIgnoringCase s "enabled" = true) : States (.string s) true
  | disabled {s : String} (h : sameIgnoringCase s "disabled" = true) : States (.string s) false

theorem readState_eq_ok_iff {key : String} {v : Value} {b : Bool} :
  readState key v = .ok b ↔ States v b
  := by
  constructor
  · intro h
    unfold readState at h
    split at h
    · obtain rfl := Except.ok.inj h
      apply States.boolean
    · split at h
      · rename_i henabled
        obtain rfl := Except.ok.inj h
        apply States.enabled henabled
      · split at h
        · rename_i hdisabled
          obtain rfl := Except.ok.inj h
          apply States.disabled hdisabled
        · cases h
    · cases h
  · intro h
    cases h with
    | boolean b => rfl
    | enabled h => rw [readState, if_pos h]
    | @disabled s h =>
      have hnot : ¬ sameIgnoringCase s "enabled" = true := by
        rw [sameIgnoringCase_iff] at h ⊢
        rw [h]
        decide
      rw [readState, if_neg hnot, if_pos h]

theorem readState_eq_error_iff {key : String} {v : Value} {fault : PropertyFault} :
  readState key v = .error fault
    ↔ (∀ b, ¬ States v b) ∧ fault = .invalidRuleState key v.plain
  := by
  simp only [← @readState_eq_ok_iff key]
  cases v with
  | boolean b => simp [readState]
  | string s =>
    rw [readState, Value.plain]
    split
    · simp
    · split
      · simp
      · simp [eq_comm]
  | _ => simp [readState, eq_comm]

/-- The key that decides whether a rule is enabled, and its value: the rule's own key if the scope
holds it, else that of its rule set. -/
def deciding? (s : Scope) (id : RuleId) : Option (String × Value) :=
  ((s.get? (ruleKey id)).map (ruleKey id, ·)).or ((s.get? (setKey id)).map (setKey id, ·))

section

variable {s s' : Scope} {id : RuleId}

theorem isEnabled_eq :
  s.isEnabled id = match s.deciding? id with
    | some (key, v) => readState key v
    | none => .ok true
  := by
  rw [isEnabled, deciding?]
  cases s.get? (ruleKey id) with
  | some v => rfl
  | none => cases s.get? (setKey id) <;> rfl

theorem isEnabled_eq_ok_iff {b : Bool} :
  s.isEnabled id = .ok b ↔ (∃ key v, s.deciding? id = some (key, v) ∧ States v b)
    ∨ s.deciding? id = none ∧ b = true
  := by
  rw [isEnabled_eq]
  cases s.deciding? id with
  | none => simp [eq_comm]
  | some e =>
    obtain ⟨key, v⟩ := e
    simp [readState_eq_ok_iff]

theorem isEnabled_eq_error_iff {fault : PropertyFault} :
  s.isEnabled id = .error fault ↔ ∃ key v, s.deciding? id = some (key, v)
    ∧ (∀ b, ¬ States v b) ∧ fault = .invalidRuleState key v.plain
  := by
  rw [isEnabled_eq]
  cases s.deciding? id with
  | none => simp
  | some e =>
    obtain ⟨key, v⟩ := e
    simp [readState_eq_error_iff]

/-- A key does not matter for a rule if it is not the rule's own, and not that of its rule set
where the rule has none of its own. -/
theorem isEnabled_insert {key : String} (v : Value)
    (hrule : asciiLower (ruleKey id) ≠ asciiLower key)
    (hset : s.get? (ruleKey id) = none → asciiLower (setKey id) ≠ asciiLower key) :
  (s.insert key v).isEnabled id = s.isEnabled id
  := by
  rw [isEnabled, isEnabled, get?_insert, if_neg hrule]
  cases h : s.get? (ruleKey id) with
  | some v => rfl
  | none => rw [get?_insert, if_neg (hset h)]

end

/-! ### Independence -/

/-- The key of another rule does not matter for a rule, and that of a rule set matters only for the
rules of the set that have no key of their own.  The rule's own key decides, else that of its rule
set; without either the rule is enabled, and a value that is no state is a fault. -/
theorem isEnabled_independent (s : Scope) {a : String} {r : RuleId}
    (hr : RuleId.parse a = .ok r) :
  (∀ b q key v, RuleId.parse b = .ok q → q ≠ r → sameIgnoringCase key (ruleKey q) = true →
    (s.insert key v).isEnabled r = s.isEnabled r)
  ∧ (∀ set key v, ruleSetFault? set = none → sameIgnoringCase key ("ktlint_" ++ set) = true →
    (s.insert key v).isEnabled r ≠ s.isEnabled r →
      r.ruleSet = set ∧ s.get? (ruleKey r) = none)
  ∧ (∀ b, s.isEnabled r = .ok b ↔ (∃ key v, s.deciding? r = some (key, v) ∧ States v b)
    ∨ s.deciding? r = none ∧ b = true)
  ∧ ∀ fault, s.isEnabled r = .error fault ↔ ∃ key v, s.deciding? r = some (key, v)
    ∧ (∀ b, ¬ States v b) ∧ fault = .invalidRuleState key v.plain
  := by
  refine ⟨?_, ?_, fun b => isEnabled_eq_ok_iff, fun fault => isEnabled_eq_error_iff⟩
  · intro b q key v hq hne hkey
    rw [sameIgnoringCase_iff] at hkey
    apply isEnabled_insert
    · rw [hkey]
      intro heq
      apply hne
      apply eq_of_ruleKey_eq hr hq heq.symm
    · intro _
      rw [hkey]
      apply ruleKey_ne_setKey hr hq
  · intro set key v hset hkey hchanged
    rw [sameIgnoringCase_iff] at hkey
    have hsimple : IsSimple set.toList := ruleSetFault?_eq_none_iff.mp hset
    have hrule : asciiLower (ruleKey r) ≠ asciiLower key := by
      rw [hkey]
      apply ruleKey_ne hr hsimple
    constructor
    · by_contra hother
      apply hchanged
      apply isEnabled_insert v hrule
      intro _ heq
      apply hother
      apply ruleSet_eq_of_setKey_eq hr hsimple
      rw [heq, hkey]
    · by_contra hown
      apply hchanged
      apply isEnabled_insert v hrule
      intro hnone
      exact absurd hnone hown

/-- A rule, a rule whose id begins with its id, and the rule set of both. -/
theorem isEnabled_independent_longer :
  let s : Scope := .ofList [("ktlint_standard", .string "Enabled")]
  let r : RuleId := ⟨"standard:no-tabs"⟩
  let q : RuleId := ⟨"standard:no-tabs-here"⟩
  (RuleId.parse "no-tabs" = .ok r ∧ RuleId.parse "no-tabs-here" = .ok q ∧ q ≠ r
    ∧ sameIgnoringCase "KTLINT_Standard_no-tabs-here" (ruleKey q) = true
    ∧ (s.insert "KTLINT_Standard_no-tabs-here" (.string "disabled")).isEnabled r = s.isEnabled r)
  ∧ ruleSetFault? "standard" = none
    ∧ sameIgnoringCase "ktlint_STANDARD" ("ktlint_" ++ "standard") = true
    ∧ (s.insert "ktlint_STANDARD" (.boolean false)).isEnabled r ≠ s.isEnabled r
    ∧ r.ruleSet = "standard" ∧ s.get? (ruleKey r) = none
  := by
  intro s r q
  have hr : RuleId.parse "no-tabs" = .ok r := by
    decide
  have hq : RuleId.parse "no-tabs-here" = .ok q := by
    decide
  have hne : q ≠ r := by
    decide
  have hkey : sameIgnoringCase "KTLINT_Standard_no-tabs-here" (ruleKey q) = true := by
    decide
  have hset : ruleSetFault? "standard" = none := by
    decide
  have hsetKey : sameIgnoringCase "ktlint_STANDARD" ("ktlint_" ++ "standard") = true := by
    decide
  have hchanged : (s.insert "ktlint_STANDARD" (.boolean false)).isEnabled r ≠ s.isEnabled r := by
    decide
  obtain ⟨hother, hsets, -⟩ := isEnabled_independent s hr
  refine ⟨⟨hr, hq, hne, hkey, ?_⟩, hset, hsetKey, hchanged, ?_⟩
  · apply hother "no-tabs-here" q _ _ hq hne hkey
  · apply hsets "standard" _ _ hset hsetKey hchanged

end Scope

end Fettle
