import Fettle.Engine.Basic
import Fettle.Proofs.Order.Topological
import Mathlib.Data.List.Forall2
import Mathlib.Data.List.Perm.Basic

/-!
# Registered rules

`build_eq_ok_iff` says when rules and rule sets make an engine: each is read without a fault, the
ids are different, every required rule is there, and no rule has to come before itself.  The
engine then has the least order of the rules, whatever the order in which they were listed
(`Setup.Reordered.exists_build`).  The rules that some of the rules of an engine need make an
engine of their own (`exists_build_of_subset`).
-/

namespace Fettle

/-! ### Reading rules -/

theorem Except.bind_eq_ok_iff {ε α β : Type} {x : Except ε α} {f : α → Except ε β} {b : β} :
  x >>= f = .ok b ↔ ∃ a, x = .ok a ∧ f a = .ok b
  := by
  cases x with
  | error e => simp [bind, Except.bind]
  | ok a => simp [bind, Except.bind]

theorem mapM_eq_ok_iff {α β ε : Type} {f : α → Except ε β} {l : List α} {m : List β} :
  l.mapM f = .ok m ↔ List.Forall₂ (fun a b => f a = .ok b) l m
  := by
  induction l generalizing m with
  | nil =>
    rw [List.mapM_nil, List.forall₂_nil_left_iff]
    exact ⟨fun h => (Except.ok.inj h).symm, fun h => by rw [h]; rfl⟩
  | cons a l ih =>
    rw [List.mapM_cons, Except.bind_eq_ok_iff, List.forall₂_cons_left_iff]
    apply exists_congr
    intro b
    simp only [Except.bind_eq_ok_iff, ih]
    constructor
    · rintro ⟨hb, bs, hbs, hm⟩
      exact ⟨bs, hb, hbs, (Except.ok.inj hm).symm⟩
    · rintro ⟨bs, hb, hbs, rfl⟩
      exact ⟨hb, bs, hbs, rfl⟩

theorem exists_of_forall₂ {α β : Type} {R : α → β → Prop} {l : List α} {m : List β}
    (h : List.Forall₂ R l m) {b : β} (hb : b ∈ m) :
  ∃ a ∈ l, R a b
  := by
  induction h with
  | nil => cases hb
  | @cons a c l m hac _ ih =>
    rcases List.mem_cons.mp hb with rfl | hb
    · exact ⟨a, List.mem_cons_self, hac⟩
    · obtain ⟨a', ha', hab⟩ := ih hb
      exact ⟨a', List.mem_cons_of_mem _ ha', hab⟩

namespace Registered

theorem rule_withModifier {r r' : Registered} {m : Modifier} (h : r.withModifier m = .ok r') :
  r'.rule = r.rule
  := by
  cases m with
  | late =>
    obtain rfl := Except.ok.inj h
    rfl
  | runAfter other | requires other =>
    rw [withModifier] at h
    cases hread : readId other with
    | error fault =>
      rw [hread] at h
      cases h
    | ok id =>
      rw [hread] at h
      obtain rfl := Except.ok.inj h
      rfl

/-- A registered rule holds the rule that it was read from. -/
theorem rule_ofRule {rule : Rule} {r : Registered} (h : ofRule rule = .ok r) :
  r.rule = rule
  := by
  have hfold (r₀ : Registered) (ms : List Modifier) (h : ms.foldlM withModifier r₀ = .ok r) :
      r.rule = r₀.rule := by
    induction ms generalizing r₀ with
    | nil => rw [Except.ok.inj h]
    | cons m ms ih =>
      rw [List.foldlM_cons, Except.bind_eq_ok_iff] at h
      obtain ⟨r₁, hm, hms⟩ := h
      rw [ih r₁ hms, rule_withModifier hm]
  rw [ofRule, Except.bind_eq_ok_iff] at h
  obtain ⟨id, -, hms⟩ := h
  apply hfold _ _ hms

theorem ofMember_eq_ok_iff {name : String} {rule : Rule} {r : Registered} :
  ofMember name rule = .ok r ↔ ofRule rule = .ok r ∧ r.id.ruleSet = name
  := by
  rw [ofMember, Except.bind_eq_ok_iff]
  constructor
  · rintro ⟨r', hr', hset⟩
    split at hset
    · rename_i hname
      obtain rfl := Except.ok.inj hset
      exact ⟨hr', hname⟩
    · cases hset
  · rintro ⟨hr, hname⟩
    use r, hr
    rw [if_pos hname]

theorem ofSet_eq_ok_iff {s : RuleSet} {rs : List Registered} :
  ofSet s = .ok rs
    ↔ ruleSetFault? s.id = none ∧ List.Forall₂ (fun a b => ofMember s.id a = .ok b) s.rules rs
  := by
  rw [ofSet, ← mapM_eq_ok_iff]
  cases ruleSetFault? s.id <;> simp

end Registered

/-! ### Registration -/

theorem repeated?_eq_none_iff {seen ids : List RuleId} :
  repeated? seen ids = none ↔ ids.Nodup ∧ ∀ id ∈ ids, id ∉ seen
  := by
  induction ids generalizing seen with
  | nil => simp [repeated?]
  | cons id ids ih =>
    rw [repeated?, List.nodup_cons]
    split
    · rename_i h
      rw [List.contains_iff_mem] at h
      simp [h]
    · rename_i h
      rw [List.contains_iff_mem] at h
      rw [ih]
      constructor
      · rintro ⟨hids, hnot⟩
        refine ⟨⟨fun hid => hnot id hid List.mem_cons_self, hids⟩, fun i hi => ?_⟩
        rcases List.mem_cons.mp hi with rfl | hi
        · exact h
        · exact fun hin => hnot i hi (List.mem_cons_of_mem _ hin)
      · rintro ⟨⟨hid, hids⟩, hnot⟩
        refine ⟨hids, fun i hi hin => ?_⟩
        rcases List.mem_cons.mp hin with rfl | hin
        · exact hid hi
        · exact hnot i (List.mem_cons_of_mem _ hi) hin

/-- Every rule that one of some rules requires is among them. -/
def Supplied (rules : List Registered) : Prop :=
  ∀ r ∈ rules, ∀ id ∈ r.requires, id ∈ rules.map Registered.id

theorem missing?_eq_none_iff {rules : List Registered} :
  missing? rules = none ↔ Supplied rules
  := by
  rw [missing?, List.findSome?_eq_none_iff]
  apply forall₂_congr
  intro r _
  rw [Option.map_eq_none_iff, List.find?_eq_none]
  apply forall₂_congr
  intro id _
  simp

theorem Supplied.perm {rules rules' : List Registered} (h : rules.Perm rules')
    (hrules : Supplied rules) :
  Supplied rules'
  := by
  intro r hr id hid
  apply (h.map Registered.id).subset
  apply hrules r (h.symm.subset hr) id hid

/-- Of some rules with different ids, lists with the same ids are the same. -/
theorem eq_of_map_id {rules l m : List Registered} (h : (rules.map Registered.id).Nodup)
    (hl : l ⊆ rules) (hm : m ⊆ rules) (hids : l.map Registered.id = m.map Registered.id) :
  l = m
  := by
  induction l generalizing m with
  | nil =>
    cases m with
    | nil => rfl
    | cons b m => cases hids
  | cons a l ih =>
    cases m with
    | nil => cases hids
    | cons b m =>
      obtain ⟨hab, hrest⟩ := List.cons.inj hids
      obtain ⟨ha, hl⟩ := List.cons_subset.mp hl
      obtain ⟨hb, hm⟩ := List.cons_subset.mp hm
      rw [Registered.eq_of_id h ha hb hab, ih hl hm hrest]

namespace Engine.Setup

/-- The rules of a setup, each read without a fault, in the order in which they are listed. -/
def Lists (s : Setup) (all : List Registered) : Prop :=
  ∃ single members, List.Forall₂ (fun a b => Registered.ofRule a = .ok b) s.rules single
    ∧ List.Forall₂ (fun a b => Registered.ofSet a = .ok b) s.ruleSets members
    ∧ all = single ++ members.flatten

/-- Rules make an engine if their ids are different, every rule that is required is there, and they
can be put in order. -/
theorem build_eq_ok_iff {s : Setup} {e : Engine} :
  s.build = .ok e ↔ ∃ all order, s.Lists all ∧ (all.map Registered.id).Nodup ∧ Supplied all
    ∧ executionOrder all = .ok order ∧ e = ⟨order, s.maxPasses, s.timeout⟩
  := by
  rw [build, registration]
  simp only [Except.bind_eq_ok_iff, mapM_eq_ok_iff]
  constructor
  · rintro ⟨all, ⟨single, hsingle, members, hmembers, hall⟩, order, horder, he⟩
    have hlist : all = single ++ members.flatten
        ∧ repeated? [] ((single ++ members.flatten).map Registered.id) = none
        ∧ missing? (single ++ members.flatten) = none := by
      split at hall
      · cases hall
      · split at hall
        · cases hall
        · rename_i hrepeated _ hmissing
          exact ⟨(Except.ok.inj hall).symm, hrepeated, hmissing⟩
    obtain ⟨rfl, hrepeated, hmissing⟩ := hlist
    use single ++ members.flatten, order, ⟨single, members, hsingle, hmembers, rfl⟩
    use (repeated?_eq_none_iff.mp hrepeated).1, missing?_eq_none_iff.mp hmissing, horder
    exact (Except.ok.inj he).symm
  · rintro ⟨all, order, ⟨single, members, hsingle, hmembers, rfl⟩, hids, hsupplied, horder, rfl⟩
    refine ⟨_, ⟨single, hsingle, members, hmembers, ?_⟩, order, horder, rfl⟩
    have hrepeated : repeated? [] ((single ++ members.flatten).map Registered.id) = none :=
      repeated?_eq_none_iff.mpr ⟨hids, by simp⟩
    rw [hrepeated, missing?_eq_none_iff.mpr hsupplied]

namespace Lists

variable {s : Setup} {all : List Registered}

/-- The rules of a setup are read from rules. -/
theorem ofRule (h : s.Lists all) {r : Registered} (hr : r ∈ all) :
  Registered.ofRule r.rule = .ok r
  := by
  obtain ⟨single, members, hsingle, hmembers, rfl⟩ := h
  have hread : ∃ rule, Registered.ofRule rule = .ok r := by
    rcases List.mem_append.mp hr with hr | hr
    · obtain ⟨rule, -, hrule⟩ := exists_of_forall₂ hsingle hr
      exact ⟨rule, hrule⟩
    · obtain ⟨rs, hrs, hr⟩ := List.mem_flatten.mp hr
      obtain ⟨set, -, hset⟩ := exists_of_forall₂ hmembers hrs
      obtain ⟨rule, -, hrule⟩ := exists_of_forall₂ (Registered.ofSet_eq_ok_iff.mp hset).2 hr
      exact ⟨rule, (Registered.ofMember_eq_ok_iff.mp hrule).1⟩
  obtain ⟨rule, hrule⟩ := hread
  rwa [Registered.rule_ofRule hrule]

end Lists

/-! ### Other orders -/

/-- A setup lists the rules of another in another order: the single rules, the rule sets, and the
rules of each set. -/
structure Reordered (s' s : Setup) : Prop where
  rules : s'.rules.Perm s.rules
  ruleSets : ∃ sets, s'.ruleSets.Perm sets
    ∧ List.Forall₂ (fun a b => a.id = b.id ∧ a.rules.Perm b.rules) sets s.ruleSets

theorem Reordered.exists_lists {s s' : Setup} (h : s'.Reordered s) {all : List Registered}
    (hall : s.Lists all) :
  ∃ all', s'.Lists all' ∧ all'.Perm all
  := by
  obtain ⟨single, members, hsingle, hmembers, rfl⟩ := hall
  obtain ⟨sets, hsets, hsame⟩ := h.ruleSets
  obtain ⟨single', hsingle', hperm⟩ := List.perm_comp_forall₂ h.rules hsingle
  -- The sets with their rules in another order are read to the same rules in another order.
  have hset : ∃ lists, List.Forall₂ (fun a b => Registered.ofSet a = .ok b) sets lists
      ∧ lists.flatten.Perm members.flatten := by
    clear hsingle hsets
    generalize s.ruleSets = ruleSets at hmembers hsame
    induction hsame generalizing members with
    | nil =>
      use [], .nil
      rw [List.forall₂_nil_left_iff.mp hmembers]
    | @cons a b sets ruleSets hab _ ih =>
      obtain ⟨rs, rest, hrs, hrest, rfl⟩ := List.forall₂_cons_left_iff.mp hmembers
      obtain ⟨hfault, hmember⟩ := Registered.ofSet_eq_ok_iff.mp hrs
      obtain ⟨rs', hmember', hrsperm⟩ := List.perm_comp_forall₂ hab.2 hmember
      obtain ⟨lists, hlists, hlistsperm⟩ := ih rest hrest
      rw [← hab.1] at hfault hmember'
      use rs' :: lists, .cons (Registered.ofSet_eq_ok_iff.mpr ⟨hfault, hmember'⟩) hlists
      rw [List.flatten_cons, List.flatten_cons]
      apply hrsperm.append hlistsperm
  obtain ⟨lists, hlists, hflatten⟩ := hset
  obtain ⟨members', hmembers', hperm'⟩ := List.perm_comp_forall₂ hsets hlists
  use single' ++ members'.flatten, ⟨single', members', hsingle', hmembers', rfl⟩
  apply hperm.append (hperm'.flatten.trans hflatten)

/-- A setup that lists its rules in another order makes an engine with the same rules in the same
order. -/
theorem Reordered.exists_build {s s' : Setup} (h : s'.Reordered s) {e : Engine}
    (he : s.build = .ok e) :
  ∃ e', s'.build = .ok e' ∧ e'.rules = e.rules
  := by
  obtain ⟨all, order, hall, hids, hsupplied, horder, rfl⟩ := build_eq_ok_iff.mp he
  obtain ⟨all', hall', hperm⟩ := h.exists_lists hall
  have hids' := (hperm.map Registered.id).nodup_iff.mpr hids
  have hacyclic := ((exists_executionOrder_iff hids).mp ⟨order, horder⟩).mono hperm.subset
  obtain ⟨order', horder'⟩ := (exists_executionOrder_iff hids').mpr hacyclic
  refine ⟨_, build_eq_ok_iff.mpr
    ⟨all', order', hall', hids', hsupplied.perm hperm.symm, horder', rfl⟩, ?_⟩
  have hleast := isLeastOrder_of_executionOrder hids horder
  have hleast' := isLeastOrder_of_executionOrder hids' horder'
  apply eq_of_map_id hids
  · intro r hr
    apply hperm.subset (hleast'.perm.subset hr)
  · intro r hr
    apply hleast.perm.subset hr
  · apply hleast'.map_id_eq hperm hleast

/-! ### Some of the rules -/

/-- Some rules of an engine that need no others make an engine of their own, in which they come in
the order that they have in the engine. -/
theorem exists_build_of_subset {s : Setup} {e : Engine} (he : s.build = .ok e)
    {part : List Registered} (hpart : part.Sublist e.rules) (hsupplied : Supplied part) :
  ∃ s' e', build s' = .ok e' ∧ e'.rules.Perm part
  := by
  obtain ⟨all, order, hall, hids, -, horder, rfl⟩ := build_eq_ok_iff.mp he
  have hleast := isLeastOrder_of_executionOrder hids horder
  have hids' : (part.map Registered.id).Nodup :=
    ((hleast.perm.map Registered.id).nodup_iff.mpr hids).sublist (hpart.map _)
  have hsub : part ⊆ all := fun r hr => hleast.perm.subset (hpart.subset hr)
  have hacyclic := ((exists_executionOrder_iff hids).mp ⟨order, horder⟩).mono hsub
  obtain ⟨order', horder'⟩ := (exists_executionOrder_iff hids').mpr hacyclic
  have hlists : Lists ⟨part.map Registered.rule, [], s.maxPasses, s.timeout⟩ part := by
    use part, []
    refine ⟨?_, .nil, by simp⟩
    rw [List.forall₂_map_left_iff, List.forall₂_same]
    intro r hr
    apply hall.ofRule (hsub hr)
  refine ⟨_, _, build_eq_ok_iff.mpr ⟨part, order', hlists, hids', hsupplied, horder', rfl⟩, ?_⟩
  apply (isLeastOrder_of_executionOrder hids' horder').perm

end Engine.Setup

end Fettle
