import Fettle.RuleId
import Mathlib.Data.List.TakeWhile
import Mathlib.Data.String.Basic
import Mathlib.Tactic.Use

/-!
# The grammar of rule ids

A name is *simple* if it is one or more words of lower-case letters, joined by single hyphens.
`isName` recognises the simple names (`isName_iff`).

A text *names* a rule if it is simple, and the rule is then one of the rule set `standard`, or if
it is two simple names with a colon between them.  `RuleId.parse` reads what a text names
(`RuleId.parse_eq_ok_iff`).  The text of an id that has been read falls into the names of the rule
set and the rule in one way only and names the id again, so there are no two texts of one rule but
with and without the rule set `standard`: `RuleId.parse_grammar`.
-/

namespace Fettle

/-- One or more lower-case letters. -/
def IsWord (w : List Char) : Prop :=
  w ≠ [] ∧ ∀ c ∈ w, 'a' ≤ c ∧ c ≤ 'z'

/-- One or more words, joined by single hyphens. -/
inductive IsSimple : List Char → Prop where
  | word {w : List Char} (letters : IsWord w) : IsSimple w
  | joined {w s : List Char} (letters : IsWord w) (rest : IsSimple s) : IsSimple (w ++ '-' :: s)

/-! ### The first occurrence of an entry -/

section

variable {α : Type} [DecidableEq α] {a : α} {u : List α} (h : a ∉ u) (v : List α)

include h

theorem takeWhile_ne_append :
  (u ++ a :: v).takeWhile (· ≠ a) = u
  := by
  rw [List.takeWhile_append_of_pos]
  · simp
  · intro b hb
    simpa using ne_of_mem_of_not_mem hb h

theorem dropWhile_ne_append :
  (u ++ a :: v).dropWhile (· ≠ a) = a :: v
  := by
  rw [List.dropWhile_append_of_pos]
  · simp
  · intro b hb
    simpa using ne_of_mem_of_not_mem hb h

end

/-! ### Recognising names -/

theorem isLower_iff {c : Char} :
  c.isLower = true ↔ 'a' ≤ c ∧ c ≤ 'z'
  := by
  apply Bool.and_eq_true_iff.trans
  rw [decide_eq_true_eq, decide_eq_true_eq]
  exact Iff.rfl

/-- A name follows a hyphen. -/
theorem isNameTail_hyphen (s : List Char) :
  isNameTail ('-' :: s) = isName s
  := by
  cases s with
  | nil => rfl
  | cons c s => rw [isNameTail, isName]

theorem isNameTail_of_letter {c : Char} (hc : 'a' ≤ c ∧ c ≤ 'z') (s : List Char) :
  isNameTail (c :: s) = isNameTail s
  := by
  have hlower := isLower_iff.mpr hc
  rw [isNameTail, hlower, Bool.true_and]
  rintro d t rfl
  exact absurd hlower (by decide)

theorem isNameTail_append {w : List Char} (hw : ∀ c ∈ w, 'a' ≤ c ∧ c ≤ 'z') (s : List Char) :
  isNameTail (w ++ s) = isNameTail s
  := by
  induction w with
  | nil => rfl
  | cons c w ih =>
    rw [List.forall_mem_cons] at hw
    rw [List.cons_append, isNameTail_of_letter hw.1, ih hw.2]

theorem isName_append {w : List Char} (hw : IsWord w) (s : List Char) :
  isName (w ++ s) = isNameTail s
  := by
  obtain ⟨hne, hletters⟩ := hw
  obtain ⟨c, w, rfl⟩ := List.exists_cons_of_ne_nil hne
  rw [List.forall_mem_cons] at hletters
  rw [List.cons_append, isName, isLower_iff.mpr hletters.1, Bool.true_and,
    isNameTail_append hletters.2]

/-- A word is the front of a name with any text that can follow a letter. -/
theorem isSimple_append {w s : List Char} (hw : IsWord w) (hs : isNameTail s = true) :
  IsSimple (w ++ s)
  := by
  induction s using isNameTail.induct generalizing w with
  | case1 =>
    rw [List.append_nil]
    apply IsSimple.word hw
  | case2 c s ih =>
    rw [isNameTail, Bool.and_eq_true, isLower_iff] at hs
    apply IsSimple.joined hw
    rw [← List.singleton_append]
    apply ih _ hs.2
    use List.cons_ne_nil c []
    intro d hd
    obtain rfl := List.mem_singleton.mp hd
    exact hs.1
  | case3 c s hc ih =>
    rw [isNameTail, Bool.and_eq_true, isLower_iff] at hs
    · rw [List.append_cons]
      apply ih _ hs.2
      constructor
      · simp
      · intro d hd
        rcases List.mem_append.mp hd with hd | hd
        · apply hw.2 d hd
        · obtain rfl := List.mem_singleton.mp hd
          exact hs.1
    · exact hc

/-- The names that are recognised are the simple ones. -/
theorem isName_iff {s : List Char} :
  isName s = true ↔ IsSimple s
  := by
  constructor
  · intro h
    cases s with
    | nil => cases h
    | cons c s =>
      rw [isName, Bool.and_eq_true, isLower_iff] at h
      rw [← List.singleton_append]
      apply isSimple_append _ h.2
      use List.cons_ne_nil c []
      intro d hd
      obtain rfl := List.mem_singleton.mp hd
      exact h.1
  · intro h
    induction h with
    | @word w letters =>
      rw [← List.append_nil w, isName_append letters]
      rfl
    | joined letters _ ih => rw [isName_append letters, isNameTail_hyphen, ih]

theorem ruleSetFault?_eq_none_iff {id : String} :
  ruleSetFault? id = none ↔ IsSimple id.toList
  := by
  rw [ruleSetFault?, ← isName_iff]
  cases isName id.toList <;> simp

theorem IsSimple.colon_notMem {s : List Char} (h : IsSimple s) :
  ':' ∉ s
  := by
  have hword {w : List Char} (hw : IsWord w) : ':' ∉ w := by
    intro hmem
    exact absurd (hw.2 ':' hmem) (by decide)
  induction h with
  | word letters => apply hword letters
  | joined letters _ ih =>
    rw [List.mem_append, List.mem_cons]
    rintro (hmem | heq | hmem)
    · apply hword letters hmem
    · cases heq
    · apply ih hmem

/-! ### Reading rule ids -/

namespace RuleId

/-- A text is the name of a rule, with its rule set or, for a rule of the rule set `standard`,
without it. -/
inductive Names : String → RuleId → Prop where
  | bare {s : String} (hs : IsSimple s.toList) : Names s ⟨"standard:" ++ s⟩
  | full {set name : String} (hset : IsSimple set.toList) (hname : IsSimple name.toList) :
    Names (set ++ ":" ++ name) ⟨set ++ ":" ++ name⟩

theorem toList_full (set name : String) :
  (set ++ ":" ++ name).toList = set.toList ++ ':' :: name.toList
  := by
  simp

section

variable {set name : String} (hset : ':' ∉ set.toList)

include hset

theorem ruleSet_eq :
  ruleSet ⟨set ++ ":" ++ name⟩ = set
  := by
  rw [ruleSet, toList_full, dropWhile_ne_append hset, takeWhile_ne_append hset]
  apply String.ofList_toList

theorem name_eq :
  RuleId.name ⟨set ++ ":" ++ name⟩ = name
  := by
  rw [RuleId.name, toList_full, dropWhile_ne_append hset]
  apply String.ofList_toList

theorem parse_full :
  parse (set ++ ":" ++ name)
    = if isName set.toList && isName name.toList then .ok ⟨set ++ ":" ++ name⟩
      else .error (.ruleId (set ++ ":" ++ name))
  := by
  rw [parse, toList_full, dropWhile_ne_append hset, takeWhile_ne_append hset]

end

theorem parse_bare {s : String} (hs : ':' ∉ s.toList) :
  parse s
    = if isName s.toList then .ok ⟨"standard:" ++ s⟩ else .error (.ruleId s)
  := by
  have hnil : s.toList.dropWhile (· ≠ ':') = [] := by
    rw [List.dropWhile_eq_nil_iff]
    intro c hc
    simpa using ne_of_mem_of_not_mem hc hs
  rw [parse, hnil]
  rfl

/-- Reading a text yields the rule that it names. -/
theorem parse_eq_ok_iff {s : String} {id : RuleId} :
  parse s = .ok id ↔ Names s id
  := by
  constructor
  · intro h
    by_cases hs : ':' ∈ s.toList
    · obtain ⟨a, b, hsplit, ha⟩ := List.eq_append_cons_of_mem hs
      obtain ⟨set, rfl⟩ : ∃ set : String, set.toList = a := ⟨.ofList a, String.toList_ofList⟩
      obtain ⟨name, rfl⟩ : ∃ name : String, name.toList = b := ⟨.ofList b, String.toList_ofList⟩
      obtain rfl : s = set ++ ":" ++ name := by
        apply String.toList_injective
        rw [hsplit]
        simp
      rw [parse_full ha] at h
      split at h
      · rename_i hnames
        rw [Bool.and_eq_true, isName_iff, isName_iff] at hnames
        obtain rfl := Except.ok.inj h
        apply Names.full hnames.1 hnames.2
      · cases h
    · rw [parse_bare hs] at h
      split at h
      · rename_i hname
        obtain rfl := Except.ok.inj h
        apply Names.bare (isName_iff.mp hname)
      · cases h
  · intro h
    cases h with
    | bare hs => rw [parse_bare hs.colon_notMem, isName_iff.mpr hs, if_pos rfl]
    | full hset hname =>
      rw [parse_full hset.colon_notMem, isName_iff.mpr hset, isName_iff.mpr hname, Bool.and_true,
        if_pos rfl]

namespace Names

variable {s : String} {id : RuleId}

/-- The text of an id that has been named is two simple names with a colon between them. -/
theorem exists_parts (h : Names s id) :
  ∃ set name : String, IsSimple set.toList ∧ IsSimple name.toList
    ∧ id = ⟨set ++ ":" ++ name⟩
  := by
  cases h with
  | bare hs =>
    refine ⟨"standard", s, ?_, hs, rfl⟩
    rw [← isName_iff]
    decide
  | full hset hname => exact ⟨_, _, hset, hname, rfl⟩

/-- An id is named by its own text. -/
theorem text (h : Names s id) :
  Names id.text id
  := by
  obtain ⟨set, name, hset, hname, rfl⟩ := h.exists_parts
  apply Names.full hset hname

/-- A text with a colon names no rule without its rule set. -/
theorem not_isSimple_full (set name : String) :
  ¬ IsSimple (set ++ ":" ++ name).toList
  := by
  intro h
  apply h.colon_notMem
  simp

/-- Two texts name the same rule exactly if they are the same, or one is the other with the rule
set `standard` before it. -/
theorem id_eq_iff {t : String} {id' : RuleId} (h : Names s id) (h' : Names t id') :
  id = id' ↔ s = t ∨ (IsSimple s.toList ∧ t = "standard:" ++ s)
    ∨ (IsSimple t.toList ∧ s = "standard:" ++ t)
  := by
  have hstandard (u : String) : ¬ IsSimple ("standard:" ++ u).toList :=
    not_isSimple_full "standard" u
  cases h with
  | bare hs =>
    cases h' with
    | bare ht =>
      rw [RuleId.mk.injEq, String.append_right_inj]
      constructor
      · apply Or.inl
      · rintro (heq | ⟨-, rfl⟩ | ⟨-, rfl⟩)
        · exact heq
        · exact absurd ht (hstandard _)
        · exact absurd hs (hstandard _)
    | @full set name =>
      rw [RuleId.mk.injEq]
      constructor
      · intro heq
        right
        left
        use hs, heq.symm
      · rintro (rfl | ⟨-, heq⟩ | ⟨hsimple, -⟩)
        · exact absurd hs (not_isSimple_full set name)
        · exact heq.symm
        · exact absurd hsimple (not_isSimple_full set name)
  | @full set name =>
    rw [RuleId.mk.injEq]
    cases h' with
    | bare ht =>
      constructor
      · intro heq
        right
        right
        use ht, heq
      · rintro (rfl | ⟨hsimple, -⟩ | ⟨-, heq⟩)
        · exact absurd ht (not_isSimple_full set name)
        · exact absurd hsimple (not_isSimple_full set name)
        · exact heq
    | @full set' name' =>
      constructor
      · apply Or.inl
      · rintro (heq | ⟨hsimple, -⟩ | ⟨hsimple, -⟩)
        · exact heq
        · exact absurd hsimple (not_isSimple_full set name)
        · exact absurd hsimple (not_isSimple_full set' name')

end Names

/-- A text is read as a rule id exactly if it is simple, or two simple names with a colon between
them.  The text of the id has one colon, the names of the rule set and of the rule are what stands
before and after it, both are names that rule sets can have, and the id is read from its own text.
Another text is read as the same id only if it is the same text or one of the two is the other with
the rule set `standard` before it. -/
theorem parse_grammar (s : String) :
  ((∃ id, parse s = .ok id) ↔ IsSimple s.toList
    ∨ ∃ set name : String, IsSimple set.toList ∧ IsSimple name.toList ∧ s = set ++ ":" ++ name)
  ∧ ∀ id, parse s = .ok id →
    id.text.toList.count ':' = 1 ∧ id.text = id.ruleSet ++ ":" ++ id.name
    ∧ ruleSetFault? id.ruleSet = none ∧ ruleSetFault? id.name = none
    ∧ parse id.text = .ok id
    ∧ ∀ t id', parse t = .ok id' → (id = id' ↔ s = t
      ∨ (IsSimple s.toList ∧ t = "standard:" ++ s)
      ∨ (IsSimple t.toList ∧ s = "standard:" ++ t))
  := by
  constructor
  · constructor
    · rintro ⟨id, h⟩
      cases parse_eq_ok_iff.mp h with
      | bare hs => apply Or.inl hs
      | full hset hname => exact .inr ⟨_, _, hset, hname, rfl⟩
    · rintro (hs | ⟨set, name, hset, hname, rfl⟩)
      · exact ⟨_, parse_eq_ok_iff.mpr (.bare hs)⟩
      · exact ⟨_, parse_eq_ok_iff.mpr (.full hset hname)⟩
  · intro id h
    rw [parse_eq_ok_iff] at h
    have hagain := parse_eq_ok_iff.mpr h.text
    have hsame : ∀ t id', parse t = .ok id' → (id = id' ↔ s = t
        ∨ (IsSimple s.toList ∧ t = "standard:" ++ s)
        ∨ (IsSimple t.toList ∧ s = "standard:" ++ t)) := by
      intro t id' h'
      apply h.id_eq_iff (parse_eq_ok_iff.mp h')
    obtain ⟨set, name, hset, hname, rfl⟩ := h.exists_parts
    rw [ruleSet_eq hset.colon_notMem, name_eq hset.colon_notMem]
    refine ⟨?_, rfl, ?_, ?_, hagain, hsame⟩
    · have hcount (w : String) (hw : IsSimple w.toList) : w.toList.count ':' = 0 :=
        List.count_eq_zero_of_not_mem hw.colon_notMem
      rw [String.toList_append, String.toList_append, List.count_append, List.count_append,
        hcount set hset, hcount name hname]
      rfl
    · rw [ruleSetFault?, if_pos (isName_iff.mpr hset)]
    · rw [ruleSetFault?, if_pos (isName_iff.mpr hname)]

/-- A rule named without its rule set and with it. -/
theorem parse_grammar_hyphens :
  let s := "no-multi-spaces"
  let t := "standard:no-multi-spaces"
  let id : RuleId := ⟨"standard:no-multi-spaces"⟩
  (parse s = .ok id ∧ parse t = .ok id)
  ∧ id.text.toList.count ':' = 1 ∧ id.text = id.ruleSet ++ ":" ++ id.name
  ∧ ruleSetFault? id.ruleSet = none ∧ ruleSetFault? id.name = none
  ∧ parse id.text = .ok id
  ∧ (id = id ↔ s = t
    ∨ (IsSimple s.toList ∧ t = "standard:" ++ s)
    ∨ (IsSimple t.toList ∧ s = "standard:" ++ t))
  := by
  intro s t id
  have hs : parse s = .ok id := by
    decide
  have ht : parse t = .ok id := by
    decide
  obtain ⟨hcount, hparts, hset, hname, hagain, hsame⟩ := (parse_grammar s).2 id hs
  exact ⟨⟨hs, ht⟩, hcount, hparts, hset, hname, hagain, hsame t id ht⟩

end RuleId

end Fettle
