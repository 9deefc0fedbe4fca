import Fettle.Proofs.Config.Enabling
import Fettle.Proofs.Config.Ordered
import Fettle.Proofs.Text.Bytewise

/-!
# The layers of a scope

The scope of a file is made of the properties of all files and, over them, those of the overrides
that apply to its path.  Of several spellings of a key in one table the greatest counts, byte by
byte, which is the last one in a table in ascending order (`Table.Gives`, `Table.gives_iff`), as all
tables are in a configuration that has been read (`Config.ordered_of_parse`).

Which paths a pattern covers is left open here:  an override applies to a path if one of its
patterns covers it (`Override.Applies`), and the scope of a file, `Config.scopeFor`, is
`Config.scopeBy` for the patterns that configurations are written in.  What a key is set to depends
on nothing but the entries with a spelling of that key in the tables that apply,
`Config.entriesFor`:  it is the value of the last of them (`Config.get?_scopeBy`).
Hence the last override that applies and holds the key decides, and the properties of all files if
there is none:  `Config.get?_scopeBy_iff`.
-/

namespace Fettle

open Text

/-! ### One table -/

namespace Table

/-- The entries of a table whose keys are spellings of a key. -/
def entriesOf (t : Table) (k : String) : Table :=
  t.filter fun e => sameIgnoringCase e.1 k

/-- A table holds a spelling of a key. -/
def Holds (t : Table) (k : String) : Prop :=
  ∃ e ∈ t, sameIgnoringCase e.1 k = true

instance (t : Table) (k : String) : Decidable (t.Holds k) :=
  inferInstanceAs (Decidable (∃ e ∈ t, sameIgnoringCase e.1 k = true))

/-- The value that a table gives for a key: that of the spelling of the key in it whose bytes are
the greatest. -/
def Gives (t : Table) (k : String) (v : Value) : Prop :=
  ∃ spelling, (spelling, v) ∈ t ∧ sameIgnoringCase spelling k = true
    ∧ ∀ e ∈ t, sameIgnoringCase e.1 k = true → bytes e.1 ≤ bytes spelling

variable {t : Table} {k : String}

theorem mem_entriesOf {e : String × Value} :
  e ∈ t.entriesOf k ↔ e ∈ t ∧ sameIgnoringCase e.1 k = true
  := List.mem_filter

theorem entriesOf_cons (e : String × Value) (t : Table) (k : String) :
  entriesOf (e :: t) k = if sameIgnoringCase e.1 k then e :: t.entriesOf k else t.entriesOf k
  := List.filter_cons

theorem entriesOf_eq_nil_iff :
  t.entriesOf k = [] ↔ ¬ t.Holds k
  := by
  rw [List.eq_nil_iff_forall_not_mem]
  simp only [mem_entriesOf, Holds, not_exists]

/-- In a table in ascending order the greatest spelling of a key comes last. -/
theorem gives_iff (h : Ascending t) {v : Value} :
  t.Gives k v ↔ (t.entriesOf k).getLast?.map Prod.snd = some v
  := by
  have hsorted : Ascending (t.entriesOf k) := List.Pairwise.filter _ h
  rw [Option.map_eq_some_iff]
  constructor
  · rintro ⟨spelling, hmem, hsame, hgreatest⟩
    have hentry : (spelling, v) ∈ t.entriesOf k := mem_entriesOf.mpr ⟨hmem, hsame⟩
    obtain ⟨front, e, hfront⟩ := (List.eq_nil_or_concat _).resolve_left (List.ne_nil_of_mem hentry)
    rw [List.concat_eq_append] at hfront
    rw [hfront] at hentry hsorted
    rcases List.mem_append.mp hentry with hbefore | hlast
    · -- the last entry would have a greater spelling
      have hlt := (List.pairwise_append.mp hsorted).2.2 _ hbefore e List.mem_cons_self
      have he : e ∈ t.entriesOf k := by
        rw [hfront]
        simp
      rw [mem_entriesOf] at he
      exact absurd (bytes_le_iff.mp (hgreatest e he.1 he.2)) (not_le.mpr hlt)
    · rw [← List.mem_singleton.mp hlast] at hfront
      use (spelling, v)
      rw [hfront, List.getLast?_concat]
      use rfl
  · rintro ⟨⟨spelling, v'⟩, hlast, rfl⟩
    obtain ⟨front, hfront⟩ := List.getLast?_eq_some_iff.mp hlast
    have hentry : (spelling, v') ∈ t.entriesOf k := by
      rw [hfront]
      simp
    rw [mem_entriesOf] at hentry
    use spelling, hentry.1, hentry.2
    intro e he hsame
    have hmem : e ∈ t.entriesOf k := mem_entriesOf.mpr ⟨he, hsame⟩
    rw [hfront] at hmem hsorted
    rw [bytes_le_iff]
    rcases List.mem_append.mp hmem with hbefore | hlast
    · apply le_of_lt
      apply (List.pairwise_append.mp hsorted).2.2 _ hbefore _ List.mem_cons_self
    · rw [List.mem_singleton.mp hlast]

end Table

/-! ### One layer over others -/

namespace Scope

variable {s : Scope} {t : Table} {k : String}

/-- The last entry with a spelling of a key decides, if the table holds one. -/
theorem get?_merge (s : Scope) (t : Table) (k : String) :
  (s.merge t).get? k = ((t.entriesOf k).getLast?.map Prod.snd).or (s.get? k)
  := by
  induction t generalizing s with
  | nil => rfl
  | cons e t ih =>
    change ((s.insert e.1 e.2).merge t).get? k = _
    rw [ih, get?_insert, Table.entriesOf_cons]
    by_cases h : sameIgnoringCase e.1 k = true
    · rw [if_pos h, if_pos (sameIgnoringCase_iff.mp h).symm, List.getLast?_cons]
      cases List.getLast? (Table.entriesOf t k) <;> rfl
    · rw [if_neg h, if_neg fun heq => h (sameIgnoringCase_iff.mpr heq.symm)]

theorem get?_merge_eq_some_iff (h : Ascending t) {v : Value} :
  (s.merge t).get? k = some v ↔ t.Gives k v ∨ ¬ t.Holds k ∧ s.get? k = some v
  := by
  rw [get?_merge, Option.or_eq_some_iff, t.gives_iff h, ← t.entriesOf_eq_nil_iff,
    Option.map_eq_none_iff, List.getLast?_eq_none_iff]

theorem get?_merge_eq_none_iff :
  (s.merge t).get? k = none ↔ ¬ t.Holds k ∧ s.get? k = none
  := by
  rw [get?_merge, Option.or_eq_none_iff, ← t.entriesOf_eq_nil_iff, Option.map_eq_none_iff,
    List.getLast?_eq_none_iff]

theorem merge_append (s : Scope) (t t' : Table) :
  s.merge (t ++ t') = (s.merge t).merge t'
  := List.foldl_append

end Scope

/-! ### All layers -/

/-- An entry of a list and what comes after it: the first entry, or one after it. -/
theorem exists_eq_append_cons_iff {α : Type} {a : α} {l : List α} {P : α → List α → Prop} :
  (∃ before b after, a :: l = before ++ b :: after ∧ P b after)
    ↔ P a l ∨ ∃ before b after, l = before ++ b :: after ∧ P b after
  := by
  constructor
  · rintro ⟨before, b, after, hsplit, h⟩
    cases before with
    | nil =>
      obtain ⟨rfl, rfl⟩ := List.cons.inj hsplit
      exact .inl h
    | cons _ before => exact .inr ⟨before, b, after, (List.cons.inj hsplit).2, h⟩
  · rintro (h | ⟨before, b, after, rfl, h⟩)
    · exact ⟨[], a, l, rfl, h⟩
    · exact ⟨a :: before, b, after, rfl, h⟩

variable {covers : String → String → Bool}

namespace Override

/-- An override applies to a path that one of its patterns covers. -/
def Applies (covers : String → String → Bool) (o : Override) (path : String) : Prop :=
  ∃ pattern ∈ o.files, covers pattern path = true

instance (o : Override) (path : String) : Decidable (o.Applies covers path) :=
  inferInstanceAs (Decidable (∃ pattern ∈ o.files, covers pattern path = true))

/-- An override applies to a path and holds a spelling of a key. -/
def Sets (covers : String → String → Bool) (o : Override) (path k : String) : Prop :=
  o.Applies covers path ∧ o.properties.Holds k

instance (o : Override) (path k : String) : Decidable (o.Sets covers path k) :=
  inferInstanceAs (Decidable (o.Applies covers path ∧ o.properties.Holds k))

theorem appliesBy_eq (o : Override) (path : String) :
  o.appliesBy covers path = decide (o.Applies covers path)
  := by
  rw [Bool.eq_iff_iff, appliesBy, List.any_eq_true, decide_eq_true_eq]
  rfl

/-- A scope with the properties of those overrides set that apply to a path, in order. -/
def layers (covers : String → String → Bool) (os : List Override) (path : String) (s : Scope) :
    Scope :=
  (os.filter (·.Applies covers path)).foldl (fun s o => s.merge o.properties) s

variable {o : Override} {os : List Override} {path k : String} {s : Scope} {v : Value}

theorem layers_cons :
  layers covers (o :: os) path s
    = layers covers os path (if o.Applies covers path then s.merge o.properties else s)
  := by
  rw [layers, List.filter_cons]
  by_cases h : o.Applies covers path
  · rw [if_pos (decide_eq_true h), if_pos h]
    rfl
  · rw [if_neg (by simpa using h), if_neg h]
    rfl

theorem get?_layer_eq_some_iff (h : Ascending o.properties) :
  (if o.Applies covers path then s.merge o.properties else s).get? k = some v
    ↔ (o.Applies covers path ∧ o.properties.Gives k v)
      ∨ ¬ o.Sets covers path k ∧ s.get? k = some v
  := by
  rw [Sets]
  split
  · rename_i happlies
    rw [Scope.get?_merge_eq_some_iff h]
    simp [happlies]
  · rename_i happlies
    simp [happlies]

theorem get?_layer_eq_none_iff :
  (if o.Applies covers path then s.merge o.properties else s).get? k = none
    ↔ ¬ o.Sets covers path k ∧ s.get? k = none
  := by
  rw [Sets]
  split
  · rename_i happlies
    rw [Scope.get?_merge_eq_none_iff]
    simp [happlies]
  · rename_i happlies
    simp [happlies]

/-- The last layer that holds a key decides. -/
theorem get?_layers_eq_some_iff (h : ∀ o ∈ os, Ascending o.properties) :
  (layers covers os path s).get? k = some v
    ↔ (∃ before o after, os = before ++ o :: after ∧ o.Applies covers path
        ∧ o.properties.Gives k v ∧ ∀ o' ∈ after, ¬ o'.Sets covers path k)
      ∨ (∀ o ∈ os, ¬ o.Sets covers path k) ∧ s.get? k = some v
  := by
  induction os generalizing s with
  | nil => simp [layers]
  | cons o os ih =>
    obtain ⟨ho, hos⟩ := List.forall_mem_cons.mp h
    rw [layers_cons, ih hos, get?_layer_eq_some_iff ho, List.forall_mem_cons,
      exists_eq_append_cons_iff]
    constructor
    · rintro (hlater | ⟨hnone, ⟨happlies, hgives⟩ | ⟨hunset, hv⟩⟩)
      · exact .inl (.inr hlater)
      · exact .inl (.inl ⟨happlies, hgives, hnone⟩)
      · exact .inr ⟨⟨hunset, hnone⟩, hv⟩
    · rintro ((⟨happlies, hgives, hnone⟩ | hlater) | ⟨⟨hunset, hnone⟩, hv⟩)
      · exact .inr ⟨hnone, .inl ⟨happlies, hgives⟩⟩
      · exact .inl hlater
      · exact .inr ⟨hnone, .inr ⟨hunset, hv⟩⟩

theorem get?_layers_eq_none_iff :
  (layers covers os path s).get? k = none ↔ (∀ o ∈ os, ¬ o.Sets covers path k) ∧ s.get? k = none
  := by
  induction os generalizing s with
  | nil => simp [layers]
  | cons o os ih =>
    rw [layers_cons, ih, get?_layer_eq_none_iff, List.forall_mem_cons, ← and_assoc]
    rw [and_comm (a := ∀ o ∈ os, ¬ o.Sets covers path k)]

end Override

namespace Config

/-- The entries with a spelling of a key in the tables that apply to a path, in the order in which
they are set. -/
def entriesFor (covers : String → String → Bool) (c : Config) (path k : String) : Table :=
  Table.entriesOf
    (c.properties ++ (c.overrides.filter (·.Applies covers path)).flatMap Override.properties) k

/-- The properties of all files are the lowest layer. -/
theorem scopeBy_eq (c : Config) (path : String) :
  c.scopeBy covers path = Override.layers covers c.overrides path c.globalScope
  := by
  simp only [scopeBy, Override.appliesBy_eq]
  rfl

/-- A key has the value of the last entry that concerns it. -/
theorem get?_scopeBy (covers : String → String → Bool) (c : Config) (path k : String) :
  (c.scopeBy covers path).get? k = (c.entriesFor covers path k).getLast?.map Prod.snd
  := by
  have hlayers (os : List Override) (s : Scope) :
      os.foldl (fun s o => s.merge o.properties) s = s.merge (os.flatMap Override.properties) := by
    induction os generalizing s with
    | nil => rfl
    | cons o os ih => rw [List.foldl_cons, ih, List.flatMap_cons, Scope.merge_append]
  rw [scopeBy_eq, Override.layers, hlayers, globalScope, ← Scope.merge_append, Scope.get?_merge,
    Scope.get?_empty, Option.or_none]
  rfl

/-- Whatever paths the patterns cover, a key has the value that the last override that applies and
holds the key gives it; if there is none, the value that the properties of all files give it; and if
they do not hold it either, none.  Nothing else in the configuration matters. -/
theorem get?_scopeBy_iff (covers : String → String → Bool) {c : Config} (h : c.Ordered)
    (path k : String) :
  (∀ v, (c.scopeBy covers path).get? k = some v
    ↔ (∃ before o after, c.overrides = before ++ o :: after ∧ o.Applies covers path
        ∧ o.properties.Gives k v ∧ ∀ o' ∈ after, ¬ o'.Sets covers path k)
      ∨ (∀ o ∈ c.overrides, ¬ o.Sets covers path k) ∧ c.properties.Gives k v)
  ∧ ((c.scopeBy covers path).get? k = none
    ↔ (∀ o ∈ c.overrides, ¬ o.Sets covers path k) ∧ ¬ c.properties.Holds k)
  ∧ ∀ c' : Config, c'.entriesFor covers path k = c.entriesFor covers path k →
    (c'.scopeBy covers path).get? k = (c.scopeBy covers path).get? k
  := by
  refine ⟨?_, ?_, ?_⟩
  · intro v
    rw [scopeBy_eq, Override.get?_layers_eq_some_iff h.overrides, globalScope,
      Scope.get?_merge_eq_some_iff h.properties, Scope.get?_empty]
    simp
  · rw [scopeBy_eq, Override.get?_layers_eq_none_iff, globalScope, Scope.get?_merge_eq_none_iff,
      Scope.get?_empty]
    simp
  · intro c' hentries
    rw [get?_scopeBy, get?_scopeBy, hentries]

/-- Of two spellings in an override the greater one decides, whatever overrides come after it that
do not apply or do not hold the key. -/
theorem get?_scopeBy_iff_spellings :
  let sizes : Table := [("INDENT_SIZE", .integer 6), ("indent_size", .integer 8)]
  let indent : Override := ⟨["src/*.kt"], sizes⟩
  let other : Override := ⟨["test/**"], [("indent_size", .integer 1)]⟩
  let style : Override := ⟨["**/A.kt"], [("indent_style", .string "tab")]⟩
  let c : Config := ⟨10, none, [("Indent_Size", .integer 2)], [indent, other, style]⟩
  c.Ordered ∧ (c.scopeFor "src/A.kt").get? "indent_Size" = some (.integer 8)
  := by
  intro sizes indent other style c
  have hc : c.Ordered := by
    constructor
    · decide
    · decide
  use hc
  apply ((get?_scopeBy_iff globCovers hc "src/A.kt" "indent_Size").1 (.integer 8)).mpr
  left
  use [], indent, [other, style], rfl
  refine ⟨by decide +kernel, ?_, by decide +kernel⟩
  use "indent_size"
  refine ⟨?_, by decide, by decide⟩
  apply List.mem_cons_of_mem _ List.mem_cons_self

end Config

end Fettle
