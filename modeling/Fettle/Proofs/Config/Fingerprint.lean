import Fettle.Proofs.Config.Entries
import Fettle.Proofs.Config.Resolving
import Mathlib.Data.List.Forall2
import Mathlib.Data.List.Nodup

/-!
# Settings and fingerprints

A property `HasValue` in a scope: the one that its key is set to there, if that can be read, and its
default if its key is not set.  Settings are *read from* a scope for some properties if they hold, in
ascending order of names, the value of each of these properties and nothing else
(`Settings.ReadFrom`).  There are no two such settings, and which they are depends on the properties
only as a set.  If properties of one name are the same property, a new resolver yields them
(`resolve_eq_ok_iff`), wherever all properties have values (`exists_resolve_iff`).

So the order and the repetitions of the properties, and the other keys of the scope, make no
difference, and fingerprints are equal exactly if all values are: `fingerprint_eq_iff`.
-/

namespace Fettle

/-! ### The value of a property in a scope -/

namespace Property

/-- A property has a value in a scope: the one that is read from its key, or its default if its key
is not set. -/
inductive HasValue (p : Property) (s : Scope) : PropertyValue → Prop where
  | set {raw : Value} {v : PropertyValue} (found : s.get? p.name = some raw)
      (parsed : p.parse raw = .ok v) : HasValue p s v
  | unset (missing : s.get? p.name = none) : HasValue p s p.default

variable {p : Property} {s s' : Scope} {v v' : PropertyValue}

theorem hasValue_iff :
  p.HasValue s v ↔ p.resolve s = .ok v
  := by
  rw [resolve]
  constructor
  · intro h
    cases h with
    | set found parsed =>
      rw [found]
      exact parsed
    | unset missing => rw [missing]
  · intro h
    cases hraw : s.get? p.name with
    | some raw =>
      rw [hraw] at h
      apply HasValue.set hraw h
    | none =>
      rw [hraw] at h
      obtain rfl := Except.ok.inj h
      apply HasValue.unset hraw

namespace HasValue

theorem unique (h : p.HasValue s v) (h' : p.HasValue s v') :
  v = v'
  := by
  rw [hasValue_iff] at h h'
  apply Except.ok.inj (h.symm.trans h')

/-- Only the key of a property matters for its value. -/
theorem of_get?_eq (h : p.HasValue s v) (hkey : s'.get? p.name = s.get? p.name) :
  p.HasValue s' v
  := by
  cases h with
  | set found parsed => apply set (hkey.trans found) parsed
  | unset missing => apply unset (hkey.trans missing)

end HasValue

end Property

/-! ### The values that a resolver yields -/

namespace Resolver

variable {r : Resolver} {s : Scope} {read ps : List Property}

theorem values_cons_eq_ok_iff {p : Property} {vs : List (String × PropertyValue)} :
  (r.values (p :: ps)).1 = .ok vs ↔ ∃ v us, (r.value p).1 = .ok v
    ∧ ((r.value p).2.values ps).1 = .ok us ∧ vs = (p.name, v) :: us
  := by
  cases hv : (r.value p).1 with
  | error fault =>
    rw [values_cons_of_error hv]
    simp
  | ok v =>
    rw [values_cons_of_ok hv]
    cases ((r.value p).2.values ps).1 <;> simp [Except.map, eq_comm]

/-- A resolver yields the value of each property of a list, if properties of one name are the
same. -/
theorem Remembers.fst_values_eq_ok_iff (h : r.Remembers s read)
    (hsame : ∀ p ∈ ps, ∀ q ∈ read ++ ps, q.name = p.name → q = p)
    {vs : List (String × PropertyValue)} :
  (r.values ps).1 = .ok vs
    ↔ List.Forall₂ (fun p e => p.name = e.1 ∧ p.HasValue s e.2) ps vs
  := by
  induction ps generalizing r read vs with
  | nil =>
    rw [List.forall₂_nil_left_iff, Resolver.values, Except.ok.injEq, eq_comm]
  | cons p ps ih =>
    obtain ⟨hp, hps⟩ := List.forall_mem_cons.mp hsame
    have hvalue : (r.value p).1 = p.resolve s := by
      rw [h.fst_value]
      rcases authority_mem read p with heq | hmem
      · rw [heq]
      · rw [hp _ (List.mem_append_left _ hmem) (name_authority read p)]
    have hrest : ∀ q ∈ ps, ∀ q' ∈ (read ++ [p]) ++ ps, q'.name = q.name → q' = q := by
      intro q hq q' hq'
      apply hps q hq q'
      simpa using hq'
    have ih := @ih _ _ (h.snd_value p) hrest
    simp only [values_cons_eq_ok_iff, hvalue, ← Property.hasValue_iff, List.forall₂_cons_left_iff]
    constructor
    · rintro ⟨v, us, hv, hus, rfl⟩
      exact ⟨(p.name, v), us, ⟨rfl, hv⟩, ih.mp hus, rfl⟩
    · rintro ⟨⟨name, v⟩, us, ⟨rfl, hv⟩, hus, rfl⟩
      exact ⟨v, us, hv, ih.mpr hus, rfl⟩

end Resolver

namespace Settings

/-- The settings with the values of some properties in a scope, and nothing else. -/
structure ReadFrom (f : Settings) (s : Scope) (ps : List Property) : Prop where
  ascending : Ascending f.values
  value : ∀ p ∈ ps, ∃ v, p.HasValue s v ∧ f.values.lookup p.name = some v
  undeclared : ∀ name, (∀ p ∈ ps, p.name ≠ name) → f.values.lookup name = none

namespace ReadFrom

variable {f f' : Settings} {s s' : Scope} {ps ps' : List Property}

/-- The values of properties are those of their settings. -/
theorem hasValue_get (h : f.ReadFrom s ps) {p : Property} (hp : p ∈ ps) :
  p.HasValue s (f.get p)
  := by
  obtain ⟨v, hv, hlookup⟩ := h.value p hp
  rwa [get, hlookup, Option.getD_some]

theorem get_eq_default (h : f.ReadFrom s ps) {q : Property} (hq : ∀ p ∈ ps, p.name ≠ q.name) :
  f.get q = q.default
  := by
  rw [get, h.undeclared q.name hq, Option.getD_none]

/-- Which values settings hold depends on the properties only as a set. -/
theorem of_mem_iff (h : f.ReadFrom s ps) (hmem : ∀ p, p ∈ ps' ↔ p ∈ ps) :
  f.ReadFrom s ps'
  where
  ascending := h.ascending
  value p hp := h.value p ((hmem p).mp hp)
  undeclared name hname := h.undeclared name fun p hp => hname p ((hmem p).mpr hp)

/-- Only the keys of the properties matter in a scope. -/
theorem of_get?_eq (h : f.ReadFrom s ps)
    (hkeys : ∀ p ∈ ps, s'.get? p.name = s.get? p.name) :
  f.ReadFrom s' ps
  where
  ascending := h.ascending
  value p hp := by
    obtain ⟨v, hv, hlookup⟩ := h.value p hp
    use v, hv.of_get?_eq (hkeys p hp)
  undeclared := h.undeclared

/-- Settings are equal exactly if they hold the same values. -/
theorem eq_iff (h : f.ReadFrom s ps) (h' : f'.ReadFrom s' ps) :
  f = f' ↔ ∀ p ∈ ps, ∃ v, p.HasValue s v ∧ p.HasValue s' v
  := by
  constructor
  · rintro rfl p hp
    use f.get p, h.hasValue_get hp, h'.hasValue_get hp
  · intro hsame
    rw [mk.injEq]
    apply h.ascending.eq_of_lookup_eq h'.ascending
    intro name
    by_cases hname : ∀ p ∈ ps, p.name ≠ name
    · rw [h.undeclared name hname, h'.undeclared name hname]
    · simp only [not_forall, not_not] at hname
      obtain ⟨p, hp, rfl⟩ := hname
      obtain ⟨v, hv, hlookup⟩ := h.value p hp
      obtain ⟨v', hv', hlookup'⟩ := h'.value p hp
      obtain ⟨u, hu, hu'⟩ := hsame p hp
      rw [hlookup, hlookup', hv.unique hu, hv'.unique hu']

end ReadFrom

variable {s : Scope} {ps : List Property} {vs : List (String × PropertyValue)}

/-- A list of the values of properties makes settings of these values. -/
theorem readFrom_ofList (hsame : ∀ p ∈ ps, ∀ q ∈ ps, q.name = p.name → q = p)
    (h : List.Forall₂ (fun p e => p.name = e.1 ∧ p.HasValue s e.2) ps vs) :
  (ofList vs).ReadFrom s ps
  where
  ascending := ascending_ofList vs
  value := by
    simp only [lookup_ofList]
    induction h with
    | nil => simp
    | @cons p e ps vs hpe _ ih =>
      obtain ⟨hname, hvalue⟩ := hpe
      intro q hq
      rw [lookup_cons_eq, ← hname]
      by_cases heq : q.name = p.name
      · obtain rfl := hsame p List.mem_cons_self q hq heq
        rw [if_pos rfl]
        exact ⟨e.2, hvalue, rfl⟩
      · rw [if_neg heq]
        apply ih
        · intro p hp q hq
          apply hsame p (List.mem_cons_of_mem _ hp) q (List.mem_cons_of_mem _ hq)
        · rcases List.mem_cons.mp hq with rfl | hq
          · exact absurd rfl heq
          · exact hq
  undeclared name hname := by
    rw [lookup_ofList]
    clear hsame
    induction h with
    | nil => rfl
    | @cons p e ps vs hpe _ ih =>
      obtain ⟨hp, hps⟩ := List.forall_mem_cons.mp hname
      rw [lookup_cons_eq, ← hpe.1, if_neg (Ne.symm hp), ih hps]

end Settings

/-! ### Resolving -/

section Resolving

/-- The settings of a new resolver are those of the values that it yields. -/
theorem resolve_ofScope (s : Scope) (ps : List Property) :
  ((Resolver.ofScope s).resolve ps).1 = ((Resolver.ofScope s).values ps).1.map Settings.ofList
  := rfl

variable {ps : List Property} {s : Scope} {f : Settings}

/-- What a new resolver yields is read from its scope. -/
theorem readFrom_of_resolve (hsame : ∀ p ∈ ps, ∀ q ∈ ps, q.name = p.name → q = p)
    (h : ((Resolver.ofScope s).resolve ps).1 = .ok f) :
  f.ReadFrom s ps
  := by
  rw [resolve_ofScope] at h
  cases hvs : ((Resolver.ofScope s).values ps).1 with
  | error fault =>
    rw [hvs] at h
    cases h
  | ok vs =>
    rw [hvs] at h
    obtain rfl := Except.ok.inj h
    rw [(Resolver.Remembers.ofScope s).fst_values_eq_ok_iff hsame] at hvs
    apply Settings.readFrom_ofList hsame hvs

/-- A new resolver yields settings wherever all properties have values. -/
theorem exists_resolve_iff (hsame : ∀ p ∈ ps, ∀ q ∈ ps, q.name = p.name → q = p) :
  (∃ f, ((Resolver.ofScope s).resolve ps).1 = .ok f) ↔ ∀ p ∈ ps, ∃ v, p.HasValue s v
  := by
  constructor
  · rintro ⟨f, hf⟩ p hp
    use f.get p, (readFrom_of_resolve hsame hf).hasValue_get hp
  · intro h
    -- any value will do for the properties that are not in the list
    have : Nonempty PropertyValue := ⟨.bool true⟩
    choose! value hvalue using h
    have hvs : ((Resolver.ofScope s).values ps).1 = .ok (ps.map fun p => (p.name, value p)) := by
      rw [(Resolver.Remembers.ofScope s).fst_values_eq_ok_iff hsame, List.forall₂_map_right_iff,
        List.forall₂_same]
      intro p hp
      use rfl, hvalue p hp
    rw [resolve_ofScope, hvs]
    exact ⟨_, rfl⟩

/-- A new resolver yields the settings that are read from its scope. -/
theorem resolve_eq_ok_iff (hsame : ∀ p ∈ ps, ∀ q ∈ ps, q.name = p.name → q = p) :
  ((Resolver.ofScope s).resolve ps).1 = .ok f ↔ f.ReadFrom s ps
  := by
  constructor
  · apply readFrom_of_resolve hsame
  · intro h
    obtain ⟨f', hf'⟩ := (exists_resolve_iff hsame).mpr fun p hp => ⟨f.get p, h.hasValue_get hp⟩
    have heq : f' = f := by
      rw [(readFrom_of_resolve hsame hf').eq_iff h]
      intro p hp
      use f.get p, h.hasValue_get hp, h.hasValue_get hp
    rw [hf', heq]

/-- Of properties with different names, the fingerprints in two scopes are equal exactly if the
values of all of them are; there is one in every scope where they have values.  In one scope neither
the order of the properties nor repetitions make a difference; a look-up yields the value of the
property of its name, or the default if there is none; and the other keys of the scope do not
matter. -/
theorem fingerprint_eq_iff (hnames : (ps.map Property.name).Nodup)
    (hf : ((Resolver.ofScope s).resolve ps).1 = .ok f) :
  (∀ s', (∃ f', ((Resolver.ofScope s').resolve ps).1 = .ok f') ↔ ∀ p ∈ ps, ∃ v, p.HasValue s' v)
  ∧ (∀ s' f', ((Resolver.ofScope s').resolve ps).1 = .ok f' →
    (f.fingerprint = f'.fingerprint ↔ ∀ p ∈ ps, ∃ v, p.HasValue s v ∧ p.HasValue s' v))
  ∧ (∀ ps', (∀ p, p ∈ ps' ↔ p ∈ ps) → ((Resolver.ofScope s).resolve ps').1 = .ok f)
  ∧ (∀ p ∈ ps, p.HasValue s (f.get p) ∧ ∀ q : Property, q.name = p.name → f.get q = f.get p)
  ∧ (∀ q : Property, (∀ p ∈ ps, p.name ≠ q.name) → f.get q = q.default)
  ∧ ∀ s' : Scope, (∀ p ∈ ps, s'.get? p.name = s.get? p.name) →
    ((Resolver.ofScope s').resolve ps).1 = .ok f
  := by
  have hsame : ∀ p ∈ ps, ∀ q ∈ ps, q.name = p.name → q = p := by
    intro p hp q hq
    apply List.inj_on_of_nodup_map hnames hq hp
  have hread : f.ReadFrom s ps := (resolve_eq_ok_iff hsame).mp hf
  refine ⟨?_, ?_, ?_, ?_, ?_, ?_⟩
  · intro s'
    apply exists_resolve_iff hsame
  · intro s' f' hf'
    rw [Settings.fingerprint, Settings.fingerprint, Fingerprint.mk.injEq, ← Settings.mk.injEq]
    apply hread.eq_iff ((resolve_eq_ok_iff hsame).mp hf')
  · intro ps' hmem
    rw [resolve_eq_ok_iff]
    · apply hread.of_mem_iff hmem
    · intro p hp q hq
      apply hsame p ((hmem p).mp hp) q ((hmem q).mp hq)
  · intro p hp
    use hread.hasValue_get hp
    intro q hq
    obtain ⟨v, -, hlookup⟩ := hread.value p hp
    rw [Settings.get, Settings.get, hq, hlookup]
    rfl
  · intro q hq
    apply hread.get_eq_default hq
  · intro s' hkeys
    rw [resolve_eq_ok_iff hsame]
    apply hread.of_get?_eq hkeys

/-- A size given as a number and as a string, a style in two cases, and two line lengths: the same
fingerprint.  Another size makes another one. -/
theorem fingerprint_eq_iff_spellings :
  let ps : List Property := [.indentSize, .indentStyle]
  let s : Scope := .ofList [("indent_size", .integer 2), ("indent_style", .string "TAB"),
    ("max_line_length", .integer 80)]
  let s' : Scope := .ofList [("Indent_Size", .string " 2 "), ("indent_style", .string "tab"),
    ("max_line_length", .integer 120)]
  let s'' : Scope := .ofList [("indent_size", .integer 8), ("indent_style", .string "tab")]
  let f : Settings := ⟨[("indent_size", .int 2), ("indent_style", .enum "tab")]⟩
  let f'' : Settings := ⟨[("indent_size", .int 8), ("indent_style", .enum "tab")]⟩
  (ps.map Property.name).Nodup
  ∧ ((Resolver.ofScope s).resolve ps).1 = .ok f
  ∧ ((Resolver.ofScope s').resolve ps).1 = .ok f
  ∧ ((Resolver.ofScope s'').resolve ps).1 = .ok f''
  ∧ (∀ p ∈ ps, ∃ v, p.HasValue s v ∧ p.HasValue s' v)
  ∧ f.fingerprint ≠ f''.fingerprint
  ∧ (¬∀ p ∈ ps, ∃ v, p.HasValue s v ∧ p.HasValue s'' v)
  ∧ Property.indentSize.HasValue s (.int 2)
  ∧ f.get .maxLineLength = Property.maxLineLength.default
  ∧ ((Resolver.ofScope s).resolve [.indentStyle, .indentSize, .indentStyle]).1 = .ok f
  := by
  intro ps s s' s'' f f''
  have hnames : (ps.map Property.name).Nodup := by decide
  have hf : ((Resolver.ofScope s).resolve ps).1 = .ok f := rfl
  have hf' : ((Resolver.ofScope s').resolve ps).1 = .ok f := rfl
  have hf'' : ((Resolver.ofScope s'').resolve ps).1 = .ok f'' := rfl
  have hne : f.fingerprint ≠ f''.fingerprint := by decide
  obtain ⟨-, heq, hmem, hget, hdefault, -⟩ := fingerprint_eq_iff hnames hf
  refine ⟨hnames, hf, hf', hf'', (heq s' f hf').mp rfl, hne, ?_, ?_, ?_, ?_⟩
  · rwa [← heq s'' f'' hf'']
  · apply (hget .indentSize List.mem_cons_self).1
  · apply hdefault
    decide
  · apply hmem
    simp [ps, or_comm]

end Resolving

end Fettle
