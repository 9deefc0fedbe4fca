import Fettle.Config.Property
import Fettle.Proofs.Config.Enabling
import Fettle.Proofs.Decimal.Integer
import Fettle.Proofs.Text.Trimmed

/-!
# The texts of property values

A type `Takes` the values of its kind and `Yields` those of them that are read for it: of members
that differ only in the case of letters the first, and no member with white space at an end.
These are the values that come of anything (`PropertyType.exists_read?_iff`), and each of them is
read from the text that is written for it, whatever white space is around
(`PropertyType.Yields.read?_enclosed`).

Hence a value that is read is of the type of its property, and is read again from its own text
(`Property.parse_render`).  The values of the properties that all rules share are of their types in
every scope (`Property.takes_of_resolve_builtin`).
-/

namespace Fettle

open Text Decimal

namespace PropertyType

variable {type : PropertyType} {v : PropertyValue}

/-- The values of a type. -/
inductive Takes : PropertyType → PropertyValue → Prop where
  | int {sentinels : List (String × Int64)} (i : Int64) : Takes (int sentinels) (.int i)
  | bool (b : Bool) : Takes bool (.bool b)
  | enum {members : List String} {m : String} (mem : m ∈ members) :
      Takes (enum members) (.enum m)

/-- The values that are read for a type. -/
inductive Yields : PropertyType → PropertyValue → Prop where
  | int {sentinels : List (String × Int64)} (i : Int64) : Yields (int sentinels) (.int i)
  | bool (b : Bool) : Yields bool (.bool b)
  | enum {members : List String} {m : String}
      (first : members.find? (sameIgnoringCase · m) = some m)
      (trimmed : trim m.toList = m.toList) : Yields (enum members) (.enum m)

namespace Yields

theorem takes (h : type.Yields v) :
  type.Takes v
  := by
  cases h with
  | int i => apply Takes.int
  | bool b => apply Takes.bool
  | enum first => apply Takes.enum (List.mem_of_find?_eq_some first)

theorem of_readText? {s : List Char} (h : type.readText? (trim s) = some v) :
  type.Yields v
  := by
  cases type with
  | int sentinels =>
    rw [readText?] at h
    split at h
    · obtain rfl := Option.some.inj h
      apply Yields.int
    · obtain ⟨e, -, rfl⟩ := Option.map_eq_some_iff.mp h
      apply Yields.int
  | bool =>
    rw [readText?] at h
    split at h
    · obtain rfl := Option.some.inj h
      apply Yields.bool
    · split at h
      · obtain rfl := Option.some.inj h
        apply Yields.bool
      · cases h
  | enum members =>
    rw [readText?] at h
    obtain ⟨m, hm, rfl⟩ := Option.map_eq_some_iff.mp h
    have hfound := List.find?_some hm
    have hsame : asciiLower m = asciiLower (String.ofList (trim s)) := by
      rwa [sameIgnoringCase_iff] at hfound
    have hpick : (sameIgnoringCase · m) = (sameIgnoringCase · (String.ofList (trim s))) := by
      funext e
      rw [sameIgnoringCase, sameIgnoringCase, hsame]
    apply Yields.enum
    · rw [hpick, hm]
    · apply trim_eq_self_of_asciiLower_eq hsame
      rw [String.toList_ofList, trim_trim]

theorem of_read? {raw : Value} (h : type.read? raw = some v) :
  type.Yields v
  := by
  unfold read? at h
  split at h
  · apply of_readText? h
  · obtain rfl := Option.some.inj h
    apply Yields.int
  · obtain rfl := Option.some.inj h
    apply Yields.bool
  · cases h

theorem readText?_render (h : type.Yields v) :
  type.readText? v.render.toList = some v
  := by
  cases h with
  | int i => rw [readText?, PropertyValue.render, readInt64?_eq_some_iff.mpr (spells_showInt64 i)]
  | bool b => cases b <;> decide
  | enum first =>
    rw [readText?, PropertyValue.render, String.ofList_toList, first, Option.map_some]

theorem trim_render (h : type.Yields v) :
  trim v.render.toList = v.render.toList
  := by
  cases h with
  | int i => apply trim_of_nonblank (spells_showInt64 i).nonblank
  | bool b => cases b <;> decide
  | enum _ trimmed => exact trimmed

/-- A value is read from its text, whatever white space is around. -/
theorem read?_enclosed (h : type.Yields v) {front back : String}
    (hfront : ∀ c ∈ front.toList, isBlank c = true) (hback : ∀ c ∈ back.toList, isBlank c = true) :
  type.read? (.string (front ++ v.render ++ back)) = some v
  := by
  rw [read?, String.toList_append, String.toList_append, trim_enclosed hfront hback, h.trim_render,
    h.readText?_render]

end Yields

/-- What a type yields is what is read for it of some value. -/
theorem exists_read?_iff :
  (∃ raw, type.read? raw = some v) ↔ type.Yields v
  := by
  constructor
  · rintro ⟨raw, h⟩
    apply Yields.of_read? h
  · intro h
    use .string ("" ++ v.render ++ "")
    apply h.read?_enclosed <;> simp

/-- A text is read for integers if it spells one of 64 bits or is the name of a sentinel. -/
theorem exists_readText?_int_iff {sentinels : List (String × Int64)} {s : List Char} :
  (∃ v, (int sentinels).readText? s = some v) ↔ (∃ i : Int64, Spells s i.toInt)
    ∨ ∃ e ∈ sentinels, sameIgnoringCase e.1 (String.ofList s) = true
  := by
  simp only [← readInt64?_eq_some_iff, ← List.find?_isSome]
  rw [readText?]
  cases readInt64? s with
  | some i => simp
  | none => simp [Option.isSome_iff_exists]

end PropertyType

namespace Property

variable {p : Property} {raw : Value} {v : PropertyValue}

theorem parse_eq_ok_iff :
  p.parse raw = .ok v ↔ p.type.read? raw = some v
  := by
  rw [parse]
  cases p.type.read? raw <;> simp

/-- A value that is read for a property is of its type, and it is read again from the text that is
written for it, whatever white space is around.  A text is read for a property of integers exactly
if, without the white space around it, it spells an integer of 64 bits or is the name of a sentinel
up to the case of letters. -/
theorem parse_render (p : Property) :
  (∀ raw v, p.parse raw = .ok v → p.type.Takes v
    ∧ ∀ front back : String, (∀ c ∈ front.toList, isBlank c = true) →
      (∀ c ∈ back.toList, isBlank c = true) →
      p.parse (.string (front ++ v.render ++ back)) = .ok v)
  ∧ ∀ sentinels, p.type = .int sentinels → ∀ s : String,
    (∃ v, p.parse (.string s) = .ok v) ↔ (∃ i : Int64, Spells (trim s.toList) i.toInt)
      ∨ ∃ e ∈ sentinels, sameIgnoringCase e.1 (String.ofList (trim s.toList)) = true
  := by
  simp only [parse_eq_ok_iff]
  constructor
  · intro raw v h
    have hyields := PropertyType.Yields.of_read? h
    use hyields.takes
    intro front back hfront hback
    apply hyields.read?_enclosed hfront hback
  · intro sentinels htype s
    rw [htype]
    apply PropertyType.exists_readText?_int_iff

/-- A member in capitals, of which a second spelling is another member, and the largest number
under the name of a sentinel. -/
theorem parse_render_capitals :
  let p : Property := ⟨"style", .enum ["Tab", "tab"], .enum "tab"⟩
  let q : Property := ⟨"limit", .int [("off", Int64.maxValue)], .int 140⟩
  p.parse (.string " TAB") = .ok (.enum "Tab")
  ∧ (∀ c ∈ "\t".toList, isBlank c = true) ∧ (∀ c ∈ "\u00a0\n".toList, isBlank c = true)
  ∧ p.type.Takes (.enum "Tab")
  ∧ p.parse (.string ("\t" ++ (PropertyValue.enum "Tab").render ++ "\u00a0\n"))
      = .ok (.enum "Tab")
  ∧ q.parse (.string "OFF") = .ok (.int Int64.maxValue)
  ∧ q.parse (.string ("\t" ++ (PropertyValue.int Int64.maxValue).render ++ "\u00a0\n"))
      = .ok (.int Int64.maxValue)
  ∧ q.type = .int [("off", Int64.maxValue)]
  ∧ ∃ v, q.parse (.string " -0012\n") = .ok v
  := by
  intro p q
  have hp : p.parse (.string " TAB") = .ok (.enum "Tab") := by decide
  have hq : q.parse (.string "OFF") = .ok (.int Int64.maxValue) := by decide
  have hfront : ∀ c ∈ "\t".toList, isBlank c = true := by simp [isBlank]
  have hback : ∀ c ∈ "\u00a0\n".toList, isBlank c = true := by simp [isBlank]
  have hspells : Spells (trim " -0012\n".toList) (-12 : Int64).toInt :=
    readInt64?_eq_some_iff.mp (by decide)
  obtain ⟨htakes, hread⟩ := (parse_render p).1 _ _ hp
  use hp, hfront, hback, htakes, hread _ _ hfront hback, hq
  use ((parse_render q).1 _ _ hq).2 _ _ hfront hback, rfl
  exact ((parse_render q).2 _ rfl _).mpr (.inl ⟨_, hspells⟩)

/-! ### Values in a scope -/

/-- The value of a property in a scope is of its type, if its default is. -/
theorem takes_of_resolve {s : Scope} (hdefault : p.type.Takes p.default)
    (h : p.resolve s = .ok v) :
  p.type.Takes v
  := by
  unfold resolve at h
  split at h
  · apply (PropertyType.Yields.of_read? (parse_eq_ok_iff.mp h)).takes
  · rwa [← Except.ok.inj h]

/-- The defaults of the properties that all rules share are read for them. -/
theorem yields_default_of_mem_builtin (hp : p ∈ builtin) :
  p.type.Yields p.default
  := by
  simp only [builtin, List.mem_cons, List.not_mem_nil, or_false] at hp
  rcases hp with rfl | rfl | rfl | rfl | rfl
  · apply PropertyType.Yields.int
  · apply PropertyType.Yields.enum <;> decide
  · apply PropertyType.Yields.int
  · apply PropertyType.Yields.enum <;> decide
  · apply PropertyType.Yields.bool

/-- The value of a property that all rules share is of its type in every scope. -/
theorem takes_of_resolve_builtin {s : Scope} (hp : p ∈ builtin) (h : p.resolve s = .ok v) :
  p.type.Takes v
  := takes_of_resolve (yields_default_of_mem_builtin hp).takes h

end Property

end Fettle
