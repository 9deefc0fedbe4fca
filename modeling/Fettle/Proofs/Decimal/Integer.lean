import Fettle.Decimal.Integer
import Fettle.Text.Blank
import Mathlib.Data.List.Induction

/-!
# Numerals of integers

`Digits s n` says that the decimal digits `s` write the number `n`, and `Spells s i` that the text
`s`, which may have a sign in front of its digits, spells the integer `i`.  Zeros in front of other
digits make no difference.

Reading accepts exactly the texts that spell a 64-bit number, with that number as the result
(`readInt64?_eq_some_iff`), and the text that is written for such a number spells it
(`spells_showInt64`).
-/

namespace Fettle.Decimal

/-- A run of decimal digits and the number that it writes. -/
inductive Digits : List Char → Nat → Prop where
  | one {d : Nat} (lt : d < 10) : Digits [d.digitChar] d
  | snoc {s : List Char} {n d : Nat} (front : Digits s n) (lt : d < 10) :
      Digits (s ++ [d.digitChar]) (10 * n + d)

/-- Decimal digits, with or without a sign in front, and the integer that they write. -/
inductive Spells : List Char → Int → Prop where
  | unsigned {s : List Char} {n : Nat} (digits : Digits s n) : Spells s n
  | plus {s : List Char} {n : Nat} (digits : Digits s n) : Spells ('+' :: s) n
  | minus {s : List Char} {n : Nat} (digits : Digits s n) : Spells ('-' :: s) (-n)

/-! ### Digits -/

theorem bounds_of_isDigit {c : Char} (hc : c.isDigit = true) :
  48 ≤ c.toNat ∧ c.toNat ≤ 57
  := Char.isDigit_iff_toNat.mp hc

theorem isDigit_iff {c : Char} :
  c.isDigit = true ↔ ∃ d < 10, c = d.digitChar
  := by
  constructor
  · intro hc
    have hbounds := bounds_of_isDigit hc
    have hlt : c.toNat - 48 < 10 := by omega
    use c.toNat - 48, hlt
    rw [← Char.toNat_inj, Nat.toNat_digitChar_of_lt_ten hlt]
    omega
  · rintro ⟨d, hd, rfl⟩
    rw [Nat.isDigit_digitChar, decide_eq_true hd]

namespace Digits

variable {s : List Char} {n : Nat}

theorem ne_nil (h : Digits s n) :
  s ≠ []
  := by
  cases h <;> simp

theorem isDigit (h : Digits s n) :
  ∀ c ∈ s, c.isDigit = true
  := by
  induction h with
  | one lt =>
    rw [List.forall_mem_singleton]
    exact isDigit_iff.mpr ⟨_, lt, rfl⟩
  | snoc _ lt ih =>
    rw [List.forall_mem_append, List.forall_mem_singleton]
    exact ⟨ih, isDigit_iff.mpr ⟨_, lt, rfl⟩⟩

theorem ofDigitChars_eq (h : Digits s n) :
  Nat.ofDigitChars 10 s 0 = n
  := by
  induction h with
  | one lt => rw [Nat.ofDigitChars_cons_digitChar_of_lt_ten lt, Nat.ofDigitChars_nil, Nat.zero_add]
  | snoc _ lt ih =>
    rw [Nat.ofDigitChars_append, ih, Nat.ofDigitChars_cons_digitChar_of_lt_ten lt,
      Nat.ofDigitChars_nil]

end Digits

/-- Every run of decimal digits writes a number. -/
theorem digits_ofDigitChars {s : List Char} (hne : s ≠ []) (hs : ∀ c ∈ s, c.isDigit = true) :
  Digits s (Nat.ofDigitChars 10 s 0)
  := by
  induction s using List.reverseRecOn with
  | nil => exact absurd rfl hne
  | append_singleton s c ih =>
    obtain ⟨hfront, hc⟩ := List.forall_mem_append.mp hs
    obtain ⟨d, lt, rfl⟩ := isDigit_iff.mp (hc c List.mem_cons_self)
    rw [Nat.ofDigitChars_append, Nat.ofDigitChars_cons_digitChar_of_lt_ten lt, Nat.ofDigitChars_nil]
    by_cases hnil : s = []
    · obtain rfl := hnil
      rw [Nat.ofDigitChars_nil, Nat.mul_zero, Nat.zero_add]
      apply Digits.one lt
    · apply Digits.snoc (ih hnil hfront) lt

theorem readNat?_eq_some_iff {s : List Char} {n : Nat} :
  readNat? s = some n ↔ Digits s n
  := by
  rw [readNat?, Option.ite_none_right_eq_some, List.all_eq_true]
  constructor
  · rintro ⟨⟨hne, hs⟩, hn⟩
    rw [← Option.some.inj hn]
    apply digits_ofDigitChars hne hs
  · intro h
    exact ⟨⟨h.ne_nil, h.isDigit⟩, congrArg some h.ofDigitChars_eq⟩

/-! ### Signs -/

/-- The digits behind a sign, or without one, and what is made of their number. -/
theorem map_readNat?_eq_some_iff {s : List Char} {f : Int → Int} {i : Int} :
  (readNat? s : Option Int).map f = some i ↔ ∃ n : Nat, Digits s n ∧ f n = i
  := by
  simp [Option.bind_eq_some_iff, readNat?_eq_some_iff]

theorem readInt?_eq_some_iff {s : List Char} {i : Int} :
  readInt? s = some i ↔ Spells s i
  := by
  constructor
  · intro h
    unfold readInt? at h
    split at h
    · obtain ⟨n, digits, rfl⟩ := map_readNat?_eq_some_iff.mp h
      apply Spells.minus digits
    · obtain ⟨n, digits, rfl⟩ := map_readNat?_eq_some_iff.mp h
      apply Spells.plus digits
    · obtain ⟨n, digits, rfl⟩ := map_readNat?_eq_some_iff.mp h
      apply Spells.unsigned digits
  · intro h
    cases h with
    | @unsigned s n digits =>
      -- the first character is a digit, so the text begins with no sign
      have hs := digits.isDigit
      unfold readInt?
      split
      · exact absurd (hs '-' List.mem_cons_self) (by decide)
      · exact absurd (hs '+' List.mem_cons_self) (by decide)
      · exact map_readNat?_eq_some_iff.mpr ⟨n, digits, rfl⟩
    | @plus s n digits => exact map_readNat?_eq_some_iff.mpr ⟨n, digits, rfl⟩
    | @minus s n digits => exact map_readNat?_eq_some_iff.mpr ⟨n, digits, rfl⟩

theorem digits_repr (n : Nat) :
  Digits n.repr.toList n
  := readNat?_eq_some_iff.mp (readNat?_toString n)

theorem spells_toString (i : Int) :
  Spells (toString i).toList i
  := by
  rw [Int.toString_eq_repr, Int.repr_eq_if]
  split
  · rename_i hi
    have hspells := Spells.unsigned (digits_repr i.toNat)
    rwa [Int.toNat_of_nonneg hi] at hspells
  · rename_i hi
    have hspells := Spells.minus (digits_repr (-i).toNat)
    rw [Int.toNat_of_nonneg (by omega), Int.neg_neg] at hspells
    rw [String.toList_append]
    exact hspells

theorem isBlank_of_isDigit {c : Char} (hc : c.isDigit = true) :
  Text.isBlank c = false
  := by
  have hbounds := bounds_of_isDigit hc
  apply Text.isBlank_of_visible <;> omega

/-- No white space is part of an integer. -/
theorem Spells.nonblank {s : List Char} {i : Int} (h : Spells s i) :
  ∀ c ∈ s, Text.isBlank c = false
  := by
  cases h with
  | unsigned digits =>
    intro c hc
    apply isBlank_of_isDigit (digits.isDigit c hc)
  | plus digits | minus digits =>
    rw [List.forall_mem_cons]
    refine ⟨by decide, fun c hc => ?_⟩
    apply isBlank_of_isDigit (digits.isDigit c hc)

/-! ### Numbers of 64 bits -/

theorem toInt64?_eq_some_iff {i : Int} {j : Int64} :
  toInt64? i = some j ↔ i = j.toInt
  := by
  rw [toInt64?, Option.ite_none_right_eq_some, Option.some.injEq]
  constructor
  · rintro ⟨⟨hlow, hhigh⟩, rfl⟩
    rw [Int64.toInt_minValue] at hlow
    rw [Int64.toInt_maxValue] at hhigh
    rw [Int64.toInt_ofInt_of_le hlow (by omega)]
  · rintro rfl
    exact ⟨⟨j.minValue_le_toInt, j.toInt_le⟩, Int64.ofInt_toInt j⟩

/-- Reading accepts exactly the texts that spell a 64-bit number. -/
theorem readInt64?_eq_some_iff {s : List Char} {i : Int64} :
  readInt64? s = some i ↔ Spells s i.toInt
  := by
  simp only [readInt64?, Option.bind_eq_some_iff, readInt?_eq_some_iff, toInt64?_eq_some_iff,
    exists_eq_right]

theorem spells_showInt64 (i : Int64) :
  Spells (showInt64 i).toList i.toInt
  := spells_toString i.toInt

end Fettle.Decimal
