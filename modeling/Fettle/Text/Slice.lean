import Fettle.Text.Bytes
import Fettle.Text.Lines

/-!
# Parts of a text

`slice start stop s` is the part of a text between two offsets in bytes, and `firstLine s` is its
first line without the line break.  `occurs part s` says that one text stands somewhere in
another.
-/

namespace Fettle.Text

/-- The two parts of a text that is cut after a number of bytes, if there is no character in
the way and the text does not end before. -/
def cut? : List Char → Nat → Option (List Char × List Char)
  | s, 0 => some ([], s)
  | [], _ + 1 => none
  | c :: s, n + 1 =>
    if c.utf8Size ≤ n + 1 then (cut? s (n + 1 - c.utf8Size)).map fun r => (c :: r.1, r.2)
    else none

/-- A text is cut where its first part ends. -/
theorem cut?_append (u v : List Char) :
  cut? (u ++ v) (byteLength u) = some (u, v)
  := by
  induction u with
  | nil => cases v <;> rfl
  | cons c u ih =>
    have hpos := c.utf8Size_pos
    obtain ⟨n, hn⟩ := Nat.exists_eq_succ_of_ne_zero (n := byteLength (c :: u)) (by
      rw [byteLength_cons]
      omega)
    have hrest : n + 1 - c.utf8Size = byteLength u := by
      rw [byteLength_cons] at hn
      omega
    rw [List.cons_append, hn, cut?, hrest, ih, if_pos]
    · rfl
    · rw [byteLength_cons] at hn
      omega

theorem cut?_eq_some_iff {s u v : List Char} {n : Nat} :
  cut? s n = some (u, v) ↔ s = u ++ v ∧ byteLength u = n
  := by
  constructor
  · intro h
    induction s generalizing u n with
    | nil =>
      cases n with
      | zero =>
        obtain ⟨rfl, rfl⟩ := Prod.mk.inj (Option.some.inj h)
        exact ⟨rfl, rfl⟩
      | succ n => cases h
    | cons c s ih =>
      cases n with
      | zero =>
        obtain ⟨rfl, rfl⟩ := Prod.mk.inj (Option.some.inj h)
        exact ⟨rfl, rfl⟩
      | succ n =>
        rw [cut?] at h
        split at h
        · rename_i hle
          obtain ⟨r, hr, heq⟩ := Option.map_eq_some_iff.mp h
          obtain ⟨rfl, rfl⟩ := Prod.mk.inj heq
          obtain ⟨rfl, hlength⟩ := ih hr
          refine ⟨rfl, ?_⟩
          rw [byteLength_cons, hlength]
          omega
        · cases h
  · rintro ⟨rfl, rfl⟩
    apply cut?_append

/-- The part of a text between two offsets; nothing if the text cannot be cut there. -/
def slice (start stop : Nat) (s : List Char) : List Char :=
  (((cut? s stop).bind fun r => cut? r.1 start).map Prod.snd).getD []

theorem slice_append (u t v : List Char) :
  slice (byteLength u) (byteLength (u ++ t)) (u ++ t ++ v) = t
  := by
  rw [slice, cut?_append, Option.bind_some, cut?_append]
  rfl

/-- The first line of a text, without its line break. -/
def firstLine (s : List Char) : List Char :=
  match lines s with
  | [] => []
  | l :: ls => (splitReturn l !ls.isEmpty).1

/-- Whether a text stands somewhere in another. -/
def occurs (part : List Char) : List Char → Bool
  | [] => part.isEmpty
  | c :: s => part.isPrefixOf (c :: s) || occurs part s

example : firstLine "a\r\nb".toList = ['a'] := by decide

end Fettle.Text
