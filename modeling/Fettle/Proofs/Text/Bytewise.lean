import Mathlib.Data.String.Basic

/-!
# The order of bytes

Strings are compared character by character.  Comparing them byte by byte, in UTF-8, comes to the
same (`bytes_lt_iff`, `bytes_le_iff`).
-/

namespace Fettle.Text

/-- The bytes of a text in UTF-8. -/
def bytes (s : String) : List UInt8 :=
  s.toList.flatMap String.utf8EncodeChar

/-- The bytes of two characters differ before those of either end. -/
theorem utf8EncodeChar_append_lt {c d : Char} (h : c < d) (u v : List UInt8) :
  String.utf8EncodeChar c ++ u < String.utf8EncodeChar d ++ v
  := by
  have hcode : c.val.toNat < d.val.toNat := h
  have hvalid := d.valid
  rw [UInt32.isValidChar, Nat.isValidChar] at hvalid
  simp only [String.utf8EncodeChar]
  split_ifs
  all_goals
    simp only [List.cons_append, List.nil_append, List.cons_lt_cons_iff, UInt8.lt_iff_toNat_lt,
      ← UInt8.toNat_inj, UInt8.toNat_ofNat']
    simp (disch := omega) only [Nat.mod_eq_of_lt]
    omega

theorem flatMap_utf8EncodeChar_lt {l l' : List Char} (h : l < l') :
  l.flatMap String.utf8EncodeChar < l'.flatMap String.utf8EncodeChar
  := by
  induction h with
  | @nil c l =>
    rw [List.flatMap_nil, List.flatMap_cons]
    obtain ⟨b, u, hb⟩ := List.exists_cons_of_ne_nil (@String.utf8EncodeChar_ne_nil c)
    rw [hb]
    apply List.nil_lt_cons
  | rel h =>
    rw [List.flatMap_cons, List.flatMap_cons]
    apply utf8EncodeChar_append_lt h
  | cons _ ih =>
    rw [List.flatMap_cons, List.flatMap_cons]
    apply List.append_left_lt ih

variable {s t : String}

theorem bytes_lt_iff :
  bytes s < bytes t ↔ s < t
  := by
  have hmono {s t : String} (h : s < t) : bytes s < bytes t := by
    rw [String.lt_iff_toList_lt] at h
    apply flatMap_utf8EncodeChar_lt h
  constructor
  · intro h
    by_contra hnot
    rcases eq_or_lt_of_le (not_lt.mp hnot) with rfl | hlt
    · exact List.lt_irrefl _ h
    · exact List.lt_asymm h (hmono hlt)
  · apply hmono

theorem bytes_le_iff :
  bytes s ≤ bytes t ↔ s ≤ t
  := by
  rw [← List.not_lt, bytes_lt_iff, not_lt]

end Fettle.Text
