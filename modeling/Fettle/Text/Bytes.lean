/-!
# Bytes

`byteLength s` is the number of bytes of the characters `s` in UTF-8.  Offsets into a
document count bytes.
-/

namespace Fettle.Text

/-- The number of bytes of a text in UTF-8. -/
def byteLength (s : List Char) : Nat :=
  s.foldr (fun c n => c.utf8Size + n) 0

@[simp]
theorem byteLength_nil :
  byteLength [] = 0
  := rfl

@[simp]
theorem byteLength_cons (c : Char) (s : List Char) :
  byteLength (c :: s) = c.utf8Size + byteLength s
  := rfl

@[simp]
theorem byteLength_append (s t : List Char) :
  byteLength (s ++ t) = byteLength s + byteLength t
  := by
  induction s with
  | nil => simp
  | cons c s ih => simp [ih, Nat.add_assoc]

/-- The length in bytes of a string is that of its characters. -/
theorem utf8ByteSize_ofList (s : List Char) :
  (String.ofList s).utf8ByteSize = byteLength s
  := by
  induction s with
  | nil => rfl
  | cons c s ih =>
    rw [String.ofList_cons, String.utf8ByteSize_append, ih, byteLength_cons,
      String.utf8ByteSize_singleton]

theorem utf8ByteSize_eq_byteLength (s : String) :
  s.utf8ByteSize = byteLength s.toList
  := by
  rw [← utf8ByteSize_ofList, String.ofList_toList]

end Fettle.Text
