import Fettle.Proofs.Tree.Leaves

/-!
# Offsets of leaves

The `width` of some leaves is the number of bytes of their text.  A leaf of a sound tree starts
at the width of the leaves before it (`Tree.Sound.startOffset_leaf`), and the document is as long
as all leaves are wide (`Tree.utf8ByteSize_text`).
-/

namespace Fettle

/-- The number of bytes of the text of some leaves. -/
def width {ι : Type} : List (Leaf ι) → Nat
  | [] => 0
  | l :: ls => l.text.utf8ByteSize + width ls

theorem width_append {ι : Type} (a b : List (Leaf ι)) :
  width (a ++ b) = width a + width b
  := by
  induction a with
  | nil => rw [List.nil_append, width, Nat.zero_add]
  | cons l a ih => rw [List.cons_append, width, width, ih, Nat.add_assoc]

namespace Forest

theorem textLength_eq_width {ι : Type} (f : Forest ι) :
  f.textLength = width f.leaves
  := by
  induction f with
  | nil => rfl
  | leaf i k s rest ih => rw [textLength, leaves, width, ih]
  | branch i k l cs rest ihc ih => rw [textLength, leaves, width_append, ihc, ih]

/-- A node starts where the leaves before it end. -/
theorem offset?_eq {ι : Type} [DecidableEq ι] (id : ι) (f : Forest ι) :
  f.offset? id = (f.leavesBefore? id).map width
  := by
  induction f with
  | nil => rfl
  | leaf i k s rest ih =>
    rw [offset?, leavesBefore?, ih]
    split
    · rfl
    · rw [Option.map_map, Option.map_map]
      rfl
  | branch i k l cs rest ihc ih =>
    have hwidth : width ∘ (cs.leaves ++ ·) = (cs.textLength + ·) ∘ width := by
      funext ls
      rw [Function.comp_apply, Function.comp_apply, width_append, textLength_eq_width]
    rw [offset?, leavesBefore?, ihc, ih]
    split
    · rfl
    · rw [Option.map_or, Option.map_map, Option.map_map, hwidth]

end Forest

namespace Tree

/-- The document is as long as its leaves are wide. -/
theorem utf8ByteSize_text (t : Tree) :
  t.text.utf8ByteSize = width t.leaves
  := by
  rw [text, ← Forest.textLength_eq_utf8ByteSize, Forest.textLength_eq_width, leaves]

/-- A leaf starts where the leaves before it end. -/
theorem Sound.startOffset_leaf {t : Tree} (h : t.Sound) {l : Leaf NodeId}
    {a b : List (Leaf NodeId)} (hl : t.leaves = a ++ l :: b) :
  t.startOffset l.id = width a
  := by
  rw [startOffset, Forest.offset?_eq, Forest.leavesBefore?_of_leaves_eq h.nodup_attached hl]
  rfl

end Tree

end Fettle
