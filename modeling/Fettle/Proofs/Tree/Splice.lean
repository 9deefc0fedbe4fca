import Fettle.Tree.Edit
import Mathlib.Data.List.Basic
import Mathlib.Data.List.Nodup
import Mathlib.Tactic.Use

/-!
# The place of a node in a forest

A node of a forest whose labels are distinct stands at one place: the labels of the forest,
and its leaves, are those before the node, those of the node, and those after it.  Putting
another forest in its place by `splice` changes the middle part and leaves the outer parts as
they are (`exists_ids_split`, `exists_leaves_split`).

A leaf of the forest is found under its label, and what `leavesBefore?` and `leavesAfter?`
yield for it are the parts of the list of leaves on its two sides (`find?_of_leaves_eq`,
`leavesBefore?_of_leaves_eq`, `leavesAfter?_of_leaves_eq`).
-/

namespace Fettle.Forest

variable {ι : Type} [DecidableEq ι]

/-! ### Labels that do not occur -/

theorem find?_eq_none_iff {id : ι} {f : Forest ι} :
  f.find? id = none ↔ id ∉ f.ids
  := by
  rw [← isSome_find?_iff, Option.not_isSome_iff_eq_none]

theorem exists_find?_of_mem {id : ι} {f : Forest ι} (h : id ∈ f.ids) :
  ∃ n, f.find? id = some n
  := Option.isSome_iff_exists.mp (isSome_find?_iff.mpr h)

theorem mem_ids_of_find? {id : ι} {f : Forest ι} {n : Node ι} (h : f.find? id = some n) :
  id ∈ f.ids
  := isSome_find?_iff.mp (Option.isSome_of_eq_some h)

theorem splice_of_not_mem {id : ι} {g : Forest ι → Forest ι} {f : Forest ι}
    (h : id ∉ f.ids) :
  f.splice id g = f
  := by
  induction f with
  | nil => rfl
  | leaf i k s rest ih =>
    rw [ids, List.mem_cons, not_or] at h
    rw [splice, if_neg (Ne.symm h.1), ih h.2]
  | branch i k l cs rest ihc ih =>
    rw [ids, List.mem_cons, List.mem_append, not_or, not_or] at h
    rw [splice, if_neg (Ne.symm h.1), ihc h.2.1, ih h.2.2]

theorem leavesBefore?_of_not_mem {id : ι} {f : Forest ι} (h : id ∉ f.ids) :
  f.leavesBefore? id = none
  := by
  induction f with
  | nil => rfl
  | leaf i k s rest ih =>
    rw [ids, List.mem_cons, not_or] at h
    rw [leavesBefore?, if_neg (Ne.symm h.1), ih h.2]
    rfl
  | branch i k l cs rest ihc ih =>
    rw [ids, List.mem_cons, List.mem_append, not_or, not_or] at h
    rw [leavesBefore?, if_neg (Ne.symm h.1), ihc h.2.1, ih h.2.2]
    rfl

theorem leavesAfter?_of_not_mem {id : ι} {f : Forest ι} (h : id ∉ f.ids) :
  f.leavesAfter? id = none
  := by
  induction f with
  | nil => rfl
  | leaf i k s rest ih =>
    rw [ids, List.mem_cons, not_or] at h
    rw [leavesAfter?, if_neg (Ne.symm h.1), ih h.2]
  | branch i k l cs rest ihc ih =>
    rw [ids, List.mem_cons, List.mem_append, not_or, not_or] at h
    rw [leavesAfter?, if_neg (Ne.symm h.1), ihc h.2.1, ih h.2.2]
    rfl

/-! ### The three parts of a forest -/

/-- The labels of a forest are those before a node, those of the node and those after it, and
`splice` puts other labels in the middle. -/
theorem exists_ids_split {id : ι} {f : Forest ι} {n : Node ι} (hd : f.ids.Nodup)
    (h : f.find? id = some n) :
  ∃ a b, f.ids = a ++ (n.toForest.ids ++ b)
    ∧ ∀ g, (f.splice id g).ids = a ++ ((g n.toForest).ids ++ b)
  := by
  induction f with
  | nil => simp [find?] at h
  | leaf i k s rest ih =>
    rw [ids, List.nodup_cons] at hd
    rw [find?] at h
    split at h
    · rename_i hi
      obtain rfl := Option.some.inj h
      use [], rest.ids
      constructor
      · rfl
      · intro g
        rw [splice, if_pos hi, ids_append]
        rfl
    · rename_i hi
      obtain ⟨a, b, hab, hg⟩ := ih hd.2 h
      use i :: a, b
      constructor
      · rw [ids, hab, List.cons_append]
      · intro g
        rw [splice, if_neg hi, ids, hg, List.cons_append]
  | branch i k l cs rest ihc ih =>
    rw [ids, List.nodup_cons, List.nodup_append] at hd
    obtain ⟨-, hcs, hrest, hdisjoint⟩ := hd
    rw [find?] at h
    split at h
    · rename_i hi
      obtain rfl := Option.some.inj h
      use [], rest.ids
      constructor
      · simp [Node.toForest, ids]
      · intro g
        rw [splice, if_pos hi, ids_append]
        rfl
    · rename_i hi
      rcases Option.or_eq_some_iff.mp h with h | ⟨hnone, h⟩
      · have hout : id ∉ rest.ids := by
          intro hm
          apply hdisjoint id (mem_ids_of_find? h) id hm rfl
        obtain ⟨a, b, hab, hg⟩ := ihc hcs h
        use i :: a, b ++ rest.ids
        constructor
        · simp [ids, hab]
        · intro g
          rw [splice, if_neg hi, ids, hg, splice_of_not_mem hout]
          simp
      · rw [find?_eq_none_iff] at hnone
        obtain ⟨a, b, hab, hg⟩ := ih hrest h
        use i :: (cs.ids ++ a), b
        constructor
        · simp [ids, hab]
        · intro g
          rw [splice, if_neg hi, ids, hg, splice_of_not_mem hnone]
          simp

/-- The leaves of a forest are those before a node, those of the node and those after it, and
`splice` puts other leaves in the middle. -/
theorem exists_leaves_split {id : ι} {f : Forest ι} {n : Node ι} (hd : f.ids.Nodup)
    (h : f.find? id = some n) :
  ∃ a b, f.leavesBefore? id = some a ∧ f.leavesAfter? id = some b
    ∧ f.leaves = a ++ (n.toForest.leaves ++ b)
    ∧ ∀ g, (f.splice id g).leaves = a ++ ((g n.toForest).leaves ++ b)
  := by
  induction f with
  | nil => simp [find?] at h
  | leaf i k s rest ih =>
    rw [ids, List.nodup_cons] at hd
    rw [find?] at h
    split at h
    · rename_i hi
      obtain rfl := Option.some.inj h
      use [], rest.leaves
      simp [leavesBefore?, leavesAfter?, hi, leaves, Node.toForest, splice]
    · rename_i hi
      obtain ⟨a, b, ha, hb, hab, hg⟩ := ih hd.2 h
      use ⟨i, k, s⟩ :: a, b
      simp [leavesBefore?, leavesAfter?, hi, ha, hb, leaves, hab, splice, hg]
  | branch i k l cs rest ihc ih =>
    rw [ids, List.nodup_cons, List.nodup_append] at hd
    obtain ⟨-, hcs, hrest, hdisjoint⟩ := hd
    rw [find?] at h
    split at h
    · rename_i hi
      obtain rfl := Option.some.inj h
      use [], rest.leaves
      simp [leavesBefore?, leavesAfter?, hi, leaves, Node.toForest, splice]
    · rename_i hi
      rcases Option.or_eq_some_iff.mp h with h | ⟨hnone, h⟩
      · have hout : id ∉ rest.ids := by
          intro hm
          apply hdisjoint id (mem_ids_of_find? h) id hm rfl
        obtain ⟨a, b, ha, hb, hab, hg⟩ := ihc hcs h
        use a, b ++ rest.leaves
        simp [leavesBefore?, leavesAfter?, hi, ha, hb, leaves, hab, splice, hg,
          splice_of_not_mem hout]
      · rw [find?_eq_none_iff] at hnone
        obtain ⟨a, b, ha, hb, hab, hg⟩ := ih hrest h
        use cs.leaves ++ a, b
        simp [leavesBefore?, leavesAfter?, hi, ha, hb, leaves, hab, splice, hg,
          splice_of_not_mem hnone, leavesBefore?_of_not_mem hnone,
          leavesAfter?_of_not_mem hnone]

/-- Putting forests without fault in place of the trees under a label makes no fault. -/
theorem fault?_splice {id : ι} {g : Forest ι → Forest ι} {f : Forest ι}
    (hf : f.fault? = none) (hg : ∀ n, n.fault? = none → (g n).fault? = none) :
  (f.splice id g).fault? = none
  := by
  induction f with
  | nil => rfl
  | leaf i k s rest ih =>
    rw [fault?, Option.or_eq_none_iff] at hf
    rw [splice]
    split
    · rw [fault?_append, hg _ (by simp [fault?, hf.1]), hf.2]
      rfl
    · rw [fault?, hf.1, ih hf.2]
      rfl
  | branch i k l cs rest ihc ih =>
    simp only [fault?, Option.or_eq_none_iff] at hf
    rw [splice]
    split
    · rw [fault?_append, hg _ (by simp [fault?, hf.1, hf.2.1]), hf.2.2]
      rfl
    · rw [fault?, hf.1, ihc hf.2.1, ih hf.2.2]
      rfl

/-! ### Leaves and their labels -/

omit [DecidableEq ι] in
theorem sublist_ids_leaves (f : Forest ι) :
  (f.leaves.map Leaf.id).Sublist f.ids
  := by
  induction f with
  | nil => apply List.Sublist.refl
  | leaf i k s rest ih =>
    rw [leaves, ids, List.map_cons]
    apply ih.cons_cons
  | branch i k l cs rest ihc ih =>
    rw [leaves, ids, List.map_append]
    apply (ihc.append ih).cons

/-- A leaf is found under its label. -/
theorem find?_of_mem_leaves {f : Forest ι} {l : Leaf ι} (hd : f.ids.Nodup)
    (h : l ∈ f.leaves) :
  f.find? l.id = some (.leaf l.id l.kind l.text)
  := by
  induction f with
  | nil => simp [leaves] at h
  | leaf i k s rest ih =>
    rw [ids, List.nodup_cons] at hd
    rw [leaves, List.mem_cons] at h
    rcases h with rfl | h
    · simp [find?]
    · have hm : l.id ∈ rest.ids := (sublist_ids_leaves rest).subset (List.mem_map_of_mem h)
      have hi : i ≠ l.id := by
        rintro rfl
        apply hd.1 hm
      rw [find?, if_neg hi, ih hd.2 h]
  | branch i k lb cs rest ihc ih =>
    rw [ids, List.nodup_cons, List.nodup_append] at hd
    obtain ⟨hroot, hcs, hrest, hdisjoint⟩ := hd
    rw [leaves, List.mem_append] at h
    have hi : i ≠ l.id := by
      rintro rfl
      apply hroot
      rw [List.mem_append]
      apply h.imp
      · intro h
        apply (sublist_ids_leaves cs).subset (List.mem_map_of_mem h)
      · intro h
        apply (sublist_ids_leaves rest).subset (List.mem_map_of_mem h)
    rw [find?, if_neg hi]
    rcases h with h | h
    · rw [ihc hcs h]
      rfl
    · have hm : l.id ∈ rest.ids := (sublist_ids_leaves rest).subset (List.mem_map_of_mem h)
      have hout : l.id ∉ cs.ids := by
        intro hc
        apply hdisjoint _ hc _ hm rfl
      rw [find?_eq_none_iff.mpr hout, ih hrest h]
      rfl

/-- What is found under a label as a leaf is among the leaves. -/
theorem mem_leaves_of_find? {f : Forest ι} {id i : ι} {k : Kind} {s : String}
    (h : f.find? id = some (.leaf i k s)) :
  ⟨i, k, s⟩ ∈ f.leaves
  := by
  induction f with
  | nil => simp [find?] at h
  | leaf j k' s' rest ih =>
    rw [find?] at h
    rw [leaves, List.mem_cons]
    split at h
    · left
      simpa using (Option.some.inj h).symm
    · right
      apply ih h
  | branch j k' l cs rest ihc ih =>
    rw [find?] at h
    rw [leaves, List.mem_append]
    split at h
    · simp at h
    · apply (Option.or_eq_some_iff.mp h).imp
      · apply ihc
      · intro h
        apply ih h.2

/-- A list in which an entry occurs once splits there in one way. -/
theorem append_cons_inj {α : Type} {x : α} {a b c d : List α} (h : a ++ x :: b = c ++ x :: d)
    (hd : (a ++ x :: b).Nodup) :
  a = c ∧ b = d
  := by
  rw [List.nodup_middle, List.nodup_cons, List.mem_append, not_or] at hd
  rw [List.append_cons_inj_of_notMem hd.1.1 hd.1.2] at h
  exact ⟨h.1, h.2.2⟩

omit [DecidableEq ι] in
theorem nodup_leaves {f : Forest ι} (hd : f.ids.Nodup) :
  f.leaves.Nodup
  := List.Nodup.of_map Leaf.id ((sublist_ids_leaves f).nodup hd)

section

variable {f : Forest ι} {l : Leaf ι} {a b : List (Leaf ι)} (hd : f.ids.Nodup)
  (h : f.leaves = a ++ l :: b)

include hd h

theorem find?_of_leaves_eq :
  f.find? l.id = some (.leaf l.id l.kind l.text)
  := find?_of_mem_leaves hd (by simp [h])

/-- At a leaf the parts of a forest are those of its list of leaves. -/
theorem leaves_split_of_leaves_eq :
  f.leavesBefore? l.id = some a ∧ f.leavesAfter? l.id = some b
    ∧ ∀ g, (f.splice l.id g).leaves = a ++ ((g (.leaf l.id l.kind l.text .nil)).leaves ++ b)
  := by
  obtain ⟨a', b', ha, hb, hab, hg⟩ := exists_leaves_split hd (find?_of_leaves_eq hd h)
  have hn : (a ++ l :: b).Nodup := by
    rw [← h]
    apply nodup_leaves hd
  rw [h] at hab
  obtain ⟨rfl, rfl⟩ := append_cons_inj hab hn
  exact ⟨ha, hb, hg⟩

theorem leavesBefore?_of_leaves_eq :
  f.leavesBefore? l.id = some a
  := (leaves_split_of_leaves_eq hd h).1

theorem leavesAfter?_of_leaves_eq :
  f.leavesAfter? l.id = some b
  := (leaves_split_of_leaves_eq hd h).2.1

theorem leaves_splice_of_leaves_eq (g : Forest ι → Forest ι) :
  (f.splice l.id g).leaves = a ++ ((g (.leaf l.id l.kind l.text .nil)).leaves ++ b)
  := (leaves_split_of_leaves_eq hd h).2.2 g

end

end Fettle.Forest
