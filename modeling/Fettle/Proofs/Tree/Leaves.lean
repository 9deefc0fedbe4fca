import Fettle.Proofs.Tree.Sound

/-!
# Edits and the list of leaves

The leaves of a sound tree are those before a given leaf, the leaf itself and those after it.
The look-ups at the leaf read their answers off this split, and the edits at the leaf change it
at the split only: `leaves_replace`, `leaves_remove`, `leaves_insertBefore` and
`leaves_setSpaceBefore` give the leaves of the edited tree.  The numbers of new nodes are larger
than all that were given before.
-/

namespace Fettle

/-- What is found in a forest without fault is without fault. -/
theorem Forest.fault?_of_find? {ι : Type} [DecidableEq ι] {id : ι} {f : Forest ι} {n : Node ι}
    (hf : f.fault? = none) (h : f.find? id = some n) :
  n.fault? = none
  := by
  induction f with
  | nil => simp [find?] at h
  | leaf i k s rest ih =>
    rw [fault?, Option.or_eq_none_iff] at hf
    rw [find?] at h
    split at h
    · obtain rfl := Option.some.inj h
      simp [Node.fault?, Node.toForest, fault?, hf.1]
    · apply ih hf.2 h
  | branch i k l cs rest ihc ih =>
    simp only [fault?, Option.or_eq_none_iff] at hf
    rw [find?] at h
    split at h
    · obtain rfl := Option.some.inj h
      simp [Node.fault?, Node.toForest, fault?, hf.1, hf.2.1]
    · rcases Option.or_eq_some_iff.mp h with h | ⟨-, h⟩
      · apply ihc hf.2.1 h
      · apply ih hf.2.2 h

/-! ### Numbers of new nodes -/

namespace Tree

variable {t t' : Tree} {id i : NodeId} {new : NewNode}

theorem size_retire (t : Tree) (id : NodeId) :
  (t.retire id).size = t.size
  := by
  rw [retire]
  split <;> rfl

/-- A new node has the next number. -/
theorem fst_replace (he : t.replace id new = .ok (i, t')) :
  i = t.size
  := by
  rw [replace] at he
  split at he
  · cases he
  · exact (Prod.mk.inj (Except.ok.inj he)).1.symm

theorem size_le_replace (he : t.replace id new = .ok (i, t')) :
  t.size ≤ t'.size
  := by
  rw [replace] at he
  split at he
  · cases he
  · obtain ⟨-, rfl⟩ := Prod.mk.inj (Except.ok.inj he)
    rw [spliced, size_retire]
    apply Nat.le_add_right

theorem size_le_insertBefore (he : t.insertBefore id new = .ok (i, t')) :
  t.size ≤ t'.size
  := by
  rw [insertBefore] at he
  split at he
  · cases he
  · obtain ⟨-, rfl⟩ := Prod.mk.inj (Except.ok.inj he)
    apply Nat.le_add_right

theorem size_le_remove (he : t.remove id = .ok t') :
  t.size ≤ t'.size
  := by
  rw [remove] at he
  split at he
  · cases he
  · obtain rfl := Except.ok.inj he
    rw [spliced, size_retire]
    apply Nat.le_add_right

theorem size_le_setSpaceBefore {s : String} {o : Option NodeId}
    (he : t.setSpaceBefore id s = .ok (o, t')) :
  t.size ≤ t'.size
  := by
  rw [setSpaceBefore] at he
  split at he
  · cases he
  · split at he
    · split at he
      · obtain ⟨u, hu, he⟩ := Except.map_eq_ok_iff.mp he
        obtain ⟨-, rfl⟩ := Prod.mk.inj he
        apply size_le_remove hu
      · split at he
        · obtain ⟨-, rfl⟩ := Prod.mk.inj (Except.ok.inj he)
          apply Nat.le_refl
        · obtain ⟨u, hu, he⟩ := Except.map_eq_ok_iff.mp he
          obtain ⟨-, rfl⟩ := Prod.mk.inj he
          apply size_le_replace hu
    · split at he
      · obtain ⟨-, rfl⟩ := Prod.mk.inj (Except.ok.inj he)
        apply Nat.le_refl
      · obtain ⟨u, hu, he⟩ := Except.map_eq_ok_iff.mp he
        obtain ⟨-, rfl⟩ := Prod.mk.inj he
        apply size_le_insertBefore hu

end Tree

namespace Tree.Sound

variable {t : Tree} (h : t.Sound)

include h

/-- An attached node of a kind that holds no children is a leaf of the tree. -/
theorem exists_leaf {n : NodeId} (hn : t.isAttached n = true)
    (hk : (t.kind n).isComposite = false) :
  ∃ a l b, t.leaves = a ++ l :: b ∧ l.id = n
  := by
  rw [isAttached_iff, preOrder] at hn
  obtain ⟨m, hm⟩ := Forest.exists_find?_of_mem hn
  rw [kind, node?_eq hn, hm, Option.map_some, Option.getD_some] at hk
  have hvalid := Forest.fault?_of_find? h.valid hm
  cases m with
  | leaf i k s =>
    obtain rfl : i = n := Forest.id_of_find? hm
    obtain ⟨a, b, hab⟩ := List.append_of_mem (Forest.mem_leaves_of_find? hm)
    use a, ⟨i, k, s⟩, b
    exact ⟨hab, rfl⟩
  | branch i k l cs =>
    rw [Node.fault?, Node.toForest, Forest.fault?, Option.or_eq_none_iff, branchFault?] at hvalid
    rw [Node.kind] at hk
    simp [hk] at hvalid

/-- The leaf before a node is a leaf of the tree. -/
theorem mem_of_prevLeaf? {id : NodeId} {l : Leaf NodeId} (hl : t.prevLeaf? id = some l) :
  l ∈ t.attached.leaves
  := by
  rw [prevLeaf?, leavesBefore] at hl
  by_cases hid : id ∈ t.attached.ids
  · obtain ⟨n, hn⟩ := Forest.exists_find?_of_mem hid
    obtain ⟨before, after, hbefore, -, hleaves, -⟩ :=
      Forest.exists_leaves_split h.nodup_attached hn
    rw [hbefore] at hl
    rw [hleaves]
    apply List.mem_append_left
    apply List.mem_of_getLast? hl
  · rw [Forest.leavesBefore?_of_not_mem hid] at hl
    cases hl

variable {l : Leaf NodeId} {a b : List (Leaf NodeId)} (hl : t.leaves = a ++ l :: b)

include hl

/-! ### Looking at a leaf -/

omit h in
theorem mem_attached :
  l.id ∈ t.attached.ids
  := by
  apply (Forest.sublist_ids_leaves t.attached).subset
  apply List.mem_map_of_mem
  change l ∈ t.leaves
  rw [hl]
  apply List.mem_append_right _ List.mem_cons_self

omit h in
theorem mem_children :
  l.id ∈ t.children.ids
  := by
  rw [leaves_eq] at hl
  apply (Forest.sublist_ids_leaves t.children).subset
  apply List.mem_map_of_mem
  rw [hl]
  apply List.mem_append_right _ List.mem_cons_self

theorem node?_leaf :
  t.node? l.id = some (.leaf l.id l.kind l.text)
  := by
  rw [node?_eq (mem_attached hl)]
  apply Forest.find?_of_leaves_eq h.nodup_attached hl

theorem kind_leaf :
  t.kind l.id = l.kind
  := by
  rw [kind, h.node?_leaf hl]
  rfl

theorem leafText?_leaf :
  t.leafText? l.id = some l.text
  := by
  rw [leafText?, h.node?_leaf hl]
  rfl

theorem textLengthOf_leaf :
  t.textLengthOf l.id = l.text.utf8ByteSize
  := by
  rw [textLengthOf, h.node?_leaf hl]
  rfl

theorem leavesBefore_leaf :
  t.leavesBefore l.id = a
  := by
  rw [leavesBefore, Forest.leavesBefore?_of_leaves_eq h.nodup_attached hl]
  rfl

theorem leavesAfter_leaf :
  t.leavesAfter l.id = b
  := by
  rw [leavesAfter, Forest.leavesAfter?_of_leaves_eq h.nodup_attached hl]
  rfl

theorem prevLeaf?_leaf :
  t.prevLeaf? l.id = a.getLast?
  := by
  rw [prevLeaf?, h.leavesBefore_leaf hl]

theorem nextLeaf?_leaf :
  t.nextLeaf? l.id = b.head?
  := by
  rw [nextLeaf?, h.leavesAfter_leaf hl]

/-- A leaf of a sound tree is without fault. -/
theorem leafFault?_leaf :
  leafFault? l.kind l.text = none
  := by
  have hvalid := Forest.fault?_of_find? h.valid (Forest.find?_of_leaves_eq h.nodup_attached hl)
  rw [Node.fault?, Node.toForest, Forest.fault?, Option.or_eq_none_iff] at hvalid
  exact hvalid.1

omit hl in
/-- The leaves of a sound tree have text. -/
theorem text_ne_empty :
  ∀ l ∈ t.leaves, l.text ≠ ""
  := by
  intro l hl
  obtain ⟨a, b, hab⟩ := List.append_of_mem hl
  apply (leafFault?_eq_none_iff.mp (h.leafFault?_leaf hab)).2.1

/-! ### Edits at a leaf -/

variable {t' : Tree} {i : NodeId} {k : Kind} {s : String}

theorem leaves_replace (he : t.replace l.id (.ofLeaf k s) = .ok (i, t')) :
  t'.leaves = a ++ ⟨i, k, s⟩ :: b
  := by
  have hid := mem_children hl
  rw [leaves_eq] at hl
  rw [Tree.replace] at he
  split at he
  · cases he
  · obtain ⟨rfl, rfl⟩ := Prod.mk.inj (Except.ok.inj he)
    obtain ⟨n, hn⟩ := Forest.exists_find?_of_mem hid
    rw [leaves_eq, retire, hn]
    apply Forest.leaves_splice_of_leaves_eq h.nodup_children hl

theorem leaves_insertBefore (he : t.insertBefore l.id (.ofLeaf k s) = .ok (i, t')) :
  t'.leaves = a ++ ⟨i, k, s⟩ :: l :: b
  := by
  rw [leaves_eq] at hl
  rw [Tree.insertBefore] at he
  split at he
  · cases he
  · obtain ⟨rfl, rfl⟩ := Prod.mk.inj (Except.ok.inj he)
    rw [leaves_eq]
    apply Forest.leaves_splice_of_leaves_eq h.nodup_children hl

theorem leaves_remove (he : t.remove l.id = .ok t') :
  t'.leaves = a ++ b
  := by
  have hid := mem_children hl
  rw [leaves_eq] at hl
  rw [Tree.remove] at he
  split at he
  · cases he
  · obtain rfl := Except.ok.inj he
    obtain ⟨n, hn⟩ := Forest.exists_find?_of_mem hid
    rw [leaves_eq, retire, hn]
    apply Forest.leaves_splice_of_leaves_eq h.nodup_children hl

/-- Setting the white space before a leaf to a text changes the leaf before it, if that is
white space, and puts a leaf between the two otherwise. -/
theorem leaves_setSpaceBefore {o : Option NodeId} (hs : s ≠ "")
    (he : t.setSpaceBefore l.id s = .ok (o, t')) :
  ∃ i a₀ old, t'.leaves = a₀ ++ ⟨i, .whitespace, s⟩ :: l :: b ∧ a = a₀ ++ old
    ∧ ((old = [] ∧ ∀ p, a.getLast? = some p → p.kind ≠ .whitespace)
      ∨ ∃ w : Leaf NodeId, w.kind = .whitespace ∧ old = [w])
  := by
  rw [Tree.setSpaceBefore] at he
  split at he
  · cases he
  · split at he
    · rename_i old hold
      rw [Option.filter_eq_some_iff, h.prevLeaf?_leaf hl, List.getLast?_eq_some_iff] at hold
      obtain ⟨⟨a₀, rfl⟩, hspace⟩ := hold
      rw [decide_eq_true_eq] at hspace
      rw [if_neg hs] at he
      have hold : t.leaves = a₀ ++ old :: l :: b := by
        rw [hl, List.append_assoc, List.singleton_append]
      split at he
      · rename_i htext
        obtain ⟨-, rfl⟩ := Prod.mk.inj (Except.ok.inj he)
        use old.id, a₀, [old]
        rw [hold, ← hspace, ← htext]
        exact ⟨rfl, rfl, .inr ⟨old, rfl, rfl⟩⟩
      · obtain ⟨⟨i, u⟩, hu, he⟩ := Except.map_eq_ok_iff.mp he
        obtain ⟨-, rfl⟩ := Prod.mk.inj he
        use i, a₀, [old]
        exact ⟨h.leaves_replace hold hu, rfl, .inr ⟨old, hspace, rfl⟩⟩
    · rename_i hnone
      rw [Option.filter_eq_none_iff, h.prevLeaf?_leaf hl] at hnone
      rw [if_neg hs] at he
      obtain ⟨⟨i, u⟩, hu, he⟩ := Except.map_eq_ok_iff.mp he
      obtain ⟨-, rfl⟩ := Prod.mk.inj he
      use i, a, [], h.leaves_insertBefore hl hu, (List.append_nil a).symm
      left
      use rfl
      intro p hp
      simpa using hnone p hp

end Tree.Sound

end Fettle
