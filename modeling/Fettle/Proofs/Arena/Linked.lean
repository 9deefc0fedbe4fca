import Fettle.Proofs.Arena.Built

/-!
# The links of an arena

An arena says several times what its tree is: by the children of the branches, by the parents
and places of the nodes, and by the flags.  `Linked` says that these agree.  They do for every
arena that is built from events and edited after, whatever edits are tried (`linked_edits`).
-/

namespace Fettle

namespace Arena

/-- What an arena says about its tree fits together. -/
structure Linked (a : Arena) : Prop where
  /-- Nothing is wrong with the nodes met from the root on. -/
  fault : a.fault? = none
  /-- The walk from the root ends by itself, with no node met twice. -/
  ends : ∀ n, a.walk (a.size + n) [a.root] = a.preOrder
  nodup : a.preOrder.Nodup
  /-- The nodes met are those with the flag. -/
  attached : ∀ id, id ∈ a.preOrder ↔ a.isAttached id = true
  /-- Every node with the flag but the root is where its record says. -/
  slots : ∀ id r, a.get? id = some r → r.attached = true → id ≠ a.root →
    ∃ p, r.parent = some p ∧ a.isAttached p = true ∧ (a.childrenOf p)[r.slot]? = some id
  root : ∃ r, a.get? a.root = some r ∧ r.attached = true ∧ r.kind.isComposite = true
    ∧ r.parent = none
  locate : ∀ id p c, a.locate id ≠ .error (.brokenLink p c)

namespace Represents

variable {a : Arena} {t : Tree} (h : a.Represents t) (ht : t.Sound)

include h ht

/-- A node with the flag that is not the root is at its place among the children of its parent,
which has the flag too. -/
theorem exists_parent {id : NodeId} {r : Record} (hr : a.get? id = some r)
    (hatt : r.attached = true) (hroot : id ≠ a.root) :
  ∃ p, r.parent = some p ∧ a.isAttached p = true ∧ (a.childrenOf p)[r.slot]? = some id
  := by
  have hid : id ∈ t.attached.ids := by
    rw [← h.isAttached_iff ht, isAttached, hr]
    exact hatt
  rw [h.root] at hroot
  rw [Tree.ids_attached, List.mem_cons] at hid
  obtain ⟨c⟩ := Tree.exists_focus (hid.resolve_left hroot)
  obtain ⟨r', hr', hparent, -, -, hchild⟩ := h.get?_focus c
  rw [hr] at hr'
  obtain rfl := Option.some.inj hr'
  use c.parent.id, hparent
  refine ⟨?_, hchild⟩
  rw [h.isAttached_iff ht, c.attached_eq, Forest.within]
  apply Forest.sublist_ids_within.subset
  simp

/-- A node that has no place is unknown, removed or the root. -/
theorem locate_ne_brokenLink (id p c : NodeId) :
  a.locate id ≠ .error (.brokenLink p c)
  := by
  intro hlocate
  cases hanchor : t.anchorFault? id with
  | some fault =>
    rw [h.locate_of_fault ht hanchor] at hlocate
    obtain rfl := Except.error.inj hlocate
    rw [Tree.anchorFault?] at hanchor
    split at hanchor
    · cases hanchor
    · split at hanchor
      · cases hanchor
      · split at hanchor <;> cases hanchor
  | none =>
    obtain ⟨c⟩ := Tree.exists_focus (ht.anchorFault?_eq_none_iff.mp hanchor)
    rw [h.locate_focus c] at hlocate
    cases hlocate

/-- The table of a sound tree is linked. -/
theorem linked :
  a.Linked
  := by
  constructor
  · apply h.fault?_eq_none ht
  · intro n
    rw [h.walk_root ht, h.preOrder_eq ht]
  · rw [h.preOrder_eq ht]
    apply ht.nodup_attached
  · intro id
    rw [h.preOrder_eq ht, h.isAttached_iff ht]
    rfl
  · intro id r
    apply h.exists_parent ht
  · have hvalid := ht.valid
    rw [Tree.attached, Forest.fault?, Option.or_eq_none_iff, branchFault?_eq_none_iff] at hvalid
    rw [h.root]
    exact ⟨_, h.laid.1, rfl, hvalid.1, rfl⟩
  · apply h.locate_ne_brokenLink ht

end Represents

/-- However an arena was built and whatever edits were tried at it, its links agree. -/
theorem linked_edits {a : Arena}
    (h : (∃ es, ofEvents es = .ok a) ∨ ∃ leaves, ofLeaves leaves = .ok a) (edits : List Edit) :
  (a.edits edits).Linked
  := by
  obtain ⟨es, hes⟩ : ∃ es, ofEvents es = .ok a := by
    rcases h with h | ⟨leaves, hleaves⟩
    · exact h
    · exact ⟨_, hleaves⟩
  have hagrees := ofEvents_agrees es
  cases ht : Tree.ofEvents es with
  | error fault =>
    rw [hes, ht] at hagrees
    cases hagrees
  | ok t =>
    rw [hes, ht] at hagrees
    have hrepresents : a.Represents t := by
      cases hagrees
      assumption
    obtain ⟨u, hu, hsound⟩ := hrepresents.edits (.ofEvents ht) edits
    apply hu.linked hsound

/-- A node is put before another one and a third one taken out; edits at the node that was taken
out, at the root and at a number that no node has are refused. -/
theorem linked_edits_of_three :
  let leaves := [(.identifier, "a"), (.identifier, "b"), (.identifier, "c")]
  let tried : List Edit := [.insertBefore 1 (.leaf () .token "0"), .remove 2, .remove 2,
    .remove 0, .insertAfter 9 (.leaf () .token "1")]
  ∃ a, ofLeaves leaves = .ok a ∧ (a.edits tried).preOrder = [0, 4, 1, 3]
    ∧ (a.edits tried).Linked
  := by
  intro leaves tried
  refine ⟨_, rfl, by decide, ?_⟩
  apply linked_edits (.inr ⟨leaves, rfl⟩)

end Arena

end Fettle
