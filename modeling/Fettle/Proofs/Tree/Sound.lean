import Fettle.Proofs.Tree.Splice
import Fettle.Tree.Event

/-!
# Sound trees

A tree is *sound* if the numbers given so far, and no others, are those of its attached and
removed nodes, each of one node, and if kinds and contents of the attached nodes fit.  A tree
made from construction events is sound (`Sound.ofEvents`), and an edit of a sound tree yields a
sound tree (`Sound.insertBefore`, `Sound.insertAfter`, `Sound.remove`, `Sound.replace`,
`Sound.setSpaceBefore`).
-/

namespace Fettle

/-- Every number given belongs to one node, attached or removed, and the attached nodes are
without fault. -/
structure Tree.Sound (t : Tree) : Prop where
  numbered : (t.attached.ids ++ t.removed.ids).Perm (List.range t.size)
  valid : t.attached.fault? = none

theorem Except.map_eq_ok_iff {ε α β : Type} {f : α → β} {x : Except ε α} {b : β} :
  x.map f = .ok b ↔ ∃ a, x = .ok a ∧ f a = b
  := by
  cases x with
  | error e => simp [Except.map]
  | ok a => simp [Except.map]

/-! ### Trees of construction events -/

/-- What a list of events describes is without fault if no event is out of place. -/
theorem fault?_assemble {p p' : Progress} {es : List Event} (h : p.run es = .ok p') :
  (assemble es).1.fault? = none ∧ ∀ f ∈ (assemble es).2, f.fault? = none
  := by
  induction es generalizing p with
  | nil => simp [assemble, Forest.fault?]
  | cons e es ih =>
    rw [Progress.run] at h
    split at h
    · cases h
    · rename_i q hstep
      obtain ⟨hfirst, houter⟩ := ih h
      cases e with
      | start k l =>
        have hk : branchFault? k = none := by
          rw [Progress.step] at hstep
          split at hstep
          · cases hstep
          · assumption
        rw [assemble]
        split
        · rename_i cs heq
          rw [heq] at hfirst
          simp [Forest.fault?, hk, hfirst]
        · rename_i cs rest outer heq
          rw [heq] at hfirst houter
          constructor
          · simp [Forest.fault?, hk, hfirst, houter rest List.mem_cons_self]
          · intro f hf
            apply houter f (List.mem_cons_of_mem _ hf)
      | token k s =>
        rw [assemble]
        split
        · exact ⟨hfirst, houter⟩
        · rename_i hs
          simp only [Progress.step, if_neg hs] at hstep
          split at hstep
          · split at hstep
            · cases hstep
            · rename_i hleaf
              constructor
              · rw [Forest.fault?, hleaf, hfirst]
                rfl
              · apply houter
          · cases hstep
          · cases hstep
      | finish =>
        rw [assemble]
        constructor
        · rfl
        · simpa using ⟨hfirst, houter⟩

@[simp]
theorem Forest.fault?_number {ι : Type} (f : Forest ι) (n : Nat) :
  (f.number n).fault? = f.fault?
  := by
  induction f generalizing n with
  | nil => rfl
  | leaf i k s rest ih => simp [number, fault?, ih]
  | branch i k l cs rest ihc ih => simp [number, fault?, ihc, ih]

namespace Tree

theorem ids_attached (t : Tree) :
  t.attached.ids = root :: t.children.ids
  := by
  simp [attached, Forest.ids]

theorem find?_attached {t : Tree} {id : NodeId} (h : id ≠ root) :
  t.attached.find? id = t.children.find? id
  := by
  rw [attached, Forest.find?, if_neg (Ne.symm h), Forest.find?, Option.or_none]

/-- A tree whose nodes are numbered in pre-order is sound. -/
theorem Sound.ofRoot {kind : Kind} {label : Option String} {children : Draft}
    (hk : branchFault? kind = none) (hc : children.fault? = none) :
  (ofRoot kind label children).Sound
  := by
  constructor
  · rw [ids_attached, Tree.ofRoot, Forest.ids_number, Forest.ids, List.append_nil,
      List.range_eq_range', List.range'_succ]
    apply List.Perm.refl
  · simp [Tree.ofRoot, attached, Forest.fault?, hk, hc]

/-- A tree made from construction events is sound. -/
theorem Sound.ofEvents {es : List Event} {t : Tree} (h : ofEvents es = .ok t) :
  t.Sound
  := by
  rw [Tree.ofEvents] at h
  split at h
  · cases h
  · cases h
  · cases h
  · rename_i hrun
    split at h
    · rename_i i k l cs rest heq
      have hvalid := (fault?_assemble hrun).1
      rw [heq, Forest.fault?, Option.or_eq_none_iff, Option.or_eq_none_iff] at hvalid
      obtain rfl := Except.ok.inj h
      apply Sound.ofRoot hvalid.1 hvalid.2.1
    · cases h

namespace Sound

variable {t : Tree} (h : t.Sound)

include h

/-! ### Looking at a sound tree -/

theorem nodup_attached :
  t.attached.ids.Nodup
  := by
  have hd := h.numbered.nodup_iff.mpr List.nodup_range
  exact (List.nodup_append.mp hd).1

theorem nodup_children :
  t.children.ids.Nodup
  := by
  have hd := h.nodup_attached
  rw [ids_attached] at hd
  exact hd.of_cons

theorem root_notMem_children :
  root ∉ t.children.ids
  := by
  have hd := h.nodup_attached
  rw [ids_attached, List.nodup_cons] at hd
  exact hd.1

theorem lt_size {id : NodeId} (hid : id ∈ t.attached.ids) :
  id < t.size
  := List.mem_range.mp (h.numbered.mem_iff.mp (List.mem_append_left _ hid))

theorem notMem_removed {id : NodeId} (hid : id ∈ t.attached.ids) :
  id ∉ t.removed.ids
  := by
  have hd := h.numbered.nodup_iff.mpr List.nodup_range
  intro hr
  exact (List.nodup_append.mp hd).2.2 id hid id hr rfl

omit h in
theorem node?_eq {id : NodeId} (hid : id ∈ t.attached.ids) :
  t.node? id = t.attached.find? id
  := by
  obtain ⟨n, hn⟩ := Forest.exists_find?_of_mem hid
  rw [node?, hn]
  rfl

/-- An edit can be made exactly at the nodes inside the root. -/
theorem anchorFault?_eq_none_iff {id : NodeId} :
  t.anchorFault? id = none ↔ id ∈ t.children.ids
  := by
  have hroot := h.root_notMem_children
  rw [anchorFault?]
  split
  · rename_i hs
    simp only [reduceCtorEq, false_iff]
    intro hid
    apply Nat.not_lt.mpr hs
    apply h.lt_size
    rw [ids_attached]
    apply List.mem_cons_of_mem _ hid
  · split
    · rename_i hatt
      simp only [reduceCtorEq, false_iff]
      intro hid
      rw [Bool.not_eq_true', ← Bool.not_eq_true, isAttached_iff, preOrder, ids_attached] at hatt
      apply hatt (List.mem_cons_of_mem _ hid)
    · rename_i hatt
      rw [Bool.not_eq_true', Bool.not_eq_false, isAttached_iff, preOrder, ids_attached,
        List.mem_cons] at hatt
      split
      · rename_i hid
        simpa [hid] using hroot
      · rename_i hid
        simpa [hid] using hatt

/-! ### Edits -/

/-- Numbers for new nodes put among the attached ones. -/
theorem spliced {id : NodeId} {f : Forest NodeId → Forest NodeId} {added : Forest NodeId}
    (hids : added.ids = List.range' t.size added.size)
    (hid : id ∈ t.children.ids)
    (hf : ∀ n, (f n).ids.Perm (n.ids ++ added.ids))
    (hvalid : ∀ n, n.fault? = none → (f n).fault? = none) :
  (t.spliced id f added.size).Sound
  := by
  obtain ⟨n, hn⟩ := Forest.exists_find?_of_mem hid
  obtain ⟨a, b, hab, hg⟩ := Forest.exists_ids_split h.nodup_children hn
  constructor
  · rw [Tree.spliced, ids_attached, hg, List.range_eq_range', ← List.range'_append_1,
      ← List.range_eq_range', Nat.zero_add, ← hids, List.perm_iff_count]
    intro x
    have hold := h.numbered.count_eq x
    have hnew := (hf n.toForest).count_eq x
    rw [ids_attached, hab] at hold
    simp only [List.count_append, List.count_cons] at hold hnew ⊢
    omega
  · have hv := h.valid
    rw [attached, Forest.fault?, Option.or_eq_none_iff, Option.or_eq_none_iff] at hv
    rw [Tree.spliced, attached, Forest.fault?, hv.1, Forest.fault?_splice hv.2.1 hvalid]
    rfl

/-- New nodes put in the place of a node that is removed. -/
theorem exchanged {id : NodeId} {added : Forest NodeId}
    (hids : added.ids = List.range' t.size added.size)
    (hid : id ∈ t.children.ids) (hvalid : added.fault? = none) :
  ((t.retire id).spliced id (fun _ => added) added.size).Sound
  := by
  obtain ⟨n, hn⟩ := Forest.exists_find?_of_mem hid
  obtain ⟨a, b, hab, hg⟩ := Forest.exists_ids_split h.nodup_children hn
  rw [retire, hn]
  constructor
  · simp only [Tree.spliced, ids_attached, hg, Forest.ids_append]
    rw [List.range_eq_range', ← List.range'_append_1, ← List.range_eq_range', Nat.zero_add,
      ← hids, List.perm_iff_count]
    intro x
    have hold := h.numbered.count_eq x
    rw [ids_attached, hab] at hold
    simp only [List.count_append, List.count_cons] at hold ⊢
    omega
  · have hv := h.valid
    rw [attached, Forest.fault?, Option.or_eq_none_iff, Option.or_eq_none_iff] at hv
    rw [Tree.spliced, attached, Forest.fault?, hv.1,
      Forest.fault?_splice hv.2.1 (fun _ _ => hvalid)]
    rfl

variable {t' : Tree} {id new : NodeId}

theorem insertBefore {node : NewNode} (he : t.insertBefore id node = .ok (new, t')) :
  t'.Sound
  := by
  rw [Tree.insertBefore] at he
  split at he
  · cases he
  · rename_i hnone
    rw [Option.or_eq_none_iff, h.anchorFault?_eq_none_iff] at hnone
    obtain ⟨-, rfl⟩ := Prod.mk.inj (Except.ok.inj he)
    apply h.spliced _ hnone.1
    · intro n
      rw [Forest.ids_append]
      apply List.perm_append_comm
    · intro n hn
      rw [Forest.fault?_append, Forest.fault?_number, hn, Option.or_none]
      exact hnone.2
    · rw [Forest.ids_number, Forest.size_number]

theorem insertAfter {node : NewNode} (he : t.insertAfter id node = .ok (new, t')) :
  t'.Sound
  := by
  rw [Tree.insertAfter] at he
  split at he
  · cases he
  · rename_i hnone
    rw [Option.or_eq_none_iff, h.anchorFault?_eq_none_iff] at hnone
    obtain ⟨-, rfl⟩ := Prod.mk.inj (Except.ok.inj he)
    apply h.spliced _ hnone.1
    · intro n
      rw [Forest.ids_append]
    · intro n hn
      rw [Forest.fault?_append, Forest.fault?_number, hn, Option.none_or]
      exact hnone.2
    · rw [Forest.ids_number, Forest.size_number]

theorem replace {node : NewNode} (he : t.replace id node = .ok (new, t')) :
  t'.Sound
  := by
  rw [Tree.replace] at he
  split at he
  · cases he
  · rename_i hnone
    rw [Option.or_eq_none_iff, h.anchorFault?_eq_none_iff] at hnone
    obtain ⟨-, rfl⟩ := Prod.mk.inj (Except.ok.inj he)
    apply h.exchanged _ hnone.1
    · rw [Forest.fault?_number]
      exact hnone.2
    · rw [Forest.ids_number, Forest.size_number]

theorem remove (he : t.remove id = .ok t') :
  t'.Sound
  := by
  rw [Tree.remove] at he
  split at he
  · cases he
  · rename_i hnone
    rw [h.anchorFault?_eq_none_iff] at hnone
    obtain rfl := Except.ok.inj he
    apply @exchanged t h id .nil rfl hnone rfl

theorem setSpaceBefore {text : String} {space : Option NodeId}
    (he : t.setSpaceBefore id text = .ok (space, t')) :
  t'.Sound
  := by
  rw [Tree.setSpaceBefore] at he
  split at he
  · cases he
  · split at he
    · rename_i old _
      split at he
      · obtain ⟨u, hu, he⟩ := Except.map_eq_ok_iff.mp he
        obtain ⟨-, rfl⟩ := Prod.mk.inj he
        apply h.remove hu
      · split at he
        · obtain ⟨-, rfl⟩ := Prod.mk.inj (Except.ok.inj he)
          exact h
        · obtain ⟨u, hu, he⟩ := Except.map_eq_ok_iff.mp he
          obtain ⟨-, rfl⟩ := Prod.mk.inj he
          apply h.replace hu
    · split at he
      · obtain ⟨-, rfl⟩ := Prod.mk.inj (Except.ok.inj he)
        exact h
      · obtain ⟨u, hu, he⟩ := Except.map_eq_ok_iff.mp he
        obtain ⟨-, rfl⟩ := Prod.mk.inj he
        apply h.insertBefore hu

end Sound

end Tree

end Fettle
