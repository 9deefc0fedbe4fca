import Fettle.Proofs.Tree.Sound

/-!
# Sound trees are in order

What a pass checks at its end, it never finds in a sound tree: every attached node is known, is
not among the removed ones, and is linked to the branch that holds it, at the place where that
branch has it (`Tree.Sound.fault?_eq_none`).
-/

namespace Fettle

namespace Forest

variable {ι : Type}

@[simp]
theorem nodes_append (f g : Forest ι) :
  (f ++ g).nodes = f.nodes ++ g.nodes
  := by
  induction f with
  | nil => rfl
  | leaf i k s rest ih => simp [nodes, ih]
  | branch i k l cs rest _ ih => simp [nodes, ih]

theorem mem_ids_iff {f : Forest ι} {i : ι} :
  i ∈ f.ids ↔ ∃ n ∈ f.nodes, n.id = i
  := by
  rw [← map_id_nodes, List.mem_map]

/-- A node of a forest without fault is without fault. -/
theorem fault?_of_mem_nodes {f : Forest ι} (hf : f.fault? = none) {n : Node ι}
    (hn : n ∈ f.nodes) :
  n.fault? = none
  := by
  induction f with
  | nil => cases hn
  | leaf i k x rest ih =>
    rw [fault?, Option.or_eq_none_iff] at hf
    rw [nodes, List.mem_cons] at hn
    rcases hn with rfl | hn
    · simp [Node.fault?, Node.toForest, fault?, hf.1]
    · apply ih hf.2 hn
  | branch i k l cs rest ihc ih =>
    rw [fault?, Option.or_eq_none_iff, Option.or_eq_none_iff] at hf
    rw [nodes, List.mem_cons, List.mem_append] at hn
    rcases hn with rfl | hn | hn
    · simp [Node.fault?, Node.toForest, fault?, hf.1, hf.2.1]
    · apply ihc hf.2.1 hn
    · apply ih hf.2.2 hn

/-- The roots are some of the nodes. -/
theorem sublist_ids_roots (f : Forest ι) :
  f.roots.Sublist f.ids
  := by
  induction f with
  | nil => apply List.Sublist.refl
  | leaf i k s rest ih =>
    rw [roots, ids]
    apply ih.cons_cons
  | branch i k l cs rest ihc ih =>
    rw [roots, ids]
    apply List.Sublist.cons_cons
    apply ih.trans (List.sublist_append_right _ _)

/-- The nodes inside a branch are some of the nodes. -/
theorem sublist_ids_children {f cs : Forest ι} {i : ι} {k : Kind} {l : Option String}
    (hn : .branch i k l cs ∈ f.nodes) :
  cs.ids.Sublist f.ids
  := by
  induction f with
  | nil => cases hn
  | leaf i' k' s rest ih =>
    rw [nodes, List.mem_cons] at hn
    rw [ids]
    apply (ih (hn.resolve_left (by simp))).cons
  | branch i' k' l' cs' rest ihc ih =>
    rw [nodes, List.mem_cons, List.mem_append] at hn
    rw [ids]
    apply List.Sublist.cons
    rcases hn with hn | hn | hn
    · obtain ⟨-, -, -, rfl⟩ := Node.branch.inj hn
      apply List.sublist_append_left
    · apply (ihc hn).trans (List.sublist_append_left _ _)
    · apply (ih hn).trans (List.sublist_append_right _ _)

theorem mem_ids_of_mem_children {f cs : Forest ι} {i c : ι} {k : Kind} {l : Option String}
    (hn : .branch i k l cs ∈ f.nodes) (hc : c ∈ cs.roots) :
  c ∈ f.ids
  := ((sublist_ids_roots cs).trans (sublist_ids_children hn)).subset hc

variable [DecidableEq ι]

/-- A tree is found under the label of its root. -/
theorem find?_of_mem_nodes {f : Forest ι} (hd : f.ids.Nodup) {n : Node ι} (hn : n ∈ f.nodes) :
  f.find? n.id = some n
  := by
  induction f with
  | nil => cases hn
  | leaf i k s rest ih =>
    rw [ids, List.nodup_cons] at hd
    rw [nodes, List.mem_cons] at hn
    rw [find?]
    rcases hn with rfl | hn
    · apply if_pos rfl
    · have hi : i ≠ n.id := by
        rintro rfl
        apply hd.1 (mem_ids_iff.mpr ⟨n, hn, rfl⟩)
      rw [if_neg hi, ih hd.2 hn]
  | branch i k l cs rest ihc ih =>
    rw [ids, List.nodup_cons, List.nodup_append, List.mem_append] at hd
    obtain ⟨hroot, hcs, hrest, hdisjoint⟩ := hd
    rw [nodes, List.mem_cons, List.mem_append] at hn
    rw [find?]
    rcases hn with rfl | hn | hn
    · apply if_pos rfl
    · have hi : i ≠ n.id := by
        rintro rfl
        apply hroot (.inl (mem_ids_iff.mpr ⟨n, hn, rfl⟩))
      rw [if_neg hi, ihc hcs hn]
      rfl
    · have hm : n.id ∈ rest.ids := mem_ids_iff.mpr ⟨n, hn, rfl⟩
      have hi : i ≠ n.id := by
        rintro rfl
        apply hroot (.inr hm)
      have hout : n.id ∉ cs.ids := by
        intro hc
        apply hdisjoint _ hc _ hm rfl
      rw [if_neg hi, find?_eq_none_iff.mpr hout, ih hrest hn]
      rfl

/-! ### Parents -/

theorem parentIn?_of_not_mem {c p : ι} {f : Forest ι} (h : c ∉ f.ids) :
  f.parentIn? c p = none
  := by
  induction f generalizing p with
  | nil => rfl
  | leaf i k s rest ih =>
    rw [ids, List.mem_cons, not_or] at h
    rw [parentIn?, if_neg (Ne.symm h.1), ih h.2]
  | branch i k l cs rest ihc ih =>
    rw [ids, List.mem_cons, List.mem_append, not_or, not_or] at h
    rw [parentIn?, if_neg (Ne.symm h.1), ihc h.2.1, ih h.2.2]
    rfl

/-- The roots are held by the branch that holds the forest. -/
theorem parentIn?_of_mem_roots {c p : ι} {f : Forest ι} (hd : f.ids.Nodup)
    (h : c ∈ f.roots) :
  f.parentIn? c p = some p
  := by
  induction f with
  | nil => cases h
  | leaf i k s rest ih =>
    rw [ids, List.nodup_cons] at hd
    rw [roots, List.mem_cons] at h
    rw [parentIn?]
    split
    · rfl
    · rename_i hi
      apply ih hd.2 (h.resolve_left (Ne.symm hi))
  | branch i k l cs rest ihc ih =>
    rw [ids, List.nodup_cons, List.nodup_append] at hd
    obtain ⟨-, -, hrest, hdisjoint⟩ := hd
    rw [roots, List.mem_cons] at h
    rw [parentIn?]
    split
    · rfl
    · rename_i hi
      have hroot := h.resolve_left (Ne.symm hi)
      have hout : c ∉ cs.ids := by
        intro hc
        apply hdisjoint c hc c ((sublist_ids_roots rest).subset hroot) rfl
      rw [parentIn?_of_not_mem hout, ih hrest hroot]
      rfl

/-- What a branch holds has that branch for a parent. -/
theorem parentIn?_of_mem_children {f cs : Forest ι} {i c p : ι} {k : Kind} {l : Option String}
    (hd : f.ids.Nodup) (hn : .branch i k l cs ∈ f.nodes) (hc : c ∈ cs.roots) :
  f.parentIn? c p = some i
  := by
  induction f generalizing p with
  | nil => cases hn
  | leaf i' k' s rest ih =>
    rw [ids, List.nodup_cons] at hd
    rw [nodes, List.mem_cons] at hn
    have hrest := hn.resolve_left (by simp)
    have hi : i' ≠ c := by
      rintro rfl
      apply hd.1 (mem_ids_of_mem_children hrest hc)
    rw [parentIn?, if_neg hi]
    apply ih hd.2 hrest
  | branch i' k' l' cs' rest ihc ih =>
    rw [ids, List.nodup_cons, List.nodup_append, List.mem_append, not_or] at hd
    obtain ⟨hroot, hcs, hrest, hdisjoint⟩ := hd
    rw [nodes, List.mem_cons, List.mem_append] at hn
    rcases hn with hn | hn | hn
    · obtain ⟨rfl, -, -, rfl⟩ := Node.branch.inj hn
      have hi : i ≠ c := by
        rintro rfl
        apply hroot.1 ((sublist_ids_roots cs).subset hc)
      rw [parentIn?, if_neg hi, parentIn?_of_mem_roots hcs hc]
      rfl
    · have hi : i' ≠ c := by
        rintro rfl
        apply hroot.1 (mem_ids_of_mem_children hn hc)
      rw [parentIn?, if_neg hi, ihc hcs hn]
      rfl
    · have hm := mem_ids_of_mem_children hn hc
      have hi : i' ≠ c := by
        rintro rfl
        apply hroot.2 hm
      have hout : c ∉ cs'.ids := by
        intro hin
        apply hdisjoint c hin c hm rfl
      rw [parentIn?, if_neg hi, parentIn?_of_not_mem hout, ih hrest hn]
      rfl

end Forest

/-- The kind of a branch without fault holds children. -/
theorem branchFault?_eq_none_iff {k : Kind} :
  branchFault? k = none ↔ k.isComposite = true
  := by
  simp [branchFault?]

namespace Tree.Sound

variable {t : Tree} (h : t.Sound)

include h

/-- What a branch holds is linked to it. -/
theorem parent?_of_mem_children {i c : NodeId} {k : Kind} {l : Option String}
    {cs : Forest NodeId} (hn : .branch i k l cs ∈ t.attached.nodes) (hc : c ∈ cs.roots) :
  t.parent? c = some i
  := by
  have hparent (p : NodeId) : t.attached.parentIn? c p = some i :=
    Forest.parentIn?_of_mem_children h.nodup_attached hn hc
  have hroot : c ≠ root := by
    rintro rfl
    -- the root would be its own parent
    rw [attached, Forest.nodes, List.mem_cons, List.mem_append] at hn
    rcases hn with hn | hn | hn
    · obtain ⟨-, -, -, rfl⟩ := Node.branch.inj hn
      apply h.root_notMem_children ((Forest.sublist_ids_roots _).subset hc)
    · apply h.root_notMem_children (Forest.mem_ids_of_mem_children hn hc)
    · cases hn
  have hin := hparent root
  rw [attached, Forest.parentIn?, if_neg (Ne.symm hroot), Forest.parentIn?,
    Option.or_none] at hin
  rw [parent?, if_neg hroot, hin]

/-- Where a branch has a node, there it is. -/
theorem slot?_of_mem_children {i c : NodeId} {k : Kind} {l : Option String}
    {cs : Forest NodeId} (hn : .branch i k l cs ∈ t.attached.nodes) {slot : Nat}
    (hc : cs.roots[slot]? = some c) :
  t.slot? c = some slot
  := by
  have hmem : i ∈ t.attached.ids := Forest.mem_ids_iff.mpr ⟨_, hn, rfl⟩
  have hfind : t.node? i = some (.branch i k l cs) := by
    rw [node?_eq hmem]
    apply Forest.find?_of_mem_nodes h.nodup_attached hn
  have hparent := h.parent?_of_mem_children hn (List.mem_of_getElem? hc)
  obtain ⟨hlt, hget⟩ := List.getElem?_eq_some_iff.mp hc
  have hd : cs.roots.Nodup := h.nodup_attached.sublist
    ((Forest.sublist_ids_roots cs).trans (Forest.sublist_ids_children hn))
  rw [slot?, hparent, Option.bind_some, childrenOf, hfind, Option.map_some, Option.getD_some,
    Node.children, List.idxOf?_eq_some_iff]
  use hlt, hget
  intro j hj heq
  rw [← hget] at heq
  have := (hd.getElem_inj_iff).mp heq
  omega

/-- Nothing is wrong with a node of a sound tree. -/
theorem nodeFault?_eq_none {n : Node NodeId} (hn : n ∈ t.attached.nodes) :
  t.nodeFault? n = none
  := by
  have hid : n.id ∈ t.attached.ids := Forest.mem_ids_iff.mpr ⟨n, hn, rfl⟩
  have hvalid := Forest.fault?_of_mem_nodes h.valid hn
  have hremoved : t.removed.find? n.id = none :=
    Forest.find?_eq_none_iff.mpr (h.notMem_removed hid)
  rw [nodeFault?.eq_def, if_neg (Nat.not_le.mpr (h.lt_size hid)), hremoved]
  cases n with
  | leaf i k s =>
    rw [Node.fault?, Node.toForest, Forest.fault?, Option.or_eq_none_iff] at hvalid
    exact hvalid.1
  | branch i k l cs =>
    rw [Node.fault?, Node.toForest, Forest.fault?, Option.or_eq_none_iff] at hvalid
    change (branchFault? k).or _ = none
    rw [hvalid.1, Option.none_or, List.findSome?_eq_none_iff]
    intro c hc
    rw [List.mem_zipIdx_iff_getElem?] at hc
    apply if_pos
    use h.parent?_of_mem_children hn (List.mem_of_getElem? hc)
    apply h.slot?_of_mem_children hn hc

/-- A sound tree is in order. -/
theorem fault?_eq_none :
  t.fault? = none
  := by
  rw [Tree.fault?, List.findSome?_eq_none_iff]
  intro n hn
  apply h.nodeFault?_eq_none hn

end Tree.Sound

end Fettle
