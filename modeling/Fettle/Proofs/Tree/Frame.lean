import Fettle.Proofs.Tree.Sound

/-!
# What is around a node

A `Frame` is a branch with a gap for its content and with what stands before and after it;
`Forest.within` puts a forest into the innermost of a list of frames.  A node of a tree has a
parent, and stands there between two stretches of siblings; around the parent are frames:
`Tree.Sound.exists_focus`.  An edit changes what is in the gap and leaves the frames as they are.
-/

namespace Fettle

/-- A branch without its content, and what stands before and after it. -/
structure Frame where
  before : Forest NodeId
  id : NodeId
  kind : Kind
  label : Option String
  after : Forest NodeId

/-- A frame with a content. -/
def Frame.fill (fr : Frame) (f : Forest NodeId) : Forest NodeId :=
  fr.before ++ .branch fr.id fr.kind fr.label f fr.after

/-- The leaves on the left of the gap in a list of frames, the innermost of which comes first. -/
def Frame.leavesBefore : List Frame → List (Leaf NodeId)
  | [] => []
  | fr :: frs => leavesBefore frs ++ fr.before.leaves

namespace Forest

/-- A forest in a list of frames, the innermost of which comes first. -/
def within : List Frame → Forest NodeId → Forest NodeId
  | [], f => f
  | fr :: frs, f => within frs (fr.fill f)

variable {frs : List Frame} {fr : Frame} {f g : Forest NodeId} {id : NodeId}

@[simp]
theorem ids_fill :
  (fr.fill f).ids = fr.before.ids ++ fr.id :: (f.ids ++ fr.after.ids)
  := by
  rw [Frame.fill, ids_append, ids]

@[simp]
theorem roots_fill :
  (fr.fill f).roots = fr.before.roots ++ fr.id :: fr.after.roots
  := by
  rw [Frame.fill, roots_append, roots]

theorem size_fill :
  (fr.fill f).size = fr.before.size + (f.size + fr.after.size + 1)
  := by
  rw [Frame.fill, size_append, size]

theorem within_concat :
  within (frs ++ [fr]) f = fr.fill (within frs f)
  := by
  induction frs generalizing f with
  | nil => rfl
  | cons fr' frs ih =>
    rw [List.cons_append, within, within, ih]

theorem sublist_ids_within :
  f.ids.Sublist (within frs f).ids
  := by
  induction frs generalizing f with
  | nil => apply List.Sublist.refl
  | cons fr frs ih =>
    rw [within]
    apply List.Sublist.trans _ ih
    rw [ids_fill]
    apply List.Sublist.trans _ (List.sublist_append_right _ _)
    apply (List.sublist_append_left _ _).cons

theorem size_le_within :
  f.size ≤ (within frs f).size
  := by
  rw [← length_ids, ← length_ids]
  apply sublist_ids_within.length_le

/-- Every frame holds a node besides those of the forest. -/
theorem length_add_size_le_within :
  frs.length + f.size ≤ (within frs f).size
  := by
  induction frs generalizing f with
  | nil => exact Nat.le_of_eq (Nat.zero_add f.size)
  | cons fr frs ih =>
    have hfill : frs.length + (fr.fill f).size ≤ (within frs (fr.fill f)).size := ih
    rw [size_fill] at hfill
    rw [within, List.length_cons]
    omega

/-- Frames add the same number of nodes to every forest. -/
theorem size_within_add :
  (within frs f).size + g.size = (within frs g).size + f.size
  := by
  induction frs generalizing f g with
  | nil =>
    rw [within, within]
    omega
  | cons fr frs ih =>
    have hfill : (within frs (fr.fill f)).size + (fr.fill g).size
        = (within frs (fr.fill g)).size + (fr.fill f).size := ih
    rw [size_fill, size_fill] at hfill
    rw [within, within]
    omega

/-- What stands within frames is without fault if the whole is. -/
theorem fault?_of_within (h : (within frs f).fault? = none) :
  f.fault? = none
  := by
  induction frs generalizing f with
  | nil => exact h
  | cons fr frs ih =>
    have hfill := ih h
    rw [Frame.fill, fault?_append, Option.or_eq_none_iff, fault?, Option.or_eq_none_iff,
      Option.or_eq_none_iff] at hfill
    exact hfill.2.2.1

/-- A node stands between siblings, within frames. -/
theorem exists_within (pre : Forest NodeId) (h : id ∈ f.ids) :
  ∃ (frs : List Frame) (left : Forest NodeId) (n : Node NodeId) (right : Forest NodeId),
    pre ++ f = within frs (left ++ (n.toForest ++ right)) ∧ n.id = id
  := by
  induction f generalizing pre with
  | nil => cases h
  | leaf i k s rest ih =>
    rw [ids, List.mem_cons] at h
    rcases h with rfl | h
    · use [], pre, .leaf id k s, rest
      exact ⟨rfl, rfl⟩
    · obtain ⟨frs, left, n, right, heq, hn⟩ := ih (pre ++ .leaf i k s nil) h
      use frs, left, n, right
      rw [← heq, append_assoc]
      exact ⟨rfl, hn⟩
  | branch i k l cs rest ihc ih =>
    rw [ids, List.mem_cons, List.mem_append] at h
    rcases h with rfl | h | h
    · use [], pre, .branch id k l cs, rest
      exact ⟨rfl, rfl⟩
    · obtain ⟨frs, left, n, right, heq, hn⟩ := ihc nil h
      use frs ++ [⟨pre, i, k, l, rest⟩], left, n, right
      rw [within_concat, ← heq]
      exact ⟨rfl, hn⟩
    · obtain ⟨frs, left, n, right, heq, hn⟩ := ih (pre ++ .branch i k l cs nil) h
      use frs, left, n, right
      rw [← heq, append_assoc]
      exact ⟨rfl, hn⟩

/-! ### Finding and replacing within frames -/

theorem find?_append :
  (f ++ g).find? id = (f.find? id).or (g.find? id)
  := by
  induction f with
  | nil => simp [find?]
  | leaf i k s rest ih =>
    rw [leaf_append, find?, find?, ih]
    split <;> rfl
  | branch i k l cs rest _ ih =>
    rw [branch_append, find?, find?, ih]
    split
    · rfl
    · rw [Option.or_assoc]

theorem splice_append_left {h : Forest NodeId → Forest NodeId} (hid : id ∉ f.ids) :
  (f ++ g).splice id h = f ++ g.splice id h
  := by
  induction f with
  | nil => rfl
  | leaf i k s rest ih =>
    rw [ids, List.mem_cons, not_or] at hid
    rw [leaf_append, splice, if_neg (Ne.symm hid.1), ih hid.2, leaf_append]
  | branch i k l cs rest _ ih =>
    rw [ids, List.mem_cons, List.mem_append, not_or, not_or] at hid
    rw [branch_append, splice, if_neg (Ne.symm hid.1), splice_of_not_mem hid.2.1, ih hid.2.2,
      branch_append]

theorem splice_append_right {h : Forest NodeId → Forest NodeId} (hid : id ∉ g.ids) :
  (f ++ g).splice id h = f.splice id h ++ g
  := by
  induction f with
  | nil =>
    rw [nil_append, splice_of_not_mem hid]
    rfl
  | leaf i k s rest ih =>
    rw [leaf_append, splice, splice, ih]
    split
    · rw [append_assoc]
    · rfl
  | branch i k l cs rest _ ih =>
    rw [branch_append, splice, splice, ih]
    split
    · rw [append_assoc]
    · rfl

theorem find?_toForest (n : Node NodeId) :
  n.toForest.find? n.id = some n
  := by
  cases n <;> simp [Node.toForest, Node.id, find?]

theorem splice_toForest (n : Node NodeId) (h : Forest NodeId → Forest NodeId) :
  n.toForest.splice n.id h = h n.toForest
  := by
  cases n <;> simp [Node.toForest, Node.id, splice]

/-- The labels in a frame that are not those of the content. -/
theorem notMem_of_nodup_fill (hd : (fr.fill f).ids.Nodup) (hid : id ∈ f.ids) :
  id ∉ fr.before.ids ∧ id ≠ fr.id ∧ id ∉ fr.after.ids
  := by
  rw [ids_fill, List.nodup_append, List.nodup_cons, List.nodup_append] at hd
  obtain ⟨-, ⟨hroot, -, -, hafter⟩, hbefore⟩ := hd
  refine ⟨?_, ?_, ?_⟩
  · intro hm
    apply hbefore id hm id _ rfl
    simp [hid]
  · rintro rfl
    apply hroot
    simp [hid]
  · intro hm
    exact hafter id hid id hm rfl

theorem find?_within (hd : (within frs f).ids.Nodup) (hid : id ∈ f.ids) :
  (within frs f).find? id = f.find? id
  := by
  induction frs generalizing f with
  | nil => rfl
  | cons fr frs ih =>
    rw [within] at hd ⊢
    rw [ih hd (by simp [hid])]
    obtain ⟨hbefore, hroot, hafter⟩ :=
      notMem_of_nodup_fill (sublist_ids_within.nodup hd) hid
    rw [Frame.fill, find?_append, find?_eq_none_iff.mpr hbefore, Option.none_or, find?,
      if_neg (Ne.symm hroot), find?_eq_none_iff.mpr hafter, Option.or_none]

theorem splice_within {h : Forest NodeId → Forest NodeId} (hd : (within frs f).ids.Nodup)
    (hid : id ∈ f.ids) :
  (within frs f).splice id h = within frs (f.splice id h)
  := by
  induction frs generalizing f with
  | nil => rfl
  | cons fr frs ih =>
    rw [within] at hd ⊢
    rw [ih hd (by simp [hid])]
    obtain ⟨hbefore, hroot, hafter⟩ :=
      notMem_of_nodup_fill (sublist_ids_within.nodup hd) hid
    rw [within, Frame.fill, splice_append_left hbefore, splice, if_neg (Ne.symm hroot),
      splice_of_not_mem hafter, Frame.fill]

theorem leavesBefore?_append (hid : id ∉ f.ids) :
  (f ++ g).leavesBefore? id = (g.leavesBefore? id).map (f.leaves ++ ·)
  := by
  induction f with
  | nil => simp [leaves]
  | leaf i k s rest ih =>
    rw [ids, List.mem_cons, not_or] at hid
    rw [leaf_append, leavesBefore?, if_neg (Ne.symm hid.1), ih hid.2, Option.map_map]
    rfl
  | branch i k l cs rest _ ih =>
    rw [ids, List.mem_cons, List.mem_append, not_or, not_or] at hid
    rw [branch_append, leavesBefore?, if_neg (Ne.symm hid.1), leavesBefore?_of_not_mem hid.2.1,
      ih hid.2.2, Option.none_or, Option.map_map]
    simp [Function.comp_def, leaves]

theorem leavesBefore?_within {l : List (Leaf NodeId)} (hd : (within frs f).ids.Nodup)
    (hid : id ∈ f.ids) (hl : f.leavesBefore? id = some l) :
  (within frs f).leavesBefore? id = some (Frame.leavesBefore frs ++ l)
  := by
  induction frs generalizing f l with
  | nil => exact hl
  | cons fr frs ih =>
    rw [within] at hd ⊢
    obtain ⟨hbefore, hroot, -⟩ := notMem_of_nodup_fill (sublist_ids_within.nodup hd) hid
    have hfill : (fr.fill f).leavesBefore? id = some (fr.before.leaves ++ l) := by
      rw [Frame.fill, leavesBefore?_append hbefore, leavesBefore?, if_neg (Ne.symm hroot), hl]
      rfl
    rw [ih hd (by simp [hid]) hfill, Frame.leavesBefore, List.append_assoc]

/-! ### Between siblings -/

section

variable {left right : Forest NodeId} {n : Node NodeId}

theorem id_mem_toForest (n : Node NodeId) :
  n.id ∈ n.toForest.ids
  := mem_ids_of_find? (find?_toForest n)

/-- The labels on both sides of a tree are not that of the tree. -/
theorem notMem_of_nodup_between (hd : (left ++ (n.toForest ++ right)).ids.Nodup) :
  n.id ∉ left.ids ∧ n.id ∉ right.ids
  := by
  rw [ids_append, ids_append, List.nodup_append, List.nodup_append] at hd
  obtain ⟨-, ⟨-, -, hright⟩, hleft⟩ := hd
  constructor
  · intro hm
    apply hleft _ hm _ _ rfl
    apply List.mem_append_left _ (id_mem_toForest n)
  · intro hm
    exact hright _ (id_mem_toForest n) _ hm rfl

variable (hid : n.id = id) (hd : (left ++ (n.toForest ++ right)).ids.Nodup)

include hid hd

theorem splice_between (h : Forest NodeId → Forest NodeId) :
  (left ++ (n.toForest ++ right)).splice id h = left ++ (h n.toForest ++ right)
  := by
  subst hid
  obtain ⟨hl, hr⟩ := notMem_of_nodup_between hd
  rw [splice_append_left hl, splice_append_right hr, splice_toForest]

theorem find?_between :
  (left ++ (n.toForest ++ right)).find? id = some n
  := by
  subst hid
  obtain ⟨hl, -⟩ := notMem_of_nodup_between hd
  rw [find?_append, find?_append, find?_eq_none_iff.mpr hl, find?_toForest]
  rfl

theorem leavesBefore?_between :
  (left ++ (n.toForest ++ right)).leavesBefore? id = some left.leaves
  := by
  subst hid
  obtain ⟨hl, -⟩ := notMem_of_nodup_between hd
  have hself : (n.toForest ++ right).leavesBefore? n.id = some [] := by
    cases n <;> simp [Node.toForest, Node.id, leavesBefore?]
  rw [leavesBefore?_append hl, hself, Option.map_some, List.append_nil]

end

end Forest

namespace Tree

/-- The place of a node inside the root of a tree: its parent, the siblings on both sides, and
what is around the parent. -/
structure Focus (t : Tree) (id : NodeId) where
  frames : List Frame
  parent : Frame
  left : Forest NodeId
  node : Node NodeId
  right : Forest NodeId
  id_node : node.id = id
  attached_eq : t.attached
    = .within (parent :: frames) (left ++ (node.toForest ++ right))

/-- Every node inside the root has a place. -/
theorem exists_focus {t : Tree} {id : NodeId} (hid : id ∈ t.children.ids) :
  Nonempty (t.Focus id)
  := by
  obtain ⟨frs, left, n, right, heq, hn⟩ := Forest.exists_within .nil hid
  have hattached : t.attached = .within (frs ++ [⟨.nil, root, t.rootKind, t.rootLabel, .nil⟩])
      (left ++ (n.toForest ++ right)) := by
    rw [Forest.within_concat, ← heq]
    rfl
  cases frs with
  | nil => exact ⟨[], _, left, n, right, hn, hattached⟩
  | cons fr frs => exact ⟨_, fr, left, n, right, hn, hattached⟩

namespace Focus

variable {t : Tree} {id : NodeId} (c : t.Focus id) (h : t.Sound)

/-- The children of the parent. -/
def siblings : Forest NodeId :=
  c.left ++ (c.node.toForest ++ c.right)

include h

theorem nodup_siblings :
  c.siblings.ids.Nodup
  := by
  have hd := h.nodup_attached
  rw [c.attached_eq] at hd
  apply Forest.sublist_ids_within.nodup hd

omit h in
theorem mem_siblings :
  id ∈ c.siblings.ids
  := by
  have hn := Forest.id_mem_toForest c.node
  rw [c.id_node] at hn
  simp [siblings, hn]

/-- What is found at the place. -/
theorem find?_eq (hid : id ∈ t.children.ids) :
  t.children.find? id = some c.node
  := by
  have hroot : id ≠ root := by
    rintro rfl
    exact h.root_notMem_children hid
  have hd := h.nodup_attached
  have hsiblings := c.nodup_siblings h
  rw [← find?_attached hroot, c.attached_eq]
  rw [c.attached_eq] at hd
  rw [Forest.find?_within hd c.mem_siblings]
  apply Forest.find?_between c.id_node hsiblings

/-- The leaves before the node. -/
theorem leavesBefore_eq :
  t.leavesBefore id = Frame.leavesBefore (c.parent :: c.frames) ++ c.left.leaves
  := by
  have hd := h.nodup_attached
  have hsiblings := c.nodup_siblings h
  rw [leavesBefore, c.attached_eq]
  rw [c.attached_eq] at hd
  rw [Forest.leavesBefore?_within hd c.mem_siblings
    (Forest.leavesBefore?_between c.id_node hsiblings)]
  rfl

/-- Replacing the node changes what is in the gap. -/
theorem attached_splice (hid : id ∈ t.children.ids) (f : Forest NodeId → Forest NodeId) :
  Forest.branch root t.rootKind t.rootLabel (t.children.splice id f) .nil
    = .within (c.parent :: c.frames) (c.left ++ (f c.node.toForest ++ c.right))
  := by
  have hroot : id ≠ root := by
    rintro rfl
    exact h.root_notMem_children hid
  have hattached : t.attached.splice id f
      = .branch root t.rootKind t.rootLabel (t.children.splice id f) .nil := by
    rw [attached, Forest.splice, if_neg (Ne.symm hroot)]
    rfl
  have hd := h.nodup_attached
  have hsiblings := c.nodup_siblings h
  rw [c.attached_eq] at hd
  rw [← hattached, c.attached_eq, Forest.splice_within hd c.mem_siblings,
    Forest.splice_between c.id_node hsiblings]

end Focus

end Tree

end Fettle
