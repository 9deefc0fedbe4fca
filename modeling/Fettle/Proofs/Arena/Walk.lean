import Fettle.Proofs.Arena.Links
import Fettle.Proofs.Tree.Leaves

/-!
# Looking at an arena that stands for a tree

What is read off the table is what the tree says: the nodes met on the walk from the root
(`Represents.preOrder_eq`), the place of a node (`Represents.locate_of_mem`,
`Represents.locate_of_fault`) and the leaf before it (`Represents.prevLeaf?_eq`).  With no more
nodes than records, the walks are never cut short.  Nothing is wrong with the table of a sound
tree (`Represents.fault?_eq_none`).
-/

namespace Fettle

namespace Arena

variable {a : Arena} {p : Option NodeId} {s : Nat} {f : Forest NodeId}

/-! ### The walk from the root -/

/-- The walk over the trees of a forest meets its nodes in pre-order. -/
theorem walk_roots {n : Nat} (hn : f.size ≤ n) (hf : a.Fits f) :
  a.walk n f.roots = f.ids
  := by
  induction n generalizing f with
  | zero =>
    obtain rfl := Forest.eq_nil_of_size_le hn
    rfl
  | succ n ih =>
    cases f with
    | nil => rfl
    | leaf i k x rest =>
      rw [Forest.size] at hn
      rw [Fits, Forest.nodes, List.forall_mem_cons] at hf
      have hchildren : a.childrenOf i = [] := hf.1
      rw [Forest.roots, walk, hchildren, List.nil_append, ih (Nat.le_of_succ_le_succ hn) hf.2,
        Forest.ids]
    | branch i k l cs rest =>
      rw [Forest.size] at hn
      rw [Fits, Forest.nodes, List.forall_mem_cons, ← Forest.nodes_append] at hf
      have hchildren : a.childrenOf i = cs.roots := hf.1
      have hsize : (cs ++ rest).size ≤ n := by
        rw [Forest.size_append]
        omega
      rw [Forest.roots, walk, hchildren, ← Forest.roots_append, ih hsize hf.2, Forest.ids_append,
        Forest.ids]

/-! ### One node -/

namespace Laid

/-- The children of a node that is laid out are laid out. -/
theorem children (h : a.Laid p s f) {n : Node NodeId} (hn : n ∈ f.nodes) :
  a.Laid (some n.id) 0 n.children
  := by
  induction f generalizing p s with
  | nil => cases hn
  | leaf i k x rest ih =>
    rw [Laid] at h
    rw [Forest.nodes, List.mem_cons] at hn
    rcases hn with rfl | hn
    · trivial
    · apply ih h.2 hn
  | branch i k l cs rest ihc ih =>
    rw [Laid] at h
    rw [Forest.nodes, List.mem_cons, List.mem_append] at hn
    rcases hn with rfl | hn | hn
    · exact h.2.1
    · apply ihc h.2.1 hn
    · apply ih h.2.2 hn

end Laid

end Arena

theorem Tree.Sound.size_attached_le {t : Tree} (h : t.Sound) :
  t.attached.size ≤ t.size
  := by
  have hlength := h.numbered.length_eq
  rw [List.length_append, List.length_range, Forest.length_ids] at hlength
  omega

namespace Arena

variable {a : Arena} {p : Option NodeId} {s : Nat} {f : Forest NodeId}

/-- Nothing is wrong with a node that is laid out, if its kind and content fit. -/
theorem Laid.nodeFault?_eq_none (h : a.Laid p s f) (hf : f.fault? = none) {n : Node NodeId}
    (hn : n ∈ f.nodes) :
  a.nodeFault? n.id = none
  := by
  obtain ⟨p', s', hr⟩ := h.get?_node hn
  have hchildren := h.children hn
  have hvalid := Forest.fault?_of_mem_nodes hf hn
  rw [nodeFault?, hr]
  cases n with
  | leaf i k x =>
    rw [Node.fault?, Node.toForest, Forest.fault?, Option.or_eq_none_iff] at hvalid
    have hk := (leafFault?_eq_none_iff.mp hvalid.1).1
    simp [Node.record, Node.kind, Node.leafText?, Node.children, Forest.roots, hk, hvalid.1]
  | branch i k l cs =>
    rw [Node.fault?, Node.toForest, Forest.fault?, Option.or_eq_none_iff,
      branchFault?_eq_none_iff] at hvalid
    simp only [Node.record, Node.kind, Node.children, hvalid.1, Bool.not_true,
      Bool.false_eq_true, if_false, if_true]
    rw [List.findSome?_eq_none_iff]
    intro c hc
    obtain ⟨r, hr, hparent, hslot, hatt⟩ :=
      hchildren.get?_root (List.mem_zipIdx_iff_getElem?.mp hc)
    rw [Nat.zero_add] at hslot
    rw [linkFault?, hr]
    simp [hparent, hslot, hatt, Node.id]

namespace Represents

variable {t : Tree} {id : NodeId} (h : a.Represents t) (ht : t.Sound)

include h ht

/-- Every walk from the root that may meet as many nodes as there are records meets all nodes. -/
theorem walk_root (n : Nat) :
  a.walk (a.size + n) [a.root] = t.preOrder
  := by
  have hle := ht.size_attached_le
  have hsize : t.attached.size ≤ a.size + n := by
    rw [h.size]
    omega
  rw [h.root]
  apply walk_roots hsize h.laid.fits

theorem preOrder_eq :
  a.preOrder = t.preOrder
  := h.walk_root ht 0

/-- Nothing is wrong with the nodes met from the root on. -/
theorem fault?_eq_none :
  a.fault? = none
  := by
  rw [fault?, h.preOrder_eq ht, List.findSome?_eq_none_iff]
  intro id hid
  rw [Tree.preOrder, Forest.mem_ids_iff] at hid
  obtain ⟨n, hn, rfl⟩ := hid
  apply h.laid.nodeFault?_eq_none ht.valid hn

/-- A number that is given but not attached is that of a removed node. -/
theorem get?_of_notMem (hid : id ∉ t.attached.ids) (hlt : id < t.size) :
  ∃ r, a.get? id = some r ∧ r.attached = false
  := by
  have hmem := ht.numbered.mem_iff.mpr (List.mem_range.mpr hlt)
  rw [List.mem_append] at hmem
  have hremoved := hmem.resolve_left hid
  rw [Forest.mem_ids_iff] at hremoved
  obtain ⟨n, hn, rfl⟩ := hremoved
  obtain ⟨p, s, hr⟩ := h.struck n hn
  exact ⟨_, hr, rfl⟩

/-- Exactly the attached nodes have the flag. -/
theorem isAttached_iff :
  a.isAttached id = true ↔ id ∈ t.attached.ids
  := by
  rw [isAttached, Option.any_eq_true]
  constructor
  · rintro ⟨r, hr, hatt⟩
    by_contra hid
    have hlt : id < t.size := by
      rw [← h.size]
      apply lt_size_of_get? hr
    obtain ⟨r', hr', hstruck⟩ := h.get?_of_notMem ht hid hlt
    rw [hr] at hr'
    obtain rfl := Option.some.inj hr'
    rw [hatt] at hstruck
    cases hstruck
  · intro hid
    rw [Forest.mem_ids_iff] at hid
    obtain ⟨n, hn, rfl⟩ := hid
    obtain ⟨p, s, hr⟩ := h.laid.get?_node hn
    exact ⟨_, hr, rfl⟩

omit ht in
/-- The place of a node inside the root. -/
theorem get?_focus (c : t.Focus id) :
  ∃ r, a.get? id = some r ∧ r.parent = some c.parent.id ∧ r.slot = c.left.roots.length
    ∧ r.attached = true ∧ (a.childrenOf c.parent.id)[r.slot]? = some id
  := by
  obtain ⟨⟨q, hq, hchildren⟩, hlaid⟩ := h.laid_gap c.attached_eq
  have hid : c.siblings.roots[c.left.roots.length]? = some id := by
    rw [Tree.Focus.siblings, Forest.roots_append, Forest.roots_append, Node.roots_toForest,
      c.id_node, List.getElem?_append_right (Nat.le_refl _), Nat.sub_self]
    rfl
  obtain ⟨r, hr, hparent, hslot, hatt⟩ := hlaid.get?_root hid
  rw [Nat.zero_add] at hslot
  use r, hr, hparent, hslot, hatt
  rw [childrenOf_of_get? hq, hchildren, hslot]
  exact hid

omit ht in
theorem locate_focus (c : t.Focus id) :
  a.locate id = .ok (c.parent.id, c.left.roots.length)
  := by
  obtain ⟨r, hr, hparent, hslot, hatt, hchild⟩ := h.get?_focus c
  simp only [locate, hr, hatt, hparent, hchild, Bool.not_true, Bool.false_eq_true, if_false,
    if_true]
  rw [hslot]

/-- Where no edit can be made, the table gives the reason that the tree gives. -/
theorem locate_of_fault {fault : Fault} (hf : t.anchorFault? id = some fault) :
  a.locate id = .error fault
  := by
  rw [Tree.anchorFault?] at hf
  rw [locate]
  split at hf
  · rename_i hsize
    obtain rfl := Option.some.inj hf
    have hnone : a.get? id = none := by
      rw [← h.size] at hsize
      apply Array.getElem?_eq_none hsize
    rw [hnone]
  · rename_i hsize
    split at hf
    · rename_i hatt
      obtain rfl := Option.some.inj hf
      rw [Bool.not_eq_true', ← Bool.not_eq_true, Tree.isAttached_iff] at hatt
      obtain ⟨r, hr, hstruck⟩ := h.get?_of_notMem ht hatt (Nat.lt_of_not_le hsize)
      rw [hr]
      simp [hstruck]
    · split at hf
      · rename_i hroot
        obtain rfl := Option.some.inj hf
        subst hroot
        have hr := h.laid.1
        rw [hr]
        rfl
      · cases hf

end Represents

/-! ### The leaf before a node -/

theorem isLeaf_of_get? {id : NodeId} {r : Record} (h : a.get? id = some r) :
  a.isLeaf id = !r.kind.isComposite
  := by
  rw [isLeaf, kind, h]
  rfl

/-- The last leaf in the trees of a forest is found from the last tree on. -/
theorem lastLeafWithin?_roots {n : Nat} (hn : f.size ≤ n) (h : a.Laid p s f)
    (hf : f.fault? = none) :
  f.roots.reverse.findSome? (a.lastLeafWithin? n) = f.leaves.getLast?.map Leaf.id
  := by
  induction f generalizing n p s with
  | nil => rfl
  | leaf i k x rest ih =>
    rw [Forest.fault?, Option.or_eq_none_iff] at hf
    rw [Laid] at h
    rw [Forest.size] at hn
    obtain ⟨m, rfl⟩ := Nat.exists_eq_succ_of_ne_zero (n := n) (by omega)
    have hk := (leafFault?_eq_none_iff.mp hf.1).1
    have hself : a.lastLeafWithin? (m + 1) i = some i := by
      rw [lastLeafWithin?, isLeaf_of_get? h.1]
      simp [Node.record, Node.kind, hk]
    rw [Forest.roots, List.reverse_cons, List.findSome?_append, ih (by omega) h.2 hf.2,
      Forest.leaves, List.getLast?_cons]
    cases rest.leaves.getLast? with
    | none => simp [hself]
    | some l => rfl
  | branch i k l cs rest ihc ih =>
    rw [Forest.fault?, Option.or_eq_none_iff, Option.or_eq_none_iff, branchFault?_eq_none_iff] at hf
    rw [Laid] at h
    rw [Forest.size] at hn
    obtain ⟨m, rfl⟩ := Nat.exists_eq_succ_of_ne_zero (n := n) (by omega)
    have hcs : cs.size ≤ m := by omega
    have hself : a.lastLeafWithin? (m + 1) i = cs.leaves.getLast?.map Leaf.id := by
      rw [lastLeafWithin?, isLeaf_of_get? h.1, ← ihc hcs h.2.1 hf.2.1,
        childrenOf_of_get? h.1]
      simp [Node.record, Node.kind, Node.children, hf.1]
    rw [Forest.roots, List.reverse_cons, List.findSome?_append, ih (by omega) h.2.2 hf.2.2,
      Forest.leaves, List.getLast?_append]
    cases rest.leaves.getLast? with
    | none => simp [hself]
    | some l => rfl

theorem parent?_of_get? {id : NodeId} {r : Record} (h : a.get? id = some r)
    (hatt : r.attached = true) :
  a.parent? id = r.parent
  := by
  rw [parent?, h, Option.filter_some, if_pos hatt]
  rfl

/-- The place of a tree of a forest. -/
theorem place?_eq {q : NodeId} {g : Forest NodeId} {id : NodeId} {ids : List NodeId}
    (h : a.Laid (some q) 0 (f ++ g)) (hchildren : a.childrenOf q = (f ++ g).roots)
    (hid : g.roots = id :: ids) :
  a.place? id = some (q, f.roots.length)
  := by
  have hat : (f ++ g).roots[f.roots.length]? = some id := by
    rw [Forest.roots_append, hid, List.getElem?_append_right (Nat.le_refl _), Nat.sub_self]
    rfl
  obtain ⟨r, hr, hparent, hslot, hatt⟩ := h.get?_root hat
  rw [Nat.zero_add] at hslot
  have hq : a.parent? id = some q := by
    rw [parent?_of_get? hr hatt, hparent]
  simp [place?, hq, hr, hslot, hchildren, hat, -Forest.roots_append]

/-- The node before a tree of a forest. -/
theorem prevSibling?_eq {q : NodeId} {g : Forest NodeId} {id : NodeId} {ids : List NodeId}
    (h : a.Laid (some q) 0 (f ++ g)) (hchildren : a.childrenOf q = (f ++ g).roots)
    (hid : g.roots = id :: ids) :
  a.prevSibling? id = f.roots.getLast?
  := by
  have hplace := place?_eq h hchildren hid
  rw [prevSibling?, hplace, List.getLast?_eq_getElem?]
  change (if f.roots.length = 0 then none else _) = _
  split
  · rename_i hzero
    rw [List.length_eq_zero_iff.mp hzero]
    rfl
  · rw [hchildren, Forest.roots_append, List.getElem?_append_left (by omega)]

end Arena

/-- A forest is empty or has a last tree. -/
theorem Forest.eq_nil_or_concat {ι : Type} (f : Forest ι) :
  f = nil ∨ ∃ (g : Forest ι) (n : Node ι), f = g ++ n.toForest
  := by
  induction f with
  | nil =>
    left
    rfl
  | leaf i k x rest ih =>
    right
    rcases ih with rfl | ⟨g, n, rfl⟩
    · use nil, .leaf i k x
      rfl
    · use leaf i k x g, n
      rfl
  | branch i k l cs rest _ ih =>
    right
    rcases ih with rfl | ⟨g, n, rfl⟩
    · use nil, .branch i k l cs
      rfl
    · use branch i k l cs g, n
      rfl

/-- The frame around the whole of a tree is that of the root. -/
theorem Tree.eq_of_fill {t : Tree} {fr : Frame} {f : Forest NodeId} (h : t.attached = fr.fill f) :
  fr.before = .nil ∧ fr.id = root
  := by
  rw [attached, Frame.fill] at h
  cases hb : fr.before with
  | nil =>
    rw [hb, Forest.nil_append] at h
    injection h with hid
    exact ⟨rfl, hid.symm⟩
  | leaf i k x rest =>
    rw [hb, Forest.leaf_append] at h
    cases h
  | branch i k l cs rest =>
    rw [hb, Forest.branch_append] at h
    injection h with _ _ _ _ hrest
    cases rest <;> cases hrest

/-- The leaves are nodes. -/
theorem Forest.mem_nodes_of_mem_leaves {ι : Type} {f : Forest ι} {l : Leaf ι} (h : l ∈ f.leaves) :
  .leaf l.id l.kind l.text ∈ f.nodes
  := by
  induction f with
  | nil => cases h
  | leaf i k x rest ih =>
    rw [leaves, List.mem_cons] at h
    rw [nodes, List.mem_cons]
    rcases h with rfl | h
    · left
      rfl
    · right
      apply ih h
  | branch i k lb cs rest ihc ih =>
    rw [leaves, List.mem_append] at h
    rw [nodes, List.mem_cons, List.mem_append]
    right
    apply h.imp ihc ih

namespace Arena

variable {a : Arena}

namespace Represents

variable {t : Tree} {id : NodeId} (h : a.Represents t) (ht : t.Sound)

include h

theorem prevSibling?_root :
  a.prevSibling? Tree.root = none ∧ a.parent? Tree.root = none
  := by
  have hparent : a.parent? Tree.root = none := by
    rw [parent?_of_get? h.laid.1 rfl]
    rfl
  constructor
  · simp [prevSibling?, place?, hparent]
  · exact hparent

theorem parent?_gap {fr : Frame} {frs : List Frame} {f : Forest NodeId}
    (hall : t.attached = .within (fr :: frs) f) (hid : id ∈ f.roots) :
  a.parent? id = some fr.id
  := by
  obtain ⟨j, hj⟩ := List.mem_iff_getElem?.mp hid
  obtain ⟨r, hr, hparent, -, hatt⟩ := (h.laid_gap hall).2.get?_root hj
  rw [parent?_of_get? hr hatt, hparent]

theorem prevSibling?_gap {fr : Frame} {frs : List Frame} {left rest : Forest NodeId}
    {ids : List NodeId} (hall : t.attached = .within (fr :: frs) (left ++ rest))
    (hid : rest.roots = id :: ids) :
  a.prevSibling? id = left.roots.getLast?
  := by
  obtain ⟨⟨r, hr, hchildren⟩, hlaid⟩ := h.laid_gap hall
  rw [← childrenOf_of_get? hr] at hchildren
  apply prevSibling?_eq hlaid hchildren hid

include ht

/-- The last leaf inside a tree between siblings. -/
theorem lastLeaf?_eq {frs : List Frame} {left right : Forest NodeId} {m : Node NodeId}
    (hall : t.attached = .within frs (left ++ (m.toForest ++ right))) :
  a.lastLeaf? m.id = m.toForest.leaves.getLast?.map Leaf.id
  := by
  have hlaid := h.laid
  have hvalid := ht.valid
  have hsize := ht.size_attached_le
  rw [hall] at hlaid hvalid hsize
  obtain ⟨p, s, hgap⟩ := hlaid.of_within
  have hfault := Forest.fault?_of_within hvalid
  have hle := Nat.le_trans Forest.size_le_within hsize
  rw [laid_append, laid_append] at hgap
  rw [Forest.fault?_append, Option.or_eq_none_iff, Forest.fault?_append,
    Option.or_eq_none_iff] at hfault
  rw [Forest.size_append, Forest.size_append, ← h.size] at hle
  have hm : m.toForest.size ≤ a.size := by omega
  have hlast := lastLeafWithin?_roots hm hgap.2.1 hfault.2.1
  rw [Node.roots_toForest] at hlast
  rw [← hlast]
  simp [lastLeaf?]

/-- The last leaf on the left of a gap is found on the way up, first among the siblings and then
from the parent on. -/
theorem leafLeftOf?_eq {n : Nat} {fr : Frame} {frs : List Frame} {left rest : Forest NodeId}
    (hall : t.attached = .within (fr :: frs) (left ++ rest)) (hid : id ∈ rest.roots)
    (hn : (Forest.within (fr :: frs) left).size ≤ n) :
  a.leafLeftOf? n id left.roots.getLast?
    = (Frame.leavesBefore (fr :: frs) ++ left.leaves).getLast?.map Leaf.id
  := by
  induction n generalizing fr frs left rest id with
  | zero =>
    rw [Forest.within] at hn
    have hle := Nat.le_trans Forest.size_le_within hn
    rw [Forest.size_fill] at hle
    omega
  | succ n ih =>
    rcases left.eq_nil_or_concat with rfl | ⟨left, m, rfl⟩
    · -- no sibling is left: on to the parent
      have hup := h.parent?_gap hall hid
      have hleft : a.leafLeftOf? (n + 1) id none = a.leafLeftOf? n fr.id (a.prevSibling? fr.id) := by
        rw [leafLeftOf?, hup]
      change a.leafLeftOf? (n + 1) id none = _
      rw [hleft, Forest.leaves, List.append_nil, Frame.leavesBefore]
      cases frs with
      | nil =>
        obtain ⟨hbefore, hroot⟩ := Tree.eq_of_fill hall
        obtain ⟨hsibling, htop⟩ := h.prevSibling?_root
        rw [hbefore, hroot, hsibling]
        cases n with
        | zero => rfl
        | succ n =>
          rw [leafLeftOf?, htop]
          rfl
      | cons fr' frs =>
        have hall' : t.attached = .within (fr' :: frs)
            (fr.before ++ .branch fr.id fr.kind fr.label (.nil ++ rest) fr.after) := hall
        have hsize : (Forest.within (fr' :: frs) fr.before).size + (fr.fill .nil).size
            = (Forest.within (fr' :: frs) (fr.fill .nil)).size + fr.before.size :=
          Forest.size_within_add
        rw [h.prevSibling?_gap hall' rfl]
        apply ih hall' List.mem_cons_self
        change (Forest.within (fr' :: frs) (fr.fill .nil)).size ≤ n + 1 at hn
        rw [Forest.size_fill, Forest.size] at hsize
        omega
    · -- the last tree of the siblings that are left
      have hroots : (left ++ m.toForest).roots.getLast? = some m.id := by
        rw [Forest.roots_append, Node.roots_toForest, List.getLast?_concat]
      rw [Forest.append_assoc] at hall
      rw [hroots, leafLeftOf?, h.lastLeaf?_eq ht hall, Forest.leaves_append, ← List.append_assoc,
        List.getLast?_append]
      cases m.toForest.leaves.getLast? with
      | some l => rfl
      | none =>
        have hm : (m.toForest ++ rest).roots = m.id :: rest.roots := by
          rw [Forest.roots_append, Node.roots_toForest]
          rfl
        have hsize : (Forest.within (fr :: frs) left).size + (left ++ m.toForest).size
            = (Forest.within (fr :: frs) (left ++ m.toForest)).size + left.size :=
          Forest.size_within_add
        have hpos : 0 < m.toForest.size := by
          cases m <;> simp [Node.toForest, Forest.size]
        change a.leafLeftOf? n id (a.prevSibling? m.id) = _
        rw [h.prevSibling?_gap hall hm, Option.none_or]
        apply ih hall
        · rw [hm]
          apply List.mem_cons_of_mem _ hid
        · rw [Forest.size_append] at hsize
          omega

/-- The leaf just before a node. -/
theorem prevLeaf?_eq (hid : id ∈ t.children.ids) :
  a.prevLeaf? id = (t.prevLeaf? id).map Leaf.id
  := by
  obtain ⟨c⟩ := Tree.exists_focus hid
  have hrest : (c.node.toForest ++ c.right).roots = id :: c.right.roots := by
    rw [Forest.roots_append, Node.roots_toForest, c.id_node]
    rfl
  have hsize : (Forest.within (c.parent :: c.frames) c.left).size ≤ a.size := by
    have hle := ht.size_attached_le
    have hadd := @Forest.size_within_add (c.parent :: c.frames) c.left
      (c.left ++ (c.node.toForest ++ c.right))
    rw [← c.attached_eq, Forest.size_append] at hadd
    rw [h.size]
    omega
  rw [prevLeaf?, h.prevSibling?_gap c.attached_eq hrest,
    h.leafLeftOf?_eq ht c.attached_eq (by simp [hrest]) hsize, Tree.prevLeaf?,
    c.leavesBefore_eq ht]

/-- The record of a leaf. -/
theorem get?_leaf {l : Leaf NodeId} (hl : l ∈ t.attached.leaves) :
  ∃ r, a.get? l.id = some r ∧ r.kind = l.kind ∧ r.text = l.text ∧ r.kind.isComposite = false
  := by
  have hn := Forest.mem_nodes_of_mem_leaves hl
  have hvalid := Forest.fault?_of_mem_nodes ht.valid hn
  rw [Node.fault?, Node.toForest, Forest.fault?, Option.or_eq_none_iff] at hvalid
  obtain ⟨p, s, hr⟩ := h.laid.get?_node hn
  exact ⟨_, hr, rfl, rfl, (leafFault?_eq_none_iff.mp hvalid.1).1⟩

theorem isWhitespace_leaf {l : Leaf NodeId} (hl : l ∈ t.attached.leaves) :
  a.isWhitespace l.id = decide (l.kind = .whitespace)
  := by
  obtain ⟨r, hr, hkind, -, -⟩ := h.get?_leaf ht hl
  rw [isWhitespace, kind, hr, Option.map_some, Option.getD_some, hkind]
  rfl

theorem leafText?_leaf {l : Leaf NodeId} (hl : l ∈ t.attached.leaves) :
  a.leafText? l.id = some l.text
  := by
  obtain ⟨r, hr, -, htext, hleaf⟩ := h.get?_leaf ht hl
  rw [leafText?, hr, Option.filter_some, if_pos (by rw [hleaf]; rfl), Option.map_some, htext]

/-- The white space just before a node. -/
theorem spaceBefore_eq (hid : id ∈ t.children.ids) :
  (a.prevLeaf? id).filter a.isWhitespace
    = ((t.prevLeaf? id).filter fun l => l.kind = .whitespace).map Leaf.id
  := by
  rw [h.prevLeaf?_eq ht hid]
  cases hl : t.prevLeaf? id with
  | none => rfl
  | some l =>
    rw [Option.map_some, Option.filter_some, Option.filter_some,
      h.isWhitespace_leaf ht (ht.mem_of_prevLeaf? hl)]
    split <;> rfl

end Represents

end Arena

end Fettle
