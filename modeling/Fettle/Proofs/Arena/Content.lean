import Fettle.Arena.View
import Fettle.Proofs.Arena.Reachable
import Fettle.Proofs.Tree.Entries

/-!
# What an arena holds

What is read off the table of a sound tree by going along the links is what the tree holds: its
leaves (`Represents.leaves_eq`), the nodes inside a node and the text under it
(`Represents.inside_eq`, `Represents.textOf_eq`), and the offset at which a node starts
(`Represents.startOffset_eq`).  The length of a text is counted without putting the text together
(`textLengthOf_eq`).
-/

namespace Fettle

namespace Arena

variable {a : Arena} {p : Option NodeId} {s : Nat} {f : Forest NodeId}

/-! ### Texts and their lengths -/

theorem utf8ByteSize_join (ts : List String) :
  (String.join ts).utf8ByteSize = ts.foldr (fun t sum => t.utf8ByteSize + sum) 0
  := by
  induction ts with
  | nil => rfl
  | cons t ts ih => rw [String.join_cons, String.utf8ByteSize_append, ih, List.foldr_cons]

/-- The length counted on the way down is that of the text. -/
theorem textLengthWithin_eq (a : Arena) (n : Nat) (id : NodeId) :
  a.textLengthWithin n id = (a.textWithin n id).utf8ByteSize
  := by
  induction n generalizing id with
  | zero => rfl
  | succ n ih =>
    rw [textLengthWithin, textWithin]
    cases a.get? id with
    | none => rfl
    | some r =>
      dsimp only
      split
      · rw [utf8ByteSize_join, List.foldr_map]
        simp only [ih]
      · rfl

theorem textLengthOf_eq (a : Arena) (id : NodeId) :
  a.textLengthOf id = (a.textOf id).utf8ByteSize
  := a.textLengthWithin_eq a.size id

/-- The text of the trees of a forest. -/
theorem textWithin_roots {n : Nat} (hn : f.size ≤ n) (h : a.Laid p s f) (hf : f.fault? = none) :
  String.join (f.roots.map (a.textWithin n)) = f.text
  := by
  induction f generalizing n p s with
  | nil => rfl
  | leaf i k x rest ih =>
    rw [Forest.fault?, Option.or_eq_none_iff] at hf
    rw [Laid] at h
    rw [Forest.size] at hn
    obtain ⟨m, rfl⟩ := Nat.exists_eq_succ_of_ne_zero (n := n) (by omega)
    have hk := (leafFault?_eq_none_iff.mp hf.1).1
    have hself : a.textWithin (m + 1) i = x := by
      rw [textWithin, h.1]
      simp [Node.record, Node.kind, Node.leafText?, hk]
    rw [Forest.roots, List.map_cons, String.join_cons, hself, ih (by omega) h.2 hf.2, Forest.text]
  | branch i k l cs rest ihc ih =>
    rw [Forest.fault?, Option.or_eq_none_iff, Option.or_eq_none_iff, branchFault?_eq_none_iff] at hf
    rw [Laid] at h
    rw [Forest.size] at hn
    obtain ⟨m, rfl⟩ := Nat.exists_eq_succ_of_ne_zero (n := n) (by omega)
    have hself : a.textWithin (m + 1) i = cs.text := by
      rw [textWithin, h.1, ← ihc (by omega : cs.size ≤ m) h.2.1 hf.2.1]
      simp [Node.record, Node.kind, Node.children, hf.1]
    rw [Forest.roots, List.map_cons, String.join_cons, hself, ih (by omega) h.2.2 hf.2.2,
      Forest.text]

/-- The length of the text of the trees of a forest. -/
theorem textLengthOfAll_roots (hn : f.size ≤ a.size) (h : a.Laid p s f) (hf : f.fault? = none) :
  a.textLengthOfAll f.roots = f.text.utf8ByteSize
  := by
  rw [← textWithin_roots hn h hf, utf8ByteSize_join, List.foldr_map, textLengthOfAll]
  simp only [textLengthOf_eq, textOf]

/-- A tree inside a forest that is laid out is laid out. -/
theorem Laid.node (h : a.Laid p s f) {n : Node NodeId} (hn : n ∈ f.nodes) :
  ∃ p s, a.Laid p s n.toForest
  := by
  obtain ⟨p, s, hr⟩ := h.get?_node hn
  have hchildren := h.children hn
  use p, s
  cases n with
  | leaf i k x => exact ⟨hr, trivial⟩
  | branch i k l cs => exact ⟨hr, hchildren, trivial⟩

end Arena

namespace Forest

theorem size_le_of_mem_nodes {f : Forest NodeId} {n : Node NodeId} (hn : n ∈ f.nodes) :
  n.toForest.size ≤ f.size
  := by
  induction f with
  | nil => cases hn
  | leaf i k x rest ih =>
    rw [nodes, List.mem_cons] at hn
    rw [size]
    rcases hn with rfl | hn
    · simp [Node.toForest, size]
    · have hle := ih hn
      omega
  | branch i k l cs rest ihc ih =>
    rw [nodes, List.mem_cons, List.mem_append] at hn
    rw [size]
    rcases hn with rfl | hn | hn
    · simp [Node.toForest, size]
    · have hle := ihc hn
      omega
    · have hle := ih hn
      omega

end Forest

namespace Arena

variable {a : Arena}

/-! ### Nodes of a tree -/

/-- What a node of an arena is by itself. -/
def entryOf? (a : Arena) (id : NodeId) : Option Entry :=
  (a.get? id).map fun r => ⟨id, r.kind, r.label, r.text⟩

/-- The nodes met from the root on one by one. -/
def entries (a : Arena) : List Entry :=
  a.preOrder.filterMap a.entryOf?

theorem filter_isLeaf {ns : List (Node NodeId)}
    (h : ∀ n ∈ ns, a.isLeaf n.id = !n.kind.isComposite) :
  (ns.map Node.id).filter a.isLeaf
    = ((ns.map Node.entry).filterMap Entry.leaf?).map Leaf.id
  := by
  induction ns with
  | nil => rfl
  | cons n ns ih =>
    rw [List.forall_mem_cons] at h
    rw [List.map_cons, List.filter_cons, ih h.2, h.1, List.map_cons, List.filterMap_cons,
      Entry.leaf?, Node.entry]
    cases n.kind.isComposite <;> rfl

namespace Represents

variable {t : Tree} {id : NodeId} (h : a.Represents t) (ht : t.Sound)

include h

theorem entryOf?_eq {n : Node NodeId} (hn : n ∈ t.attached.nodes) :
  a.entryOf? n.id = some n.entry
  := by
  obtain ⟨p, s, hr⟩ := h.laid.get?_node hn
  rw [entryOf?, hr]
  rfl

include ht

theorem entries_eq :
  a.entries = t.entries
  := by
  rw [entries, h.preOrder_eq ht, Tree.preOrder, ← Forest.map_id_nodes, Tree.entries,
    Forest.entries, List.filterMap_map, ← List.filterMap_eq_map]
  apply List.filterMap_congr
  intro n hn
  apply h.entryOf?_eq hn

/-- The leaves are the nodes whose kind holds no children. -/
theorem leaves_eq :
  a.leaves = (t.entries.filterMap Entry.leaf?).map Leaf.id
  := by
  rw [leaves, h.preOrder_eq ht, Tree.preOrder, ← Forest.map_id_nodes, Tree.entries, Forest.entries]
  apply filter_isLeaf
  intro n hn
  obtain ⟨p, s, hr⟩ := h.laid.get?_node hn
  rw [isLeaf_of_get? hr, Node.record]

theorem size_le {n : Node NodeId} (hn : n ∈ t.attached.nodes) :
  n.toForest.size ≤ a.size
  := by
  rw [h.size]
  apply Nat.le_trans (Forest.size_le_of_mem_nodes hn) ht.size_attached_le

/-- The nodes met from a node on are those inside it. -/
theorem inside_eq {n : Node NodeId} (hn : n ∈ t.attached.nodes) :
  a.inside n.id = n.toForest.ids
  := by
  obtain ⟨p, s, hlaid⟩ := h.laid.node hn
  rw [inside, ← walk_roots (h.size_le ht hn) hlaid.fits, Node.roots_toForest]

omit ht in
theorem place?_gap {fr : Frame} {frs : List Frame} {left rest : Forest NodeId}
    {ids : List NodeId} (hall : t.attached = .within (fr :: frs) (left ++ rest))
    (hid : rest.roots = id :: ids) :
  a.place? id = some (fr.id, left.roots.length)
  := by
  obtain ⟨⟨r, hr, hchildren⟩, hlaid⟩ := h.laid_gap hall
  rw [← childrenOf_of_get? hr] at hchildren
  apply place?_eq hlaid hchildren hid

/-- The text under a node. -/
theorem textOf_eq {n : Node NodeId} (hn : n ∈ t.attached.nodes) :
  a.textOf n.id = n.toForest.text
  := by
  obtain ⟨p, s, hlaid⟩ := h.laid.node hn
  rw [← textWithin_roots (h.size_le ht hn) hlaid (Forest.fault?_of_mem_nodes ht.valid hn),
    Node.roots_toForest, List.map_singleton, String.join_cons, String.join_nil, String.append_empty]
  rfl

theorem text_eq :
  a.text = t.text
  := by
  have hroot : .branch Tree.root t.rootKind t.rootLabel t.children ∈ t.attached.nodes :=
    List.mem_cons_self
  rw [text, h.root]
  apply h.textOf_eq ht hroot

/-! ### Offsets -/

omit ht in
/-- The root starts the document. -/
theorem offsetWithin_root (n : Nat) :
  a.offsetWithin n Tree.root = 0
  := by
  cases n with
  | zero => rfl
  | succ n =>
    have hplace : a.place? Tree.root = none := by
      simp [place?, h.prevSibling?_root.2]
    rw [offsetWithin, hplace]

/-- The text of the trees on the left of a node has the length of the first siblings. -/
theorem textLengthOfAll_left {fr : Frame} {frs : List Frame} {left rest : Forest NodeId}
    (hall : t.attached = .within (fr :: frs) (left ++ rest)) :
  a.textLengthOfAll ((a.childrenOf fr.id).take left.roots.length)
    = (Entry.spelled left.entries).utf8ByteSize
  := by
  obtain ⟨⟨r, hr, hchildren⟩, hlaid⟩ := h.laid_gap hall
  have hvalid := ht.valid
  have hsize := ht.size_attached_le
  rw [hall] at hvalid hsize
  have hfault := Forest.fault?_of_within hvalid
  have hle := Nat.le_trans Forest.size_le_within hsize
  rw [laid_append] at hlaid
  rw [Forest.fault?_append, Option.or_eq_none_iff] at hfault
  rw [Forest.size_append, ← h.size] at hle
  rw [childrenOf_of_get? hr, hchildren, Forest.roots_append, List.take_left,
    textLengthOfAll_roots (Nat.le_of_add_right_le hle) hlaid.1 hfault.1, Forest.spelled_entries]

/-- A node starts where the text on its left ends, which is counted on the way up. -/
theorem offsetWithin_gap {n : Nat} {fr : Frame} {frs : List Frame} {left rest : Forest NodeId}
    {ids : List NodeId} (hall : t.attached = .within (fr :: frs) (left ++ rest))
    (hid : rest.roots = id :: ids) (hn : frs.length < n) :
  a.offsetWithin n id
    = (Entry.spelled (Frame.entriesBefore (fr :: frs) ++ left.entries)).utf8ByteSize
  := by
  induction frs generalizing n fr left rest id ids with
  | nil =>
    obtain ⟨n, rfl⟩ := Nat.exists_eq_succ_of_ne_zero (Nat.ne_of_gt hn)
    obtain ⟨hbefore, hroot⟩ := Tree.eq_of_fill hall
    rw [offsetWithin, h.place?_gap hall hid]
    dsimp only
    have hopening : Entry.spelled (Frame.entriesBefore [fr]) = "" := by
      rw [Frame.entriesBefore, Entry.spelled_append, fr.spelled_opening, hbefore]
      rfl
    rw [h.textLengthOfAll_left ht hall, hroot, h.offsetWithin_root, Entry.spelled_append, hopening,
      String.empty_append, Nat.add_zero]
  | cons fr' frs ih =>
    obtain ⟨n, rfl⟩ := Nat.exists_eq_succ_of_ne_zero (Nat.ne_of_gt (Nat.zero_lt_of_lt hn))
    have hall' : t.attached = .within (fr' :: frs)
        (fr.before ++ .branch fr.id fr.kind fr.label (left ++ rest) fr.after) := hall
    rw [offsetWithin, h.place?_gap hall hid]
    dsimp only
    have hbefore : Frame.entriesBefore (fr :: fr' :: frs)
        = Frame.entriesBefore (fr' :: frs) ++ fr.opening := rfl
    rw [h.textLengthOfAll_left ht hall, ih hall' rfl (Nat.lt_of_succ_lt_succ hn), hbefore]
    simp only [Entry.spelled_append, fr.spelled_opening, String.utf8ByteSize_append]
    omega

theorem startOffset_eq (c : t.Focus id) :
  a.startOffset id = (Entry.spelled c.before).utf8ByteSize
  := by
  have hroots : (c.node.toForest ++ c.right).roots = id :: c.right.roots := by
    rw [Forest.roots_append, Node.roots_toForest, c.id_node]
    rfl
  have hdepth : c.frames.length < a.size := by
    have hsize := ht.size_attached_le
    have hle := @Forest.length_add_size_le_within (c.parent :: c.frames)
      (c.left ++ (c.node.toForest ++ c.right))
    rw [← c.attached_eq, List.length_cons] at hle
    rw [h.size]
    omega
  exact h.offsetWithin_gap ht c.attached_eq hroots hdepth

end Represents

end Arena

end Fettle
