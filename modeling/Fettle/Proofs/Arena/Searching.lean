import Fettle.Arena.Search
import Fettle.Proofs.Arena.Effect

/-!
# Leaves next to a node

On a table that stands for a sound tree every search for a leaf ends, after no more steps than there
are records.  A search on one side meets the leaves of the siblings on that side, then those beside
the parent, and so on: these are the leaves before or after the node, the nearest first
(`Represents.search_gap`, `Represents.search_focus`).  So the searches step through the leaves in
both directions, and find nothing from a node that is not attached (`Reachable.search_eq`).

Both sides are treated at once: `Side.join` puts a forest on a side of another one, and
`Side.induction` takes a forest apart into its trees in the order in which a search meets them.
-/

namespace Fettle

theorem Node.size_toForest {ι : Type} (n : Node ι) :
  n.toForest.size = n.children.size + 1
  := by
  cases n with
  | leaf i k x => rfl
  | branch i k l cs => simp [toForest, children, Forest.size]

/-! ### Sides -/

namespace Side

variable {α : Type} (side : Side)

/-- One of two things, by a side. -/
def pick (l r : α) : α :=
  match side with
  | left => l
  | right => r

/-- Two forests side by side, the first of which is on the given side of the second. -/
def join (f g : Forest NodeId) : Forest NodeId :=
  match side with
  | left => f ++ g
  | right => g ++ f

variable {f g h : Forest NodeId}

theorem join_assoc :
  side.join f (side.join g h) = side.join (side.join f g) h
  := by
  cases side with
  | left => exact (Forest.append_assoc f g h).symm
  | right => apply Forest.append_assoc

theorem size_join :
  (side.join f g).size = f.size + g.size
  := by
  cases side with
  | left => apply Forest.size_append
  | right =>
    rw [Nat.add_comm]
    apply Forest.size_append

theorem fault?_join :
  (side.join f g).fault? = none ↔ f.fault? = none ∧ g.fault? = none
  := by
  cases side with
  | left => rw [join, Forest.fault?_append, Option.or_eq_none_iff]
  | right => rw [join, Forest.fault?_append, Option.or_eq_none_iff, and_comm]

theorem mem_roots_join {id : NodeId} :
  id ∈ (side.join f g).roots ↔ id ∈ f.roots ∨ id ∈ g.roots
  := by
  cases side with
  | left => rw [join, Forest.roots_append, List.mem_append]
  | right => rw [join, Forest.roots_append, List.mem_append, or_comm]

/-- The nearer forest is met before the other one. -/
theorem order_roots_join :
  side.order (side.join f g).roots = side.order g.roots ++ side.order f.roots
  := by
  cases side with
  | left => rw [join, Forest.roots_append, order, List.reverse_append]; rfl
  | right => rw [join, Forest.roots_append]; rfl

theorem order_leaves_join :
  side.order (side.join f g).leaves = side.order g.leaves ++ side.order f.leaves
  := by
  cases side with
  | left => rw [join, Forest.leaves_append, order, List.reverse_append]; rfl
  | right => rw [join, Forest.leaves_append]; rfl

theorem order_singleton (x : α) :
  side.order [x] = [x]
  := by
  cases side <;> rfl

/-- A forest is empty or has a tree that is met first. -/
theorem eq_nil_or_join (f : Forest NodeId) :
  f = .nil ∨ ∃ (g : Forest NodeId) (n : Node NodeId), f = side.join g n.toForest
  := by
  cases side with
  | left => apply Forest.eq_nil_or_concat
  | right =>
    cases f with
    | nil => exact .inl rfl
    | leaf i k x rest => exact .inr ⟨rest, .leaf i k x, rfl⟩
    | branch i k l cs rest => exact .inr ⟨rest, .branch i k l cs, rfl⟩

/-- What holds of a forest if it holds of the children of the tree met first and of the trees met
later holds of all forests. -/
theorem induction {motive : Forest NodeId → Prop} (nil : motive .nil)
    (join : ∀ (f : Forest NodeId) (n : Node NodeId), motive f → motive n.children →
      motive (side.join f n.toForest)) (f : Forest NodeId) :
  motive f
  := by
  induction hsize : f.size using Nat.strongRecOn generalizing f with
  | ind size ih =>
    rcases side.eq_nil_or_join f with rfl | ⟨g, n, rfl⟩
    · exact nil
    · rw [size_join, n.size_toForest] at hsize
      apply join
      · exact ih g.size (by omega) g rfl
      · exact ih n.children.size (by omega) n.children rfl

/-- The leaves on a side of the gap in a list of frames, the innermost of which comes first, in the
order in which they are met. -/
def met : List Frame → List (Leaf NodeId)
  | [] => []
  | fr :: frs => side.order (side.pick fr.before fr.after).leaves ++ met frs

end Side

/-- The only frame around the content of a tree is the root, with nothing before or after it. -/
theorem Tree.eq_nil_of_fill {t : Tree} {fr : Frame} {f : Forest NodeId}
    (h : t.attached = fr.fill f) :
  fr.before = .nil ∧ fr.id = root ∧ fr.after = .nil
  := by
  obtain ⟨hbefore, hroot⟩ := eq_of_fill h
  rw [attached, Frame.fill, hbefore, Forest.nil_append] at h
  injection h with _ _ _ _ hafter
  exact ⟨hbefore, hroot, hafter.symm⟩

/-- A frame has its branch between what is on either side. -/
theorem Frame.fill_eq_join (fr : Frame) (f : Forest NodeId) (side : Side) :
  fr.fill f = side.join (side.pick fr.before fr.after)
    (side.join (Node.branch fr.id fr.kind fr.label f).toForest (side.pick fr.after fr.before))
  := by
  cases side with
  | left => rfl
  | right =>
    exact (Forest.append_assoc fr.before (.branch fr.id fr.kind fr.label f .nil) fr.after).symm

namespace Arena

variable {a : Arena} {p : Option NodeId} {s steps : Nat} {f g : Forest NodeId} (side : Side)

theorem Laid.of_join {side : Side} (h : a.Laid p s (side.join f g)) :
  (∃ s, a.Laid p s f) ∧ ∃ s, a.Laid p s g
  := by
  cases side with
  | left =>
    obtain ⟨hf, hg⟩ := laid_append.mp h
    exact ⟨⟨_, hf⟩, ⟨_, hg⟩⟩
  | right =>
    obtain ⟨hg, hf⟩ := laid_append.mp h
    exact ⟨⟨_, hf⟩, ⟨_, hg⟩⟩

/-! ### Inside a node -/

/-- The leaf of a tree that is met first is that of its children. -/
theorem nearest_of_children {n : Node NodeId} (h : a.Laid p s n.toForest)
    (hn : n.toForest.fault? = none)
    (hchildren : (side.order n.children.roots).findSomeM? (a.nearest side steps)
      = some ((side.order n.children.leaves).head?.map Leaf.id)) :
  a.nearest side (steps + 1) n.id = some ((side.order n.toForest.leaves).head?.map Leaf.id)
  := by
  rw [nearest]
  cases n with
  | leaf i k x =>
    rw [Node.toForest, Forest.fault?, Option.or_eq_none_iff] at hn
    have hk := (leafFault?_eq_none_iff.mp hn.1).1
    have hleaf : a.isLeaf i = true := by
      rw [isLeaf_of_get? h.1]
      simp [Node.record, Node.kind, hk]
    rw [Node.id, if_pos hleaf, Node.toForest, Forest.leaves, Forest.leaves, side.order_singleton]
    rfl
  | branch i k l cs =>
    rw [Node.toForest, Forest.fault?, Option.or_eq_none_iff, branchFault?_eq_none_iff] at hn
    have hleaf : ¬ a.isLeaf i = true := by
      rw [isLeaf_of_get? h.1]
      simp [Node.record, Node.kind, hn.1]
    rw [Node.id, if_neg hleaf, childrenOf_of_get? h.1, Node.toForest, Forest.leaves, Forest.leaves,
      List.append_nil]
    exact hchildren

/-- The first leaf met in the trees of a forest. -/
theorem nearest_order (h : a.Laid p s f) (hf : f.fault? = none) (hsteps : f.size ≤ steps) :
  (side.order f.roots).findSomeM? (a.nearest side steps)
    = some ((side.order f.leaves).head?.map Leaf.id)
  := by
  induction f using side.induction generalizing p s steps with
  | nil => cases side <;> rfl
  | join f n ih ihn =>
    rw [side.size_join, n.size_toForest] at hsteps
    obtain ⟨k, rfl⟩ := Nat.exists_eq_succ_of_ne_zero (n := steps) (by omega)
    obtain ⟨⟨_, hlaid⟩, ⟨_, hnlaid⟩⟩ := h.of_join
    obtain ⟨hfault, hnfault⟩ := side.fault?_join.mp hf
    have hself : n ∈ n.toForest.nodes := by cases n <;> exact List.mem_cons_self
    have hchildren : n.children.fault? = none := by
      cases n with
      | leaf i k x => rfl
      | branch i k l cs =>
        rw [Node.toForest, Forest.fault?, Option.or_eq_none_iff, Option.or_eq_none_iff] at hnfault
        exact hnfault.2.1
    have hn := nearest_of_children side hnlaid hnfault
      (ihn (hnlaid.children hself) hchildren (by omega : n.children.size ≤ k))
    rw [side.order_roots_join, side.order_leaves_join, Node.roots_toForest, side.order_singleton,
      List.singleton_append, List.findSomeM?_cons, hn, List.head?_append, Option.bind_eq_bind,
      Option.bind_some]
    cases (side.order n.toForest.leaves).head? with
    | none => exact ih hlaid hfault (by omega)
    | some l => rfl

/-- The leaf inside a node that is met first. -/
theorem nearest_eq {n : Node NodeId} (h : a.Laid p s n.toForest) (hn : n.toForest.fault? = none)
    (hsteps : n.toForest.size ≤ steps) :
  a.nearest side steps n.id = some ((side.order n.toForest.leaves).head?.map Leaf.id)
  := by
  rw [← nearest_order side h hn hsteps, Node.roots_toForest, side.order_singleton,
    List.findSomeM?_cons]
  cases a.nearest side steps n.id with
  | none => rfl
  | some o => cases o <;> rfl

/-! ### Beside a node -/

/-- A node that is not attached has no parent. -/
theorem parent?_of_not_attached {id : NodeId} (hid : a.isAttached id = false) :
  a.parent? id = none
  := by
  rw [isAttached] at hid
  rw [parent?]
  cases hr : a.get? id with
  | none => rfl
  | some r =>
    rw [hr, Option.any_some] at hid
    rw [Option.filter_some, if_neg (by simp [hid])]
    rfl

section

variable {id : NodeId} (hparent : a.parent? id = none)

include hparent

/-- Nothing is beside a node without a parent. -/
theorem search_of_parent?_eq_none (steps : Nat) :
  a.search side (steps + 1) id = some none
  := by
  have hplace : a.place? id = none := by
    rw [place?, hparent]
    rfl
  have hsibling : a.sibling? side id = none := by
    cases side with
    | left => rw [sibling?, prevSibling?, hplace]; rfl
    | right => rw [sibling?, nextSibling?, hplace]; rfl
  rw [search, hsibling, searchFrom, hparent]

theorem prevLeaf?_of_parent?_eq_none :
  a.prevLeaf? id = none
  := by
  have hsibling : a.prevSibling? id = none := by
    rw [prevSibling?, place?, hparent]
    rfl
  rw [prevLeaf?, hsibling]
  cases a.size with
  | zero => rfl
  | succ n => rw [leafLeftOf?, hparent]

end

namespace Represents

variable {t : Tree} {id : NodeId} {fr : Frame} {frs : List Frame} {beside rest : Forest NodeId}
  {n : Node NodeId} (h : a.Represents t)

include h

/-- The node next to a tree on a side is the first tree met there. -/
theorem sibling?_gap
    (hall : t.attached = .within (fr :: frs) (side.join beside (side.join n.toForest rest))) :
  a.sibling? side n.id = (side.order beside.roots).head?
  := by
  cases side with
  | left =>
    have hroots : (n.toForest ++ rest).roots = n.id :: rest.roots := by
      rw [Forest.roots_append, Node.roots_toForest]
      rfl
    rw [sibling?, h.prevSibling?_gap hall hroots]
    exact (List.head?_reverse).symm
  | right =>
    have hroots : (n.toForest ++ beside).roots = n.id :: beside.roots := by
      rw [Forest.roots_append, Node.roots_toForest]
      rfl
    have hall' : t.attached = .within (fr :: frs) (rest ++ (n.toForest ++ beside)) := by
      rw [← Forest.append_assoc]
      exact hall
    obtain ⟨⟨r, hr, hchildren⟩, -⟩ := h.laid_gap hall'
    rw [← childrenOf_of_get? hr] at hchildren
    have hnext : a.nextSibling? n.id = (a.childrenOf fr.id)[rest.roots.length + 1]? := by
      rw [nextSibling?, h.place?_gap hall' hroots]
      rfl
    rw [sibling?, hnext, hchildren, Forest.roots_append, hroots,
      List.getElem?_append_right (Nat.le_add_right _ 1), Nat.add_sub_cancel_left,
      List.getElem?_cons_succ, Side.order, List.head?_eq_getElem?]

/-- If no sibling is left, the search goes on from the parent. -/
theorem searchFrom_none (hall : t.attached = .within (fr :: frs) rest) (hid : id ∈ rest.roots) :
  a.searchFrom side (steps + 1) id none = a.search side steps fr.id
  := by
  rw [searchFrom, h.parent?_gap hall hid]
  rfl

variable (ht : t.Sound)

include ht

/-- The siblings on a side are searched one after the other. -/
theorem searchFrom_siblings (hall : t.attached = .within (fr :: frs) (side.join beside rest))
    (hid : id ∈ rest.roots) {o : Option NodeId} {bound : Nat}
    (ho : ∀ steps, bound < steps → a.searchFrom side steps id none = some o)
    (hsteps : bound + beside.size < steps) :
  a.searchFrom side steps id (side.order beside.roots).head?
    = some (((side.order beside.leaves).head?.map Leaf.id).or o)
  := by
  induction beside using side.induction generalizing rest steps with
  | nil =>
    have hnil : side.order (Forest.nil : Forest NodeId).roots = []
        ∧ side.order (Forest.nil : Forest NodeId).leaves = [] := by
      cases side <;> exact ⟨rfl, rfl⟩
    rw [hnil.1, hnil.2]
    exact ho steps hsteps
  | join f n ih _ =>
    rw [← side.join_assoc] at hall
    rw [side.size_join] at hsteps
    have hpos := n.size_toForest
    obtain ⟨k, rfl⟩ := Nat.exists_eq_succ_of_ne_zero (n := steps) (by omega)
    obtain ⟨-, hgap⟩ := h.laid_gap hall
    have hvalid := ht.valid
    rw [hall] at hvalid
    have hfault := side.fault?_join.mp (Forest.fault?_of_within hvalid)
    obtain ⟨-, _, hrest⟩ := hgap.of_join
    obtain ⟨⟨_, hlaid⟩, -⟩ := hrest.of_join
    have hn := nearest_eq side hlaid (side.fault?_join.mp hfault.2).1
      (by omega : n.toForest.size ≤ k)
    have hmore := ih hall (side.mem_roots_join.mpr (.inr hid)) (by omega : bound + f.size < k)
    rw [← h.sibling?_gap side hall] at hmore
    rw [side.order_roots_join, side.order_leaves_join, Node.roots_toForest, side.order_singleton,
      List.head?_append, List.head?_append, List.head?_cons, Option.some_or, searchFrom, hn,
      Option.bind_eq_bind, Option.bind_some]
    cases (side.order n.toForest.leaves).head? with
    | none => exact hmore
    | some l => rfl

/-- What is not found among the siblings is searched for from the parent on. -/
theorem search_of_parent
    (hall : t.attached = .within (fr :: frs) (side.join beside (side.join n.toForest rest)))
    {o : Option NodeId} {bound : Nat}
    (ho : ∀ steps, bound < steps → a.search side steps fr.id = some o)
    (hsteps : bound + 1 + beside.size < steps) :
  a.search side steps n.id = some (((side.order beside.leaves).head?.map Leaf.id).or o)
  := by
  have hn : n.id ∈ (side.join n.toForest rest).roots := by
    rw [side.mem_roots_join, Node.roots_toForest]
    exact .inl List.mem_cons_self
  have hup : ∀ steps, bound + 1 < steps → a.searchFrom side steps n.id none = some o := by
    intro steps hlt
    obtain ⟨k, rfl⟩ := Nat.exists_eq_succ_of_ne_zero (n := steps) (by omega)
    rw [h.searchFrom_none side hall (side.mem_roots_join.mpr (.inr hn))]
    exact ho k (by omega)
  rw [search, h.sibling?_gap side hall]
  apply h.searchFrom_siblings side ht hall hn hup hsteps

/-- A search meets the leaves of the siblings on a side, and then those beside the branches around
them.  Every step passes one of their nodes. -/
theorem search_gap
    (hall : t.attached = .within (fr :: frs) (side.join beside (side.join n.toForest rest)))
    (hsteps : (Forest.within (fr :: frs) beside).size < steps) :
  a.search side steps n.id
    = some ((side.order beside.leaves ++ side.met (fr :: frs)).head?.map Leaf.id)
  := by
  -- the branch of the innermost frame is itself beside a gap, in the frames around it
  induction frs generalizing fr beside rest n steps with
  | nil =>
    obtain ⟨hbefore, hroot, hafter⟩ := Tree.eq_nil_of_fill hall
    have hmet : side.met [fr] = [] := by
      rw [Side.met, hbefore, hafter]
      cases side <;> rfl
    have hup : ∀ steps, 0 < steps → a.search side steps fr.id = some none := by
      intro steps hpos
      obtain ⟨k, rfl⟩ := Nat.exists_eq_succ_of_ne_zero (Nat.ne_of_gt hpos)
      rw [hroot]
      apply search_of_parent?_eq_none side h.prevSibling?_root.2
    have hsize : (Forest.within [fr] beside).size
        = fr.before.size + (beside.size + fr.after.size + 1) := Forest.size_fill
    rw [h.search_of_parent side ht hall hup (by omega), hmet, List.append_nil, Option.or_none]
  | cons fr' frs ih =>
    have hall' := hall
    rw [Forest.within, fr.fill_eq_join _ side] at hall'
    have hsize : (Forest.within (fr' :: frs) (fr.fill beside)).size
          + (side.pick fr.before fr.after).size
        = (Forest.within (fr' :: frs) (side.pick fr.before fr.after)).size
          + (fr.fill beside).size := Forest.size_within_add
    have hfill : (side.pick fr.before fr.after).size + beside.size + 1 ≤ (fr.fill beside).size := by
      rw [Forest.size_fill]
      cases side with
      | left =>
        rw [Side.pick]
        omega
      | right =>
        rw [Side.pick]
        omega
    rw [Forest.within] at hsteps
    rw [h.search_of_parent side ht hall (fun _ hlt => ih hall' hlt) (by omega), ← Side.met.eq_2,
      ← Option.map_or, ← List.head?_append]

end Represents

end Arena

/-! ### Before and after a node -/

/-- The leaves met on a side of a gap are those among the entries there. -/
theorem Side.met_eq (side : Side) {frs : List Frame} {f : Forest NodeId}
    (h : (Forest.within frs f).fault? = none) :
  side.met frs
    = (side.order (side.pick (Frame.entriesBefore frs) (Frame.entriesAfter frs))).filterMap
        Entry.leaf?
  := by
  induction frs generalizing f with
  | nil => cases side <;> rfl
  | cons fr frs ih =>
    rw [Forest.within] at h
    have hfill := Forest.fault?_of_within h
    rw [Frame.fill, Forest.fault?_append, Option.or_eq_none_iff, Forest.fault?,
      Option.or_eq_none_iff, Option.or_eq_none_iff, branchFault?_eq_none_iff] at hfill
    obtain ⟨hbefore, hk, -, hafter⟩ := hfill
    rw [met, ih h]
    cases side with
    | left =>
      simp [pick, order, Frame.entriesBefore, Frame.opening, Entry.leaf?, hk,
        ← Forest.leaves_of_entries hbefore]
    | right =>
      simp [pick, order, Frame.entriesAfter, ← Forest.leaves_of_entries hafter]

/-- A node of a leaf kind is its only leaf. -/
theorem Node.leaves_of_leafKind {n : Node NodeId} (hn : n.fault? = none)
    (hk : n.kind.isComposite = false) :
  n.toForest.leaves.map Leaf.id = [n.id]
  := by
  cases n with
  | leaf i k x => rfl
  | branch i k l cs =>
    rw [Node.fault?, Node.toForest, Forest.fault?, Option.or_eq_none_iff,
      branchFault?_eq_none_iff] at hn
    rw [Node.kind, hn.1] at hk
    cases hk

namespace Arena

variable {a : Arena} {steps : Nat} (side : Side)

namespace Represents

variable {t : Tree} {id : NodeId} (h : a.Represents t) (ht : t.Sound) (hsteps : a.size ≤ steps)

include h ht hsteps

/-- A search finds the nearest leaf among the entries before or after a node. -/
theorem search_focus (c : t.Focus id) :
  a.search side steps id = some
    (((side.order (side.pick c.before c.after)).filterMap Entry.leaf?).head?.map Leaf.id)
  := by
  have hvalid := ht.valid
  rw [c.attached_eq] at hvalid
  have hgap := Forest.fault?_of_within hvalid
  rw [Forest.fault?_append, Option.or_eq_none_iff, Forest.fault?_append,
    Option.or_eq_none_iff] at hgap
  have hall : t.attached = .within (c.parent :: c.frames) (side.join (side.pick c.left c.right)
      (side.join c.node.toForest (side.pick c.right c.left))) := by
    rw [c.attached_eq]
    cases side with
    | left => rfl
    | right => exact congrArg _ (Forest.append_assoc _ _ _).symm
  have hsize := @Forest.size_within_add (c.parent :: c.frames) (side.pick c.left c.right)
    (side.join (side.pick c.left c.right) (side.join c.node.toForest (side.pick c.right c.left)))
  rw [← hall, side.size_join, side.size_join, c.node.size_toForest] at hsize
  have hle := ht.size_attached_le
  rw [← h.size] at hle
  have hsearch := h.search_gap side ht hall (by omega : _ < steps)
  rw [c.id_node] at hsearch
  rw [hsearch, side.met_eq hvalid]
  cases side with
  | left =>
    simp [Side.pick, Side.order, Tree.Focus.before, ← Forest.leaves_of_entries hgap.1]
  | right =>
    simp [Side.pick, Side.order, Tree.Focus.after, ← Forest.leaves_of_entries hgap.2.2]

omit ht in
/-- A search is given a step at least, as there is a root. -/
theorem exists_steps :
  ∃ more, steps = more + 1
  := by
  have hpos := Nat.zero_lt_of_lt (lt_size_of_get? h.laid.1)
  exact Nat.exists_eq_succ_of_ne_zero (Nat.ne_of_gt (Nat.lt_of_lt_of_le hpos hsteps))

omit ht in
theorem search_eq_none (hparent : a.parent? id = none) :
  a.search side steps id = some none
  := by
  obtain ⟨more, rfl⟩ := h.exists_steps hsteps
  apply search_of_parent?_eq_none side hparent

/-- Every attached node has its place, and a search finds the nearest leaf before or after it. -/
theorem exists_search (hid : id ∈ t.attached.ids) :
  ∃ before inside after, a.Around id before inside after ∧ ∀ side, a.search side steps id = some
    (((Side.order side (side.pick before after)).filterMap Entry.leaf?).head?.map Leaf.id)
  := by
  rw [Tree.ids_attached, List.mem_cons] at hid
  rcases hid with rfl | hid
  · use [], t.entries, [], h.around_root ht
    intro side
    rw [h.search_eq_none side hsteps h.prevSibling?_root.2]
    cases side <;> rfl
  · obtain ⟨c⟩ := Tree.exists_focus hid
    use c.before, c.node.toForest.entries, c.after, h.around ht c
    intro side
    apply h.search_focus side ht hsteps c

omit hsteps in
/-- A node has no parent, or it is inside the root. -/
theorem parent?_or_mem (id : NodeId) :
  a.parent? id = none ∨ id ∈ t.children.ids
  := by
  cases hatt : a.isAttached id with
  | false => exact .inl (parent?_of_not_attached hatt)
  | true =>
    rw [h.isAttached_iff ht, Tree.ids_attached, List.mem_cons] at hatt
    rcases hatt with rfl | hid
    · exact .inl h.prevSibling?_root.2
    · exact .inr hid

/-- A search to the left finds the leaf before a node. -/
theorem search_left_eq (id : NodeId) :
  a.search .left steps id = some (a.prevLeaf? id)
  := by
  rcases h.parent?_or_mem ht id with hparent | hid
  · rw [h.search_eq_none .left hsteps hparent, prevLeaf?_of_parent?_eq_none hparent]
  · obtain ⟨c⟩ := Tree.exists_focus hid
    rw [h.search_focus .left ht hsteps c, h.prevLeaf?_eq ht hid, Tree.prevLeaf?,
      ← c.leaves_of_before ht, Side.pick, Side.order, List.filterMap_reverse, List.head?_reverse]

/-- A search to the right finds the leaf after a node. -/
theorem search_right_eq (id : NodeId) :
  a.search .right steps id = some (a.nextLeaf? id)
  := by
  have hleast : a.size ≤ a.size := Nat.le_refl _
  rw [nextLeaf?]
  rcases h.parent?_or_mem ht id with hparent | hid
  · rw [h.search_eq_none .right hsteps hparent, h.search_eq_none .right hleast hparent]
    rfl
  · obtain ⟨c⟩ := Tree.exists_focus hid
    rw [h.search_focus .right ht hsteps c, h.search_focus .right ht hleast c]
    rfl

omit hsteps in
/-- The leaves are those before a leaf, the leaf itself and those after. -/
theorem exists_focus_leaf (hleaf : id ∈ a.leaves) :
  ∃ c : t.Focus id, a.leaves = (c.before.filterMap Entry.leaf?).map Leaf.id
    ++ id :: (c.after.filterMap Entry.leaf?).map Leaf.id
  := by
  rw [leaves, List.mem_filter, h.preOrder_eq ht, Tree.preOrder, Tree.ids_attached,
    List.mem_cons] at hleaf
  obtain ⟨hid, hkind⟩ := hleaf
  rcases hid with rfl | hid
  · have hvalid := ht.valid
    rw [Tree.attached, Forest.fault?, Option.or_eq_none_iff, branchFault?_eq_none_iff] at hvalid
    rw [isLeaf_of_get? h.laid.1] at hkind
    simp [Node.record, Node.kind, hvalid.1] at hkind
  · obtain ⟨c⟩ := Tree.exists_focus hid
    obtain ⟨_, _, hr⟩ := h.laid.get?_node c.node_mem
    have hvalid := Forest.fault?_of_mem_nodes ht.valid c.node_mem
    rw [← c.id_node, isLeaf_of_get? hr, Node.record, Bool.not_eq_true'] at hkind
    have hself := Node.leaves_of_leafKind hvalid hkind
    rw [c.id_node] at hself
    use c
    rw [h.leaves_eq ht, c.entries_eq, List.filterMap_append, List.filterMap_append,
      Forest.leaves_of_entries hvalid, List.map_append, List.map_append, hself]
    rfl

/-- Among the leaves, those next to a leaf are found. -/
theorem search_of_leaves {as bs : List NodeId} (hleaves : a.leaves = as ++ id :: bs) :
  a.search .left steps id = some as.getLast? ∧ a.search .right steps id = some bs.head?
  := by
  have hmem : id ∈ a.leaves := by simp [hleaves]
  obtain ⟨c, hc⟩ := h.exists_focus_leaf ht hmem
  have hd : a.leaves.Nodup := by
    rw [leaves, h.preOrder_eq ht]
    apply ht.nodup_attached.filter
  have hsplit := hleaves.symm.trans hc
  rw [hleaves, List.nodup_append, List.nodup_cons] at hd
  have has : id ∉ as := by
    intro hm
    exact hd.2.2 id hm id List.mem_cons_self rfl
  obtain ⟨rfl, -, rfl⟩ := (List.append_cons_inj_of_notMem has hd.2.1.1).mp hsplit
  rw [h.search_focus .left ht hsteps c, h.search_focus .right ht hsteps c, Side.pick, Side.order,
    Side.pick, Side.order, List.filterMap_reverse, List.head?_reverse, List.getLast?_map,
    List.head?_map]
  exact ⟨rfl, rfl⟩

end Represents

/-- On every arena that can be reached the searches end, after no more steps than there are records.
They find the last leaf before a node and the first one after everything inside it; from a leaf they
find its neighbours among the leaves, and from a node that is not attached nothing. -/
theorem Reachable.search_eq (h : a.Reachable) (hsteps : a.size ≤ steps) (n : NodeId) :
  (a.isAttached n = true → ∃ before inside after, a.Around n before inside after
    ∧ a.search .left steps n = some ((before.filterMap Entry.leaf?).getLast?.map Leaf.id)
    ∧ a.search .right steps n = some ((after.filterMap Entry.leaf?).head?.map Leaf.id))
  ∧ (∀ as bs, a.leaves = as ++ n :: bs →
    a.search .left steps n = some as.getLast? ∧ a.search .right steps n = some bs.head?)
  ∧ (a.isAttached n = false → ∀ side, a.search side steps n = some none)
  ∧ a.search .left steps n = some (a.prevLeaf? n)
  ∧ a.search .right steps n = some (a.nextLeaf? n)
  := by
  obtain ⟨t, ht, hsound⟩ := h.exists_represents
  refine ⟨?_, ?_, ?_, ?_, ?_⟩
  · intro hatt
    have hid := (ht.isAttached_iff hsound).mp hatt
    obtain ⟨before, inside, after, haround, hsearch⟩ := ht.exists_search hsound hsteps hid
    have hleft := hsearch .left
    rw [Side.pick, Side.order, List.filterMap_reverse, List.head?_reverse] at hleft
    exact ⟨before, inside, after, haround, hleft, hsearch .right⟩
  · intro as bs
    apply ht.search_of_leaves hsound hsteps
  · intro hatt side
    apply ht.search_eq_none side hsteps (parent?_of_not_attached hatt)
  · apply ht.search_left_eq hsound hsteps
  · apply ht.search_right_eq hsound hsteps

/-- A branch is emptied by an edit, and the searches pass over the empty branches. -/
theorem search_eq_of_emptied :
  let es : List Event := [.start .file none, .token .identifier "a", .start .element none,
    .token .identifier "b", .finish, .start .block none, .finish, .start .element none,
    .token .identifier "c", .finish, .finish]
  ∃ a b, ofEvents es = .ok a ∧ a.edit (.remove 3) = .ok (none, b) ∧ b.leaves = [1, 6]
    ∧ b.search .right b.size 1 = some (some 6) ∧ b.search .left b.size 6 = some (some 1)
    ∧ (b.prevLeaf? 4 = some 1 ∧ b.search .left b.size 4 = some (b.prevLeaf? 4))
    ∧ ∀ side, b.search side b.size 3 = some none
  := by
  intro es
  have hreach {a b : Arena} (ha : ofEvents es = .ok a) (hb : a.edit (.remove 3) = .ok (none, b)) :
      b.Reachable := .edited (.built ha) hb
  refine ⟨_, _, rfl, rfl, by decide, ?_, ?_, ⟨by decide, ?_⟩, ?_⟩
  · exact ((Reachable.search_eq (hreach rfl rfl) (Nat.le_refl _) 1).2.1 [] [6] (by decide)).2
  · exact ((Reachable.search_eq (hreach rfl rfl) (Nat.le_refl _) 6).2.1 [1] [] (by decide)).1
  · exact (Reachable.search_eq (hreach rfl rfl) (Nat.le_refl _) 4).2.2.2.1
  · exact (Reachable.search_eq (hreach rfl rfl) (Nat.le_refl _) 3).2.2.1 (by decide)

end Arena

end Fettle
