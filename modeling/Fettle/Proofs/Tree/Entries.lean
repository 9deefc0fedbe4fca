import Fettle.Proofs.Tree.Frame
import Fettle.Proofs.Tree.Intact

/-!
# The nodes of a tree one by one

The `Entry` of a node is what the node is by itself: its number, kind, construct and text.  The
entries of a tree in pre-order say where every node stands among the others, which leaves there
are and what the document is.

The entries are those before a node, those of the node and of what is inside it, and those after
(`Tree.Focus.entries_eq`).  Putting something else in the place of the node changes the middle
part and nothing else (`Tree.Focus.entries_splice`), and the leaves before a node are those among
the entries before it (`Tree.Sound.leavesBefore_eq`).
-/

namespace Fettle

/-- What a node is by itself. -/
structure Entry where
  id : NodeId
  kind : Kind
  label : Option String
  text : String
  deriving DecidableEq, Repr

/-- What a node of a tree is by itself; a branch has no text. -/
def Node.entry (n : Node NodeId) : Entry :=
  ⟨n.id, n.kind, n.label, n.leafText?.getD ""⟩

namespace Entry

/-- The leaf that an entry stands for, if its kind holds no children. -/
def leaf? (e : Entry) : Option (Leaf NodeId) :=
  if e.kind.isComposite then none else some ⟨e.id, e.kind, e.text⟩

/-- The text of some entries. -/
def spelled : List Entry → String
  | [] => ""
  | e :: es => e.text ++ spelled es

@[simp]
theorem spelled_append (es fs : List Entry) :
  spelled (es ++ fs) = spelled es ++ spelled fs
  := by
  induction es with
  | nil => rw [List.nil_append, spelled, String.empty_append]
  | cons e es ih => rw [List.cons_append, spelled, spelled, ih, String.append_assoc]

/-- Entries that are listed once are cut at a number in one way. -/
theorem split_unique {as bs as' bs' : List Entry} {x y : Entry}
    (hd : ((as ++ x :: bs).map id).Nodup) (hxy : x.id = y.id)
    (h : as ++ x :: bs = as' ++ y :: bs') :
  as = as' ∧ bs = bs'
  := by
  have hids : as.map id ++ x.id :: bs.map id = as'.map id ++ y.id :: bs'.map id := by
    simpa using congrArg (List.map id) h
  rw [List.map_append, List.map_cons, List.nodup_append, List.nodup_cons] at hd
  have hbefore : as.map id = as'.map id := by
    refine ((List.append_cons_inj_of_notMem ?_ ?_).mp hids).1
    · rw [← hxy]
      intro hm
      exact hd.2.2 _ hm _ List.mem_cons_self rfl
    · rw [← hxy]
      exact hd.2.1.1
  have hlength : as.length = as'.length := by
    simpa using congrArg List.length hbefore
  obtain ⟨has, hrest⟩ := List.append_inj h hlength
  exact ⟨has, (List.cons.inj hrest).2⟩

end Entry

namespace Forest

/-- The nodes of a forest one by one. -/
def entries (f : Forest NodeId) : List Entry :=
  f.nodes.map Node.entry

variable {f g : Forest NodeId}

@[simp]
theorem entries_append :
  (f ++ g).entries = f.entries ++ g.entries
  := by
  rw [entries, nodes_append, List.map_append]
  rfl

theorem entries_leaf (i : NodeId) (k : Kind) (s : String) (rest : Forest NodeId) :
  (leaf i k s rest).entries = ⟨i, k, none, s⟩ :: rest.entries
  := rfl

theorem entries_branch (i : NodeId) (k : Kind) (l : Option String) (cs rest : Forest NodeId) :
  (branch i k l cs rest).entries = ⟨i, k, l, ""⟩ :: (cs.entries ++ rest.entries)
  := by
  rw [entries, nodes, List.map_cons, List.map_append]
  rfl

theorem entries_toForest (n : Node NodeId) :
  n.toForest.entries = n.entry :: n.children.entries
  := by
  cases n with
  | leaf i k s => rfl
  | branch i k l cs =>
    have hnil : (nil : Forest NodeId).entries = [] := rfl
    rw [Node.toForest, entries_branch, hnil, List.append_nil]
    rfl

theorem map_id_entries (f : Forest NodeId) :
  f.entries.map Entry.id = f.ids
  := by
  rw [entries, List.map_map, ← map_id_nodes]
  rfl

theorem spelled_entries (f : Forest NodeId) :
  Entry.spelled f.entries = f.text
  := by
  induction f with
  | nil => rfl
  | leaf i k s rest ih => rw [entries_leaf, Entry.spelled, ih, text]
  | branch i k l cs rest ihc ih =>
    rw [entries_branch, Entry.spelled, Entry.spelled_append, ihc, ih, text, String.empty_append]

/-- The leaves of a forest are those of its nodes whose kind holds no children. -/
theorem leaves_of_entries (hf : f.fault? = none) :
  f.entries.filterMap Entry.leaf? = f.leaves
  := by
  induction f with
  | nil => rfl
  | leaf i k s rest ih =>
    rw [fault?, Option.or_eq_none_iff] at hf
    have hk := (leafFault?_eq_none_iff.mp hf.1).1
    rw [entries_leaf, List.filterMap_cons, ih hf.2]
    simp [Entry.leaf?, hk, leaves]
  | branch i k l cs rest ihc ih =>
    rw [fault?, Option.or_eq_none_iff, Option.or_eq_none_iff, branchFault?_eq_none_iff] at hf
    rw [entries_branch, List.filterMap_cons, List.filterMap_append, ihc hf.2.1, ih hf.2.2]
    simp [Entry.leaf?, hf.1, leaves]

end Forest

/-! ### Entries around a gap -/

namespace Frame

/-- The entries of the branch of a frame and of what stands before it. -/
def opening (fr : Frame) : List Entry :=
  fr.before.entries ++ [⟨fr.id, fr.kind, fr.label, ""⟩]

/-- The entries before the gap in a list of frames. -/
def entriesBefore : List Frame → List Entry
  | [] => []
  | fr :: frs => entriesBefore frs ++ fr.opening

/-- The entries after the gap in a list of frames. -/
def entriesAfter : List Frame → List Entry
  | [] => []
  | fr :: frs => fr.after.entries ++ entriesAfter frs

theorem spelled_opening (fr : Frame) :
  Entry.spelled fr.opening = Entry.spelled fr.before.entries
  := by
  rw [opening, Entry.spelled_append, Entry.spelled, Entry.spelled, String.append_empty,
    String.append_empty]

theorem entries_fill (fr : Frame) (f : Forest NodeId) :
  (fr.fill f).entries = fr.opening ++ (f.entries ++ fr.after.entries)
  := by
  rw [Frame.fill, Forest.entries_append, Forest.entries_branch, opening, List.append_assoc]
  rfl

theorem entries_within (frs : List Frame) (f : Forest NodeId) :
  (Forest.within frs f).entries = entriesBefore frs ++ (f.entries ++ entriesAfter frs)
  := by
  induction frs generalizing f with
  | nil => rw [Forest.within, entriesBefore, entriesAfter, List.append_nil, List.nil_append]
  | cons fr frs ih =>
    rw [Forest.within, ih, entries_fill, entriesBefore, entriesAfter]
    simp only [List.append_assoc]

/-- The nodes of a forest are nodes of what is around it. -/
theorem mem_nodes_within {frs : List Frame} {f : Forest NodeId} {n : Node NodeId}
    (hn : n ∈ f.nodes) :
  n ∈ (Forest.within frs f).nodes
  := by
  induction frs generalizing f with
  | nil => exact hn
  | cons fr frs ih =>
    apply ih
    rw [Frame.fill, Forest.nodes_append, Forest.nodes, List.mem_append, List.mem_cons,
      List.mem_append]
    exact .inr (.inr (.inl hn))

/-- The leaves on the left of a gap are those among the entries before it. -/
theorem leaves_of_entriesBefore {frs : List Frame} {f : Forest NodeId}
    (h : (Forest.within frs f).fault? = none) :
  (entriesBefore frs).filterMap Entry.leaf? = leavesBefore frs
  := by
  induction frs generalizing f with
  | nil => rfl
  | cons fr frs ih =>
    rw [Forest.within] at h
    have hfill := Forest.fault?_of_within h
    rw [Frame.fill, Forest.fault?_append, Option.or_eq_none_iff, Forest.fault?,
      Option.or_eq_none_iff, branchFault?_eq_none_iff] at hfill
    obtain ⟨hbefore, hk, -⟩ := hfill
    rw [entriesBefore, List.filterMap_append, ih h, opening, List.filterMap_append,
      Forest.leaves_of_entries hbefore, leavesBefore]
    simp [Entry.leaf?, hk]

end Frame

/-! ### Entries of a tree -/

namespace Tree

/-- The attached nodes one by one, in pre-order. -/
def entries (t : Tree) : List Entry :=
  t.attached.entries

namespace Focus

variable {t : Tree} {id : NodeId} (c : t.Focus id)

/-- The entries before a node. -/
def before : List Entry :=
  Frame.entriesBefore (c.parent :: c.frames) ++ c.left.entries

/-- The entries after a node and what is inside it. -/
def after : List Entry :=
  c.right.entries ++ Frame.entriesAfter (c.parent :: c.frames)

/-- The nodes are those before a node, the node with what is inside it, and those after. -/
theorem entries_eq :
  t.entries = c.before ++ (c.node.toForest.entries ++ c.after)
  := by
  rw [entries, c.attached_eq, Frame.entries_within, before, after]
  simp only [Forest.entries_append, List.append_assoc]

theorem node_mem :
  c.node ∈ t.attached.nodes
  := by
  rw [c.attached_eq]
  apply Frame.mem_nodes_within
  rw [Forest.nodes_append, Forest.nodes_append, List.mem_append, List.mem_append]
  right
  left
  cases c.node <;> exact List.mem_cons_self

/-- What is put in the place of a node changes the middle part. -/
theorem entries_splice (h : t.Sound) (hid : id ∈ t.children.ids)
    (f : Forest NodeId → Forest NodeId) (removed : Forest NodeId) (size : Nat) :
  (Tree.mk t.rootKind t.rootLabel (t.children.splice id f) removed size).entries
    = c.before ++ ((f c.node.toForest).entries ++ c.after)
  := by
  rw [entries, attached, c.attached_splice h hid, Frame.entries_within, before, after]
  simp only [Forest.entries_append, List.append_assoc]

theorem leaves_of_before (h : t.Sound) :
  c.before.filterMap Entry.leaf? = t.leavesBefore id
  := by
  have hvalid := h.valid
  rw [c.attached_eq] at hvalid
  have hleft := Forest.fault?_of_within hvalid
  rw [Forest.fault?_append, Option.or_eq_none_iff] at hleft
  rw [c.leavesBefore_eq h, before, List.filterMap_append, Frame.leaves_of_entriesBefore hvalid,
    Forest.leaves_of_entries hleft.1]

end Focus

/-- The nodes of a sound tree are listed once. -/
theorem Sound.nodup_entries {t : Tree} (h : t.Sound) :
  (t.entries.map Entry.id).Nodup
  := by
  rw [entries, Forest.map_id_entries]
  apply h.nodup_attached

/-- The leaves before a node are those among the entries before it. -/
theorem Sound.leavesBefore_of_entries {t : Tree} (h : t.Sound) {as bs : List Entry} {e : Entry}
    (he : t.entries = as ++ e :: bs) (hid : e.id ∈ t.children.ids) :
  t.leavesBefore e.id = as.filterMap Entry.leaf?
  := by
  obtain ⟨c⟩ := exists_focus hid
  have hd := h.nodup_entries
  have hc := c.entries_eq
  rw [Forest.entries_toForest, List.cons_append, he] at hc
  rw [he] at hd
  obtain ⟨rfl, -⟩ := Entry.split_unique hd c.id_node.symm hc
  rw [c.leaves_of_before h]

end Tree

end Fettle
