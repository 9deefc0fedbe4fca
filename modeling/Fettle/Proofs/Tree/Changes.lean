import Fettle.Proofs.Tree.Entries
import Fettle.Proofs.Tree.Leaves

/-!
# What edits of a tree change

The entries of a sound tree change by one splice: an edit puts the entries of the new node just
before or just after those of a node or in their place, or takes them out (`entries_insertBefore`,
`entries_insertAfter`, `entries_replace`, `entries_remove`).  Setting the white space before a
node does so with the leaf before the node, if that is white space, and at the start of the node
otherwise (`Sound.spaceChange`).  The leaf before the node is then white space with the text that
was set (`SpaceChange.prevLeaf?_eq`).
-/

namespace Fettle

/-! ### Entries of new nodes -/

/-- The nodes of a new node in pre-order, with numbers from `n` on. -/
def NewNode.entries (new : NewNode) (n : Nat) : List Entry :=
  (new.toForest.nodes.zipIdx n).map fun m => ⟨m.2, m.1.kind, m.1.label, m.1.leafText?.getD ""⟩

theorem Forest.length_nodes {ι : Type} (f : Forest ι) :
  f.nodes.length = f.size
  := by
  induction f with
  | nil => rfl
  | leaf i k s rest ih => rw [nodes, List.length_cons, ih, size]
  | branch i k l cs rest ihc ih =>
    rw [nodes, List.length_cons, List.length_append, ihc, ih, size]

theorem Forest.entries_number {ι : Type} (f : Forest ι) (n : Nat) :
  (f.number n).entries
    = (f.nodes.zipIdx n).map fun m => ⟨m.2, m.1.kind, m.1.label, m.1.leafText?.getD ""⟩
  := by
  induction f generalizing n with
  | nil => rfl
  | leaf i k s rest ih =>
    rw [number, entries_leaf, ih, nodes, List.zipIdx_cons]
    rfl
  | branch i k l cs rest ihc ih =>
    rw [number, entries_branch, ihc, ih, nodes, List.zipIdx_cons, List.zipIdx_append,
      length_nodes, List.map_cons, List.map_append]
    rfl

/-- The entry of a white space leaf; no text has no leaf. -/
def spaceEntries (n : NodeId) (text : String) : List Entry :=
  if text = "" then [] else [⟨n, .whitespace, none, text⟩]

theorem entries_whitespace {text : String} (hs : text ≠ "") (n : NodeId) :
  (NewNode.whitespace text).entries n = spaceEntries n text
  := by
  rw [spaceEntries, if_neg hs]
  rfl

theorem head?_spaceEntries {text : String} (hs : text ≠ "") (n : NodeId) :
  (spaceEntries n text).head?.map Entry.id = some n
  := by
  rw [spaceEntries, if_neg hs]
  rfl

theorem head?_spaceEntries_nil {text : String} (hs : text = "") (n : NodeId) :
  (spaceEntries n text).head?.map Entry.id = none
  := by
  rw [spaceEntries, if_pos hs]
  rfl

namespace Tree

variable {t u : Tree} {id i : NodeId} {new : NewNode} {text : String} {o : Option NodeId}

namespace Sound

variable (h : t.Sound)

include h

/-! ### Edits at a node -/

theorem entries_insertBefore (he : t.insertBefore id new = .ok (i, u)) :
  ∃ c : t.Focus id, i = t.size
    ∧ u.entries = c.before ++ (new.entries t.size ++ (c.node.toForest.entries ++ c.after))
  := by
  rw [Tree.insertBefore] at he
  split at he
  · cases he
  · rename_i hnone
    rw [Option.or_eq_none_iff, h.anchorFault?_eq_none_iff] at hnone
    obtain ⟨c⟩ := exists_focus hnone.1
    obtain ⟨rfl, rfl⟩ := Prod.mk.inj (Except.ok.inj he)
    use c, rfl
    rw [Tree.spliced, c.entries_splice h hnone.1, Forest.entries_append, Forest.entries_number,
      List.append_assoc, NewNode.entries]

theorem entries_insertAfter (he : t.insertAfter id new = .ok (i, u)) :
  ∃ c : t.Focus id, i = t.size
    ∧ u.entries = c.before ++ (c.node.toForest.entries ++ (new.entries t.size ++ c.after))
  := by
  rw [Tree.insertAfter] at he
  split at he
  · cases he
  · rename_i hnone
    rw [Option.or_eq_none_iff, h.anchorFault?_eq_none_iff] at hnone
    obtain ⟨c⟩ := exists_focus hnone.1
    obtain ⟨rfl, rfl⟩ := Prod.mk.inj (Except.ok.inj he)
    use c, rfl
    rw [Tree.spliced, c.entries_splice h hnone.1, Forest.entries_append, Forest.entries_number,
      List.append_assoc, NewNode.entries]

theorem entries_remove (he : t.remove id = .ok u) :
  ∃ c : t.Focus id, u.entries = c.before ++ c.after
  := by
  rw [Tree.remove] at he
  split at he
  · cases he
  · rename_i hnone
    rw [h.anchorFault?_eq_none_iff] at hnone
    obtain ⟨c⟩ := exists_focus hnone
    obtain rfl := Except.ok.inj he
    use c
    rw [retire, c.find?_eq h hnone, Tree.spliced, c.entries_splice h hnone]
    rfl

theorem entries_replace (he : t.replace id new = .ok (i, u)) :
  ∃ c : t.Focus id, i = t.size ∧ u.entries = c.before ++ (new.entries t.size ++ c.after)
  := by
  rw [Tree.replace] at he
  split at he
  · cases he
  · rename_i hnone
    rw [Option.or_eq_none_iff, h.anchorFault?_eq_none_iff] at hnone
    obtain ⟨c⟩ := exists_focus hnone.1
    obtain ⟨rfl, rfl⟩ := Prod.mk.inj (Except.ok.inj he)
    use c, rfl
    rw [retire, c.find?_eq h hnone.1, Tree.spliced, c.entries_splice h hnone.1,
      Forest.entries_number, NewNode.entries]

end Sound

/-! ### White space -/

/-- What setting the white space before a node changes in a tree. -/
inductive SpaceChange (t : Tree) (id : NodeId) (text : String) : Option NodeId → Tree → Prop where
  /-- The leaf before the node is white space with the text. -/
  | kept {l : Leaf NodeId} (hl : t.prevLeaf? id = some l) (hspace : l.kind = .whitespace)
    (htext : l.text = text) : SpaceChange t id text (some l.id) t
  /-- The leaf before the node is white space with another text. -/
  | replaced {u : Tree} {l : Leaf NodeId} (hl : t.prevLeaf? id = some l)
    (hspace : l.kind = .whitespace) (htext : l.text ≠ text) (c : t.Focus l.id)
    (hu : u.entries = c.before ++ (spaceEntries t.size text ++ c.after)) :
    SpaceChange t id text ((spaceEntries t.size text).head?.map Entry.id) u
  /-- The leaf before the node is not white space, or there is none. -/
  | inserted {u : Tree} (hl : ∀ l, t.prevLeaf? id = some l → l.kind ≠ .whitespace)
    (c : t.Focus id)
    (hu : u.entries
      = c.before ++ (spaceEntries t.size text ++ (c.node.toForest.entries ++ c.after))) :
    SpaceChange t id text ((spaceEntries t.size text).head?.map Entry.id) u

/-- A leaf is its only entry. -/
theorem Focus.entries_leaf (h : t.Sound) {l : Leaf NodeId} (hl : l ∈ t.attached.leaves)
    (c : t.Focus l.id) :
  c.node.toForest.entries = [⟨l.id, l.kind, none, l.text⟩]
  := by
  have hchildren : l ∈ t.children.leaves := by
    rw [← leaves_eq]
    exact hl
  obtain ⟨a, b, hab⟩ := List.append_of_mem hl
  have hnode := c.find?_eq h (Sound.mem_children hab)
  rw [Forest.find?_of_mem_leaves h.nodup_children hchildren] at hnode
  rw [← Option.some.inj hnode]
  rfl

theorem Sound.spaceChange (h : t.Sound) (he : t.setSpaceBefore id text = .ok (o, u)) :
  t.SpaceChange id text o u
  := by
  rw [Tree.setSpaceBefore] at he
  split at he
  · cases he
  · rename_i hnone
    rw [Option.or_eq_none_iff, h.anchorFault?_eq_none_iff] at hnone
    split at he
    · rename_i old hold
      rw [Option.filter_eq_some_iff, decide_eq_true_eq] at hold
      split at he
      · rename_i hs
        obtain ⟨v, hv, heq⟩ := Except.map_eq_ok_iff.mp he
        obtain ⟨rfl, rfl⟩ := Prod.mk.inj heq
        obtain ⟨c, hc⟩ := h.entries_remove hv
        have htext : old.text ≠ text := by
          rw [hs]
          apply h.text_ne_empty old (h.mem_of_prevLeaf? hold.1)
        rw [← head?_spaceEntries_nil hs t.size]
        apply SpaceChange.replaced hold.1 hold.2 htext c
        rw [hc, spaceEntries, if_pos hs, List.nil_append]
      · rename_i hs
        split at he
        · rename_i htext
          obtain ⟨rfl, rfl⟩ := Prod.mk.inj (Except.ok.inj he)
          exact .kept hold.1 hold.2 htext
        · rename_i htext
          obtain ⟨⟨j, v⟩, hv, heq⟩ := Except.map_eq_ok_iff.mp he
          obtain ⟨rfl, rfl⟩ := Prod.mk.inj heq
          obtain ⟨c, rfl, hc⟩ := h.entries_replace hv
          rw [← head?_spaceEntries hs t.size]
          apply SpaceChange.replaced hold.1 hold.2 htext c
          rw [hc, entries_whitespace hs]
    · rename_i hold
      have hother : ∀ l, t.prevLeaf? id = some l → l.kind ≠ .whitespace := by
        intro l hl
        simpa using Option.filter_eq_none_iff.mp hold l hl
      split at he
      · rename_i hs
        obtain ⟨rfl, rfl⟩ := Prod.mk.inj (Except.ok.inj he)
        obtain ⟨c⟩ := exists_focus hnone.2
        rw [← head?_spaceEntries_nil hs t.size]
        apply SpaceChange.inserted hother c
        rw [c.entries_eq, spaceEntries, if_pos hs, List.nil_append]
      · rename_i hs
        obtain ⟨⟨j, v⟩, hv, heq⟩ := Except.map_eq_ok_iff.mp he
        obtain ⟨rfl, rfl⟩ := Prod.mk.inj heq
        obtain ⟨c, rfl, hc⟩ := h.entries_insertBefore hv
        rw [← head?_spaceEntries hs t.size]
        apply SpaceChange.inserted hother c
        rw [hc, entries_whitespace hs]

/-! ### The white space that was set -/

/-- A node other than the root that stands among the entries is inside the root. -/
theorem mem_children_of_entries {e : Entry} (he : e ∈ t.entries) (hroot : e.id ≠ root) :
  e.id ∈ t.children.ids
  := by
  have hid : e.id ∈ t.attached.ids := by
    rw [← Forest.map_id_entries]
    apply List.mem_map_of_mem he
  rw [ids_attached, List.mem_cons] at hid
  exact hid.resolve_left hroot

/-- The node stays where it is, and what comes before it is known. -/
theorem SpaceChange.split (h : t.Sound) (hid : id ∈ t.children.ids)
    (hc : t.SpaceChange id text o u) :
  ∃ as e bs, u.entries = as ++ e :: bs ∧ e.id = id
    ∧ (text ≠ "" → ∃ l : Leaf NodeId, o = some l.id ∧ (as.filterMap Entry.leaf?).getLast? = some l
      ∧ l.kind = .whitespace ∧ l.text = text)
  := by
  obtain ⟨C⟩ := exists_focus hid
  have hentries := C.entries_eq
  have hbefore := C.leaves_of_before h
  rw [Forest.entries_toForest, List.cons_append] at hentries
  cases hc with
  | @kept l hl hspace htext =>
    refine ⟨C.before, _, _, hentries, C.id_node, ?_⟩
    intro _
    use l, rfl
    rw [hbefore]
    exact ⟨hl, hspace, htext⟩
  | @replaced _ l hl hspace htext c hu =>
    -- the leaf is the last one before the node, and so only branches stand between the two
    obtain ⟨ls, hls⟩ := List.getLast?_eq_some_iff.mp hl
    rw [hls, List.filterMap_eq_append_iff] at hbefore
    obtain ⟨as, cs, hC, has, hcs⟩ := hbefore
    obtain ⟨ds, w, mid, rfl, -, hw, hmid⟩ := List.filterMap_eq_cons_iff.mp hcs
    have hid : w.id = l.id := by
      rw [Entry.leaf?] at hw
      split at hw
      · cases hw
      · exact congrArg Leaf.id (Option.some.inj hw)
    have hat : t.entries = (as ++ ds) ++ w :: (mid ++ C.node.entry ::
        (C.node.children.entries ++ C.after)) := by
      rw [hentries, hC]
      simp only [List.append_assoc, List.cons_append]
    have hleaf := c.entries_eq
    rw [c.entries_leaf h (h.mem_of_prevLeaf? hl), List.singleton_append, hat] at hleaf
    have hd := h.nodup_entries
    rw [hat] at hd
    obtain ⟨hfirst, hlast⟩ := Entry.split_unique hd hid hleaf
    refine ⟨c.before ++ (spaceEntries t.size text ++ mid), C.node.entry,
      C.node.children.entries ++ C.after, ?_, C.id_node, ?_⟩
    · rw [hu, ← hlast]
      simp only [List.append_assoc]
    · intro hs
      refine ⟨⟨t.size, .whitespace, text⟩, head?_spaceEntries hs t.size, ?_, rfl, rfl⟩
      rw [List.filterMap_append, List.filterMap_append, hmid, spaceEntries, if_neg hs]
      simp [Entry.leaf?, Kind.isComposite]
  | inserted hl c hu =>
    rw [Forest.entries_toForest, List.cons_append, ← List.append_assoc] at hu
    refine ⟨_, _, _, hu, c.id_node, ?_⟩
    intro hs
    refine ⟨⟨t.size, .whitespace, text⟩, head?_spaceEntries hs t.size, ?_, rfl, rfl⟩
    rw [List.filterMap_append, spaceEntries, if_neg hs]
    simp [Entry.leaf?, Kind.isComposite]

/-- After the white space before a node is set, the node is there, and the leaf before it is the
white space. -/
theorem SpaceChange.prevLeaf?_eq (h : t.Sound) (hu : u.Sound) (hid : id ∈ t.children.ids)
    (hc : t.SpaceChange id text o u) :
  id ∈ u.children.ids
    ∧ (text ≠ "" → ∃ l : Leaf NodeId, o = some l.id ∧ u.prevLeaf? id = some l
      ∧ l.kind = .whitespace ∧ l.text = text)
  := by
  obtain ⟨as, e, bs, hentries, rfl, hspace⟩ := hc.split h hid
  have hroot : e.id ≠ root := by
    intro heq
    rw [heq] at hid
    exact h.root_notMem_children hid
  have he : e ∈ u.entries := by
    rw [hentries]
    apply List.mem_append_right _ List.mem_cons_self
  have hmem := mem_children_of_entries he hroot
  use hmem
  rw [prevLeaf?, hu.leavesBefore_of_entries hentries hmem]
  exact hspace

end Tree

end Fettle
