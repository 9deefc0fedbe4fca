import Fettle.Arena.Edit
import Fettle.Proofs.Tree.Frame
import Fettle.Proofs.Tree.Intact

/-!
# Arenas that stand for trees

`Laid a p s f` says that the records of an arena hold a forest under a parent, from a place on:
every link of every record is the one that the forest asks for.  An arena `Represents` a tree if
it holds the attached nodes in this way, starting with the root, and the removed nodes with
their contents and without the flag.

A forest that is laid out stays so when records elsewhere change (`Laid.frame`).  With `Frame`s,
the branches around a node with what stands left and right of them, an attached forest is written
as a stretch of siblings within all that is around it, and `Laid.within` says that a change of the
stretch is all there is to check.
-/

namespace Fettle

/-- The record of a node of a tree. -/
def Node.record (n : Node NodeId) (parent : Option NodeId) (slot : Nat) (attached : Bool) :
    Record :=
  ⟨n.kind, n.label, n.leafText?.getD "", n.children.roots, parent, slot, attached⟩

@[simp]
theorem Node.roots_toForest {ι : Type} (n : Node ι) :
  n.toForest.roots = [n.id]
  := by
  cases n <;> rfl

namespace Arena

/-! ### Reading after a change -/

section

variable (a : Arena) (id j : NodeId) (r : Record) (f : Record → Record)

@[simp]
theorem size_push :
  (a.push r).size = a.size + 1
  := Array.size_push r

@[simp]
theorem size_modify :
  (a.modify id f).size = a.size
  := Array.size_modify

theorem get?_push :
  (a.push r).get? j = if j = a.size then some r else a.get? j
  := Array.getElem?_push

theorem get?_modify :
  (a.modify id f).get? j = if id = j then (a.get? j).map f else a.get? j
  := Array.getElem?_modify

theorem get?_modify_self :
  (a.modify id f).get? id = (a.get? id).map f
  := by
  rw [get?_modify, if_pos rfl]

theorem get?_modify_of_ne {id j : NodeId} (h : j ≠ id) :
  (a.modify id f).get? j = a.get? j
  := by
  rw [get?_modify, if_neg (Ne.symm h)]

theorem get?_push_of_ne {j : NodeId} (h : j ≠ a.size) :
  (a.push r).get? j = a.get? j
  := by
  rw [get?_push, if_neg h]

theorem lt_size_of_get? {a : Arena} {id : NodeId} {r : Record} (h : a.get? id = some r) :
  id < a.size
  := (Array.getElem?_eq_some_iff.mp h).1

end

/-! ### Forests in an arena -/

/-- The records of an arena hold a forest under a parent, from a place on. -/
def Laid (a : Arena) : Option NodeId → Nat → Forest NodeId → Prop
  | _, _, .nil => True
  | p, s, .leaf i k x rest =>
    a.get? i = some ((Node.leaf i k x).record p s true) ∧ Laid a p (s + 1) rest
  | p, s, .branch i k l cs rest =>
    a.get? i = some ((Node.branch i k l cs).record p s true) ∧ Laid a (some i) 0 cs
      ∧ Laid a p (s + 1) rest

variable {a b : Arena} {p : Option NodeId} {s : Nat} {f g : Forest NodeId}

theorem laid_append :
  a.Laid p s (f ++ g) ↔ a.Laid p s f ∧ a.Laid p (s + f.roots.length) g
  := by
  induction f generalizing s with
  | nil => simp [Laid, Forest.roots]
  | leaf i k x rest ih =>
    simp only [Forest.leaf_append, Laid, ih, Forest.roots, List.length_cons, and_assoc,
      Nat.add_assoc, Nat.add_comm 1]
  | branch i k l cs rest _ ih =>
    simp only [Forest.branch_append, Laid, ih, Forest.roots, List.length_cons, and_assoc,
      Nat.add_assoc, Nat.add_comm 1]

namespace Laid

/-- A forest stays laid out when records elsewhere change. -/
theorem frame (h : a.Laid p s f) (hsame : ∀ id ∈ f.ids, b.get? id = a.get? id) :
  b.Laid p s f
  := by
  induction f generalizing p s with
  | nil => trivial
  | leaf i k x rest ih =>
    rw [Forest.ids, List.forall_mem_cons] at hsame
    rw [Laid] at h ⊢
    rw [hsame.1]
    exact ⟨h.1, ih h.2 hsame.2⟩
  | branch i k l cs rest ihc ih =>
    rw [Forest.ids, List.forall_mem_cons, List.forall_mem_append] at hsame
    rw [Laid] at h ⊢
    rw [hsame.1]
    exact ⟨h.1, ihc h.2.1 hsame.2.1, ih h.2.2 hsame.2.2⟩

/-- The record of a node that is laid out. -/
theorem get?_node (h : a.Laid p s f) {n : Node NodeId} (hn : n ∈ f.nodes) :
  ∃ p' s', a.get? n.id = some (n.record p' s' true)
  := by
  induction f generalizing p s with
  | nil => cases hn
  | leaf i k x rest ih =>
    rw [Laid] at h
    rw [Forest.nodes, List.mem_cons] at hn
    rcases hn with rfl | hn
    · use p, s, h.1
    · apply ih h.2 hn
  | branch i k l cs rest ihc ih =>
    rw [Laid] at h
    rw [Forest.nodes, List.mem_cons, List.mem_append] at hn
    rcases hn with rfl | hn | hn
    · use p, s, h.1
    · apply ihc h.2.1 hn
    · apply ih h.2.2 hn

theorem lt (h : a.Laid p s f) {id : NodeId} (hid : id ∈ f.ids) :
  id < a.size
  := by
  rw [Forest.mem_ids_iff] at hid
  obtain ⟨n, hn, rfl⟩ := hid
  obtain ⟨p', s', hr⟩ := h.get?_node hn
  apply lt_size_of_get? hr

/-- The record of a tree of a forest that is laid out. -/
theorem get?_root (h : a.Laid p s f) {j : Nat} {c : NodeId} (hc : f.roots[j]? = some c) :
  ∃ r, a.get? c = some r ∧ r.parent = p ∧ r.slot = s + j ∧ r.attached = true
  := by
  induction f generalizing s j with
  | nil => simp [Forest.roots] at hc
  | leaf i k x rest ih =>
    rw [Laid] at h
    cases j with
    | zero =>
      obtain rfl : i = c := by simpa [Forest.roots] using hc
      exact ⟨_, h.1, rfl, rfl, rfl⟩
    | succ j =>
      rw [Forest.roots, List.getElem?_cons_succ] at hc
      obtain ⟨r, hr, hp, hs, hatt⟩ := ih h.2 hc
      exact ⟨r, hr, hp, by omega, hatt⟩
  | branch i k l cs rest _ ih =>
    rw [Laid] at h
    cases j with
    | zero =>
      obtain rfl : i = c := by simpa [Forest.roots] using hc
      exact ⟨_, h.1, rfl, rfl, rfl⟩
    | succ j =>
      rw [Forest.roots, List.getElem?_cons_succ] at hc
      obtain ⟨r, hr, hp, hs, hatt⟩ := ih h.2.2 hc
      exact ⟨r, hr, hp, by omega, hatt⟩

/-- What is laid out in a frame. -/
theorem fill_iff {fr : Frame} :
  a.Laid p s (fr.fill f) ↔ a.Laid p s fr.before
    ∧ a.get? fr.id = some ((Node.branch fr.id fr.kind fr.label f).record p
      (s + fr.before.roots.length) true)
    ∧ a.Laid (some fr.id) 0 f ∧ a.Laid p (s + fr.before.roots.length + 1) fr.after
  := by
  rw [Frame.fill, laid_append, Laid]

/-- What stands within frames is laid out if the whole is. -/
theorem of_within {frs : List Frame} (h : a.Laid p s (.within frs f)) :
  ∃ p' s', a.Laid p' s' f
  := by
  induction frs generalizing f with
  | nil => use p, s, h
  | cons fr frs ih =>
    obtain ⟨p', s', hfill⟩ := ih h
    use some fr.id, 0, (fill_iff.mp hfill).2.2.1

/-- A change of what is in a frame is a change of the record of its branch besides. -/
theorem refill {fr : Frame} (hd : (fr.fill f).ids.Nodup) (h : a.Laid p s (fr.fill f))
    (hsame : ∀ id ∈ (fr.fill f).ids, id ∉ f.ids → id ≠ fr.id → b.get? id = a.get? id)
    (hparent : b.get? fr.id = (a.get? fr.id).map fun r => { r with children := g.roots })
    (hg : b.Laid (some fr.id) 0 g) :
  b.Laid p s (fr.fill g)
  := by
  have hout {id : NodeId} (hid : id ∈ fr.before.ids ∨ id ∈ fr.after.ids) :
      b.get? id = a.get? id := by
    apply hsame
    · rw [Forest.ids_fill]
      rcases hid with hid | hid <;> simp [hid]
    · intro hf
      obtain ⟨hbefore, -, hafter⟩ := Forest.notMem_of_nodup_fill hd hf
      exact hid.elim hbefore hafter
    · rintro rfl
      rw [Forest.ids_fill, List.nodup_append, List.nodup_cons] at hd
      rcases hid with hid | hid
      · exact hd.2.2 _ hid _ List.mem_cons_self rfl
      · apply hd.2.1.1
        simp [hid]
  rw [fill_iff] at h ⊢
  obtain ⟨hbefore, hroot, -, hafter⟩ := h
  refine ⟨?_, ?_, hg, ?_⟩
  · apply hbefore.frame
    intro id hid
    apply hout (.inl hid)
  · rw [hparent, hroot]
    rfl
  · apply hafter.frame
    intro id hid
    apply hout (.inr hid)

/-- A change within frames that keeps the roots is a change there only. -/
theorem within {frs : List Frame} (hd : (Forest.within frs f).ids.Nodup)
    (h : a.Laid p s (.within frs f)) (hroots : g.roots = f.roots)
    (hsame : ∀ id ∈ (Forest.within frs f).ids, id ∉ f.ids → b.get? id = a.get? id)
    (hg : ∀ p s, a.Laid p s f → b.Laid p s g) :
  b.Laid p s (.within frs g)
  := by
  induction frs generalizing f g with
  | nil => apply hg p s h
  | cons fr frs ih =>
    have hfill : (fr.fill f).ids.Nodup := Forest.sublist_ids_within.nodup hd
    have hmem {id : NodeId} (hid : id ∈ (fr.fill f).ids) :
        id ∈ (Forest.within frs (fr.fill f)).ids := Forest.sublist_ids_within.subset hid
    apply ih hd h
    · rw [Forest.roots_fill, Forest.roots_fill]
    · intro id hid hnot
      apply hsame id hid
      intro hf
      apply hnot
      simp [hf]
    · intro p s hp
      apply hp.refill hfill
      · intro id hid hf _
        apply hsame id (hmem hid) hf
      · have hroot : b.get? fr.id = a.get? fr.id := by
          apply hsame _ (hmem (by simp))
          intro hf
          exact (Forest.notMem_of_nodup_fill hfill hf).2.1 rfl
        rw [hroot, (fill_iff.mp hp).2.1, hroots]
        rfl
      · apply hg _ _ (fill_iff.mp hp).2.2.1

end Laid

/-! ### Arenas of trees -/

/-- An arena stands for a tree: the attached nodes are laid out from the root on, and the removed
nodes keep their contents. -/
structure Represents (a : Arena) (t : Tree) : Prop where
  root : a.root = Tree.root
  size : a.size = t.size
  laid : a.Laid none 0 t.attached
  struck : ∀ n ∈ t.removed.nodes, ∃ p s, a.get? n.id = some (n.record p s false)

namespace Represents

variable {t : Tree} (h : a.Represents t)

include h

/-- The record of a branch and those of its children. -/
theorem laid_gap {fr : Frame} {frs : List Frame} (hall : t.attached = .within (fr :: frs) f) :
  (∃ r, a.get? fr.id = some r ∧ r.children = f.roots) ∧ a.Laid (some fr.id) 0 f
  := by
  have hlaid := h.laid
  rw [hall, Forest.within] at hlaid
  obtain ⟨p, s, hfill⟩ := hlaid.of_within
  rw [Laid.fill_iff] at hfill
  exact ⟨⟨_, hfill.2.1, rfl⟩, hfill.2.2.1⟩

/-- A change of the children of one branch is a change there only. -/
theorem laid_exchange (ht : t.Sound) {fr : Frame} {frs : List Frame}
    (hall : t.attached = .within (fr :: frs) f)
    (hsame : ∀ j ∈ t.attached.ids, j ∉ f.ids → j ≠ fr.id → b.get? j = a.get? j)
    (hparent : b.get? fr.id = (a.get? fr.id).map fun r => { r with children := g.roots })
    (hg : b.Laid (some fr.id) 0 g) :
  b.Laid none 0 (.within (fr :: frs) g)
  := by
  have hlaid := h.laid
  have hd := ht.nodup_attached
  rw [hall, Forest.within] at hlaid hd
  have hmem {j : NodeId} (hj : j ∈ (fr.fill f).ids) : j ∈ t.attached.ids := by
    rw [hall, Forest.within]
    apply Forest.sublist_ids_within.subset hj
  rw [Forest.within]
  apply hlaid.within hd
  · rw [Forest.roots_fill, Forest.roots_fill]
  · intro j hj hnot
    rw [Forest.ids_fill, List.mem_append, List.mem_cons, List.mem_append] at hnot
    apply hsame
    · rw [hall]
      exact hj
    · intro hm
      exact hnot (.inr (.inr (.inl hm)))
    · intro heq
      exact hnot (.inr (.inl heq))
  · intro p s hp
    apply hp.refill (Forest.sublist_ids_within.nodup hd) _ hparent hg
    intro j hj hf hjp
    apply hsame j (hmem hj) hf hjp

end Represents

end Arena

end Fettle
