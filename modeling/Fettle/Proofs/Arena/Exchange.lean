import Fettle.Proofs.Arena.Links
import Mathlib.Data.List.Perm.Subperm

/-!
# Edits among the children of a branch

`Gap a p f` says that a branch `p` of an arena has the forest `f` for its children, and
`Exchange a b p f g cut count` that the arena `b` comes of `a` by putting `g` in its place, where
`cut` is what is taken out and `count` the number of new nodes.  The edits are exchanges:
`Gap.insertAt`, `Gap.remove` and `Gap.replace`.
-/

namespace Fettle

namespace Arena

/-- A branch has the trees of a forest for its children. -/
structure Gap (a : Arena) (p : NodeId) (f : Forest NodeId) : Prop where
  laid : a.Laid (some p) 0 f
  children : ∃ r, a.get? p = some r ∧ r.children = f.roots
  nodup : f.ids.Nodup
  notMem : p ∉ f.ids

/-- The children of a branch are exchanged and nothing else is changed, up to new nodes. -/
structure Exchange (a b : Arena) (p : NodeId) (f g cut : Forest NodeId) (count : Nat) : Prop where
  root : b.root = a.root
  size : b.size = a.size + count
  parent : b.get? p = (a.get? p).map fun r => { r with children := g.roots }
  laid : b.Laid (some p) 0 g
  struck : ∀ n ∈ cut.nodes, ∃ q s, b.get? n.id = some (n.record q s false)
  same : ∀ j < a.size, j ∉ f.ids → j ≠ p → b.get? j = a.get? j

/-! ### The root -/

theorem root_modify (a : Arena) (id : NodeId) (f : Record → Record) :
  (a.modify id f).root = a.root
  := rfl

theorem root_allocUnder (a : Arena) (parent : NodeId) (slot : Nat) (plan : Draft) :
  (a.allocUnder parent slot plan).root = a.root
  := by
  induction plan generalizing a parent slot with
  | nil => rfl
  | leaf i k x rest ih =>
    rw [allocUnder, ih]
    rfl
  | branch i k l cs rest ihc ih =>
    rw [allocUnder, ih, adopt, root_modify, ihc]
    rfl

theorem root_alloc (a : Arena) (new : NewNode) (parent : NodeId) (slot : Nat) :
  (a.alloc new parent slot).2.root = a.root
  := by
  cases new with
  | leaf i k x => rfl
  | branch i k l cs => apply root_allocUnder

theorem root_setSlots (a : Arena) (slot : Nat) (ids : List NodeId) :
  (a.setSlots slot ids).root = a.root
  := by
  induction ids generalizing a slot with
  | nil => rfl
  | cons id ids ih => apply ih

theorem root_strike (a : Arena) (n : Nat) (stack : List NodeId) :
  (a.strike n stack).root = a.root
  := by
  induction n generalizing a stack with
  | zero => cases stack <;> rfl
  | succ n ih =>
    cases stack with
    | nil => rfl
    | cons id stack => apply ih

theorem root_detach (a : Arena) (id : NodeId) :
  (a.detach id).root = a.root
  := by
  apply root_strike

end Arena

/-- Distinct numbers below a number are not more than the number. -/
theorem Forest.size_le_of_lt {f : Forest NodeId} {n : Nat} (hd : f.ids.Nodup)
    (h : ∀ j ∈ f.ids, j < n) :
  f.size ≤ n
  := by
  have hsub : f.ids ⊆ List.range n := by
    intro j hj
    rw [List.mem_range]
    apply h j hj
  have hle := (List.subperm_of_subset hd hsub).length_le
  rw [length_ids, List.length_range] at hle
  exact hle

namespace Arena

/-! ### Parts of an exchange -/

variable {a b : Arena} {p : NodeId} {left right f g : Forest NodeId}

theorem Gap.parent_lt (h : a.Gap p f) :
  p < a.size
  := by
  obtain ⟨r, hr, -⟩ := h.children
  apply lt_size_of_get? hr

/-- New children of a branch, of which those from some place on get new places. -/
theorem exchange_renumber (hp : ∃ r, a.get? p = some r) (hleft : a.Laid (some p) 0 left) {s : Nat}
    (hright : a.Laid (some p) s right) (hd : (left ++ right).ids.Nodup)
    (hparent : p ∉ (left ++ right).ids) :
  a.Exchange ((a.setChildren p (left ++ right).roots).renumber p left.roots.length) p right
    (left ++ right) .nil 0
  := by
  obtain ⟨r, hr⟩ := hp
  obtain ⟨set, hset⟩ : ∃ set, set = a.setChildren p (left ++ right).roots := ⟨_, rfl⟩
  have hself : set.get? p = (a.get? p).map fun r => { r with children := (left ++ right).roots } := by
    rw [hset, setChildren, get?_modify_self]
  have hother {j : NodeId} (hj : j ≠ p) : set.get? j = a.get? j := by
    rw [hset, setChildren, get?_modify_of_ne _ _ hj]
  have hslots : set.renumber p left.roots.length = set.setSlots left.roots.length right.roots := by
    rw [hr] at hself
    rw [renumber, childrenOf_of_get? hself, Forest.roots_append, List.drop_left]
  rw [Forest.ids_append, List.nodup_append] at hd
  rw [Forest.ids_append, List.mem_append, not_or] at hparent
  have hroot {j : NodeId} (hj : j ∉ right.ids) : j ∉ right.roots :=
    fun hm => hj (right.roots_subset hm)
  rw [← hset, hslots]
  constructor
  · rw [root_setSlots, hset]
    rfl
  · rw [size_setSlots, hset, setChildren, size_modify, Nat.add_zero]
  · rw [get?_setSlots_of_notMem (hroot hparent.2), hself]
  · rw [laid_append, Nat.zero_add]
    constructor
    · apply hleft.frame
      intro j hj
      have hjp : j ≠ p := fun heq => hparent.1 (heq ▸ hj)
      have hjright : j ∉ right.ids := fun hm => hd.2.2 j hj j hm rfl
      rw [get?_setSlots_of_notMem (hroot hjright), hother hjp]
    · have hmoved : set.Laid (some p) s right := by
        apply hright.frame
        intro j hj
        apply hother
        rintro rfl
        exact hparent.2 hj
      apply hmoved.setSlots hd.2.1
  · intro n hn
    cases hn
  · intro j _ hj hjp
    rw [get?_setSlots_of_notMem (hroot hj), hother hjp]

/-- New children of a branch that have their places. -/
theorem exchange_setChildren (hg : a.Laid (some p) 0 g) (hp : p ∉ g.ids) :
  a.Exchange (a.setChildren p g.roots) p .nil g .nil 0
  := by
  have hother {j : NodeId} (hj : j ≠ p) : (a.setChildren p g.roots).get? j = a.get? j := by
    rw [setChildren, get?_modify_of_ne _ _ hj]
  constructor
  · rfl
  · rw [setChildren, size_modify, Nat.add_zero]
  · rw [setChildren, get?_modify_self]
  · apply hg.frame
    intro j hj
    apply hother
    rintro rfl
    exact hp hj
  · intro n hn
    cases hn
  · intro j _ _ hj
    apply hother hj

namespace Exchange

variable {cut : Forest NodeId} {count : Nat}

/-- An exchange changes fewer records than one that may change more. -/
theorem widen (h : a.Exchange b p f g cut count) {f' : Forest NodeId}
    (hf : ∀ j ∈ f.ids, j ∈ f'.ids) :
  a.Exchange b p f' g cut count
  := by
  use h.root, h.size, h.parent, h.laid, h.struck
  intro j hj hjf
  apply h.same j hj
  intro hm
  exact hjf (hf j hm)

/-- An exchange after the making of a new node. -/
theorem of_made {made : Arena} {q : Option NodeId} {s : Nat} {new : Forest NodeId}
    (h : made.Exchange b p f g cut 0) (hroot : made.root = a.root) (hmade : Made a made q s new)
    (hp : p < a.size) :
  a.Exchange b p f g cut new.size
  := by
  constructor
  · rw [h.root, hroot]
  · rw [h.size, hmade.size, Nat.add_zero]
  · rw [h.parent, hmade.same p hp]
  · exact h.laid
  · exact h.struck
  · intro j hj hf hjp
    have hlt : j < made.size := by
      rw [hmade.size]
      apply Nat.lt_add_right _ hj
    rw [h.same j hlt hf hjp, hmade.same j hj]

/-- Taking out a node that an exchange left alone. -/
theorem detach (h : a.Exchange b p f g .nil count) {n : Node NodeId} {q : Option NodeId} {s : Nat}
    (hn : a.Laid q s n.toForest) (hd : n.toForest.ids.Nodup) (hp : p ∉ n.toForest.ids)
    (hf : ∀ j ∈ n.toForest.ids, j ∉ f.ids) (hg : ∀ j ∈ g.ids, j ∉ n.toForest.ids) :
  a.Exchange (b.detach n.id) p (f ++ n.toForest) g n.toForest count
  := by
  have hnb : b.Laid q s n.toForest := by
    apply hn.frame
    intro j hj
    apply h.same j (hn.lt hj) (hf j hj)
    rintro rfl
    exact hp hj
  have hsize : n.toForest.size ≤ b.size := by
    apply Forest.size_le_of_lt hd
    intro j hj
    apply hnb.lt hj
  have hother {j : NodeId} (hj : j ∉ n.toForest.ids) : (b.detach n.id).get? j = b.get? j :=
    get?_detach_of_notMem hsize hnb.fits hj
  constructor
  · rw [root_detach, h.root]
  · rw [size_detach, h.size]
  · rw [hother hp, h.parent]
  · apply h.laid.frame
    intro j hj
    apply hother (hg j hj)
  · intro m hm
    obtain ⟨q', s', hr⟩ := hnb.get?_node hm
    apply get?_detach_of_mem hsize hnb.fits hm hr
  · intro j hj hjf hjp
    rw [Forest.ids_append, List.mem_append, not_or] at hjf
    rw [hother hjf.2, h.same j hj hjf.1 hjp]

end Exchange

/-! ### New nodes -/

/-- What is laid out stays so when a new node is made. -/
theorem Laid.made {made : Arena} {q r : Option NodeId} {s i : Nat} (h : a.Laid q s f)
    (hmade : Made a made r i g) :
  made.Laid q s f
  := by
  apply h.frame
  intro j hj
  apply hmade.same j (h.lt hj)

/-- The numbers of new nodes are new. -/
theorem Gap.notMem_number (h : a.Gap p f) {ι : Type} {plan : Forest ι} {j : NodeId}
    (hj : j ∈ (plan.number a.size).ids) :
  j ∉ f.ids ∧ p ≠ j
  := by
  rw [Forest.ids_number, List.mem_range'_1] at hj
  constructor
  · intro hf
    apply Nat.not_lt.mpr hj.1 (h.laid.lt hf)
  · rintro rfl
    apply Nat.not_lt.mpr hj.1 h.parent_lt

theorem roots_number (new : NewNode) (n : Nat) :
  (new.toForest.number n).roots = [n]
  := by
  cases new <;> rfl

/-- Children with new trees among them are distinct and not their own parent. -/
theorem Gap.nodup_number (h : a.Gap p (left ++ right)) {ι : Type} (plan : Forest ι) :
  (left ++ plan.number a.size ++ right).ids.Nodup
    ∧ p ∉ (left ++ plan.number a.size ++ right).ids
  := by
  have hperm : (left ++ plan.number a.size ++ right).ids.Perm
      ((left ++ right).ids ++ (plan.number a.size).ids) := by
    rw [Forest.ids_append, Forest.ids_append, Forest.ids_append, List.append_assoc,
      List.append_assoc]
    apply List.perm_append_comm.append_left
  constructor
  · rw [hperm.nodup_iff, List.nodup_append]
    refine ⟨h.nodup, ?_, ?_⟩
    · rw [Forest.ids_number]
      exact List.nodup_range'
    · rintro i hi j hj rfl
      exact (h.notMem_number hj).1 hi
  · rw [hperm.mem_iff, List.mem_append, not_or]
    use h.notMem
    intro hp
    exact (h.notMem_number hp).2 rfl

theorem insertIdx_length_append {α : Type} (l m : List α) (x : α) :
  (l ++ m).insertIdx l.length x = l ++ x :: m
  := by
  induction l with
  | nil => rfl
  | cons y l ih => rw [List.cons_append, List.length_cons, List.insertIdx_succ_cons, ih]; rfl

/-- Putting a new node at a place among the children of a branch. -/
theorem Gap.insertAt (h : a.Gap p (left ++ right)) (new : NewNode) :
  a.Exchange (a.insertAt p left.roots.length new).2 p (left ++ right)
    (left ++ (new.toForest.number a.size ++ right)) .nil (new.toForest.number a.size).size
  := by
  have hmade := made_alloc a new p left.roots.length
  have hroots := roots_number new a.size
  have hlaid := h.laid
  obtain ⟨hd, hnotMem⟩ := h.nodup_number new.toForest
  obtain ⟨r, hr, hchildren⟩ := h.children
  rw [laid_append, Nat.zero_add] at hlaid
  obtain ⟨made, heq⟩ : ∃ made, made = (a.alloc new p left.roots.length).2 := ⟨_, rfl⟩
  obtain ⟨added, hadded⟩ : ∃ added, added = new.toForest.number a.size := ⟨_, rfl⟩
  rw [← heq, ← hadded] at hmade
  rw [← hadded] at hd hnotMem hroots ⊢
  have hself : made.get? p = some r := by
    rw [hmade.same p h.parent_lt, hr]
  have hinsert : (a.insertAt p left.roots.length new).2
      = (made.setChildren p (left ++ added ++ right).roots).renumber p
        (left ++ added).roots.length := by
    simp [Arena.insertAt, alloc_fst, ← heq, childrenOf_of_get? hself, hchildren, hroots,
      insertIdx_length_append]
  have hbefore : made.Laid (some p) 0 (left ++ added) := by
    rw [laid_append, Nat.zero_add]
    exact ⟨hlaid.1.made hmade, hmade.laid⟩
  have hmoved := exchange_renumber ⟨r, hself⟩ hbefore (hlaid.2.made hmade) hd hnotMem
  rw [hinsert, ← Forest.append_assoc]
  apply Exchange.of_made _ (by rw [heq, root_alloc]) hmade h.parent_lt
  apply hmoved.widen
  intro j hj
  simp [hj]

/-! ### Taking a node out -/

section

variable {n : Node NodeId} (h : a.Gap p (left ++ (n.toForest ++ right)))

include h

/-- A tree between siblings shares no number with them and its parent. -/
theorem Gap.disjoint :
  n.toForest.ids.Nodup ∧ p ∉ n.toForest.ids ∧ p ∉ (left ++ right).ids
    ∧ (left ++ right).ids.Nodup ∧ ∀ j ∈ n.toForest.ids, j ∉ (left ++ right).ids
  := by
  have hd := h.nodup
  have hp := h.notMem
  simp only [Forest.ids_append, List.nodup_append, List.mem_append, not_or] at hd hp ⊢
  obtain ⟨hleft, ⟨hn, hright, hnright⟩, houter⟩ := hd
  refine ⟨hn, hp.2.1, ⟨hp.1, hp.2.2⟩, ⟨hleft, hright, ?_⟩, ?_⟩
  · intro i hi j hj
    apply houter i hi j (.inr hj)
  · intro j hj
    constructor
    · intro hm
      exact houter j hm j (.inl hj) rfl
    · intro hm
      exact hnright j hj j hm rfl

/-- Taking a node out. -/
theorem Gap.remove :
  a.Exchange (((a.setChildren p ((a.childrenOf p).eraseIdx left.roots.length)).renumber p
      left.roots.length).detach n.id) p (left ++ (n.toForest ++ right)) (left ++ right)
    n.toForest 0
  := by
  obtain ⟨hn, hpn, hp, hd, hdisjoint⟩ := h.disjoint
  obtain ⟨r, hr, hchildren⟩ := h.children
  have hlaid := h.laid
  rw [laid_append, laid_append] at hlaid
  have herase : (a.childrenOf p).eraseIdx left.roots.length = (left ++ right).roots := by
    rw [childrenOf_of_get? hr, hchildren, Forest.roots_append, Forest.roots_append,
      Node.roots_toForest, List.eraseIdx_append_of_length_le (Nat.le_refl _), Nat.sub_self]
    simp
  rw [herase]
  have hmoved := exchange_renumber ⟨r, hr⟩ hlaid.1 hlaid.2.2 hd hp
  have hright : ∀ j ∈ n.toForest.ids, j ∉ right.ids := by
    intro j hj hm
    apply hdisjoint j hj
    simp [hm]
  have hout := hmoved.detach hlaid.2.1 hn hpn hright fun j hj hm => hdisjoint j hm hj
  apply hout.widen
  intro j hj
  rw [Forest.ids_append, List.mem_append] at hj
  rcases hj with hj | hj <;> simp [hj]

/-- Trees between siblings, of which one is new, share no number. -/
theorem Gap.disjoint_number {ι : Type} (plan : Forest ι) :
  p ∉ (left ++ (plan.number a.size ++ right)).ids
    ∧ ∀ j ∈ (left ++ (plan.number a.size ++ right)).ids, j ∉ n.toForest.ids
  := by
  obtain ⟨-, -, hp, -, hdisjoint⟩ := h.disjoint
  simp only [Forest.ids_append, List.mem_append, not_or] at hp hdisjoint ⊢
  refine ⟨⟨hp.1, ?_, hp.2⟩, ?_⟩
  · intro hm
    exact (h.notMem_number hm).2 rfl
  · intro j hj hm
    rcases hj with hj | hj | hj
    · exact (hdisjoint j hm).1 hj
    · apply (h.notMem_number hj).1
      simp [hm]
    · exact (hdisjoint j hm).2 hj

/-- Putting a new node in the place of a node. -/
theorem Gap.replace (new : NewNode) {made : Arena}
    (heq : made = (a.alloc new p left.roots.length).2) :
  a.Exchange ((made.setChildren p ((made.childrenOf p).set left.roots.length a.size)).detach n.id)
    p (left ++ (n.toForest ++ right)) (left ++ (new.toForest.number a.size ++ right))
    n.toForest (new.toForest.number a.size).size
  := by
  have hmade := made_alloc a new p left.roots.length
  have hroots := roots_number new a.size
  have hlaid := h.laid
  obtain ⟨hn, hpn, -, -, -⟩ := h.disjoint
  obtain ⟨hparent, hout⟩ := h.disjoint_number new.toForest
  obtain ⟨r, hr, hchildren⟩ := h.children
  rw [laid_append, Nat.zero_add, laid_append, Node.roots_toForest] at hlaid
  obtain ⟨added, hadded⟩ : ∃ added, added = new.toForest.number a.size := ⟨_, rfl⟩
  rw [← heq, ← hadded] at hmade
  rw [← hadded] at hparent hout hroots ⊢
  have hself : made.get? p = some r := by
    rw [hmade.same p h.parent_lt, hr]
  have hset : (made.childrenOf p).set left.roots.length a.size
      = (left ++ (added ++ right)).roots := by
    rw [childrenOf_of_get? hself, hchildren, Forest.roots_append, Forest.roots_append,
      Forest.roots_append, Forest.roots_append, Node.roots_toForest,
      List.set_append_right _ _ (Nat.le_refl _), Nat.sub_self, hroots]
    rfl
  have hall : made.Laid (some p) 0 (left ++ (added ++ right)) := by
    rw [laid_append, Nat.zero_add, laid_append, hroots]
    exact ⟨hlaid.1.made hmade, hmade.laid, hlaid.2.2.made hmade⟩
  have hset' := exchange_setChildren hall hparent
  have hexchanged := hset'.detach (hlaid.2.1.made hmade) hn hpn (by simp [Forest.ids]) hout
  rw [hset]
  apply Exchange.of_made _ (by rw [heq, root_alloc]) hmade h.parent_lt
  apply hexchanged.widen
  intro j hj
  rw [Forest.nil_append] at hj
  simp [hj]

end

end Arena

end Fettle
