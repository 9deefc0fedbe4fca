import Fettle.Proofs.Arena.Layout

/-!
# Changing the links of an arena

What the steps do of which edits are made: `grown_allocUnder` for the making of new nodes,
`Laid.setSlots` for the giving of places, and `get?_detach` for taking out a node with all inside
it, which changes the records of exactly these nodes.
-/

namespace Fettle

namespace Arena

/-! ### Making nodes -/

/-- An arena comes of another by the making of a forest under a parent, from a place on. -/
structure Grown (a b : Arena) (parent : NodeId) (slot : Nat) (f : Forest NodeId) : Prop where
  size : b.size = a.size + f.size
  adopted : b.get? parent
    = (a.get? parent).map fun r => { r with children := r.children ++ f.roots }
  same : ∀ j < a.size, j ≠ parent → b.get? j = a.get? j
  laid : b.Laid (some parent) slot f

/-- What is made of an arena by the making of one tree, which no branch has adopted yet. -/
structure Made (a b : Arena) (parent : Option NodeId) (slot : Nat) (f : Forest NodeId) : Prop where
  size : b.size = a.size + f.size
  same : ∀ j < a.size, b.get? j = a.get? j
  laid : b.Laid parent slot f

theorem made_leaf (a : Arena) (k : Kind) (x : String) (parent : Option NodeId) (slot : Nat) :
  Made a (a.push (.ofLeaf k x parent slot)) parent slot (.leaf a.size k x .nil)
  := by
  constructor
  · rw [size_push]
    rfl
  · intro j hj
    rw [get?_push_of_ne _ _ (Nat.ne_of_lt hj)]
  · rw [Laid, get?_push, if_pos rfl]
    exact ⟨rfl, trivial⟩

/-- A branch is made before the nodes inside it. -/
theorem made_branch {a b : Arena} {k : Kind} {l : Option String} {parent : Option NodeId}
    {slot : Nat} {cs : Forest NodeId}
    (h : Grown (a.push (.ofBranch k l parent slot)) b a.size 0 cs) :
  Made a b parent slot (.branch a.size k l cs .nil)
  := by
  constructor
  · rw [h.size, size_push, Forest.size, Forest.size]
    omega
  · intro j hj
    have hpush : j < (a.push (.ofBranch k l parent slot)).size := by
      rw [size_push]
      apply Nat.lt_succ_of_lt hj
    rw [h.same j hpush (Nat.ne_of_lt hj), get?_push_of_ne _ _ (Nat.ne_of_lt hj)]
  · rw [Laid, h.adopted, get?_push, if_pos rfl]
    exact ⟨rfl, h.laid, trivial⟩

/-- A branch adopts a tree that was made, and then gets the rest of a forest. -/
theorem Made.grown {a made b : Arena} {parent : NodeId} (hp : parent < a.size) {slot : Nat}
    {f rest : Forest NodeId} (hmade : Made a made (some parent) slot f)
    (hids : ∀ j ∈ f.ids, a.size ≤ j) (hroots : f.roots = [a.size])
    (hrest : Grown (made.adopt parent a.size) b parent (slot + 1) rest) :
  Grown a b parent slot (f ++ rest)
  := by
  have hsize : (made.adopt parent a.size).size = a.size + f.size := by
    rw [adopt, size_modify, hmade.size]
  constructor
  · rw [hrest.size, hsize, Forest.size_append, Nat.add_assoc]
  · rw [hrest.adopted, adopt, get?_modify_self, hmade.same parent hp, Option.map_map,
      Forest.roots_append, hroots]
    simp [Function.comp_def]
  · intro j hj hjp
    have hlt : j < (made.adopt parent a.size).size := by
      rw [hsize]
      apply Nat.lt_add_right _ hj
    rw [hrest.same j hlt hjp, adopt, get?_modify_of_ne _ _ hjp, hmade.same j hj]
  · rw [laid_append, hroots]
    refine ⟨?_, hrest.laid⟩
    apply hmade.laid.frame
    intro j hj
    have hjp : j ≠ parent := Nat.ne_of_gt (Nat.lt_of_lt_of_le hp (hids j hj))
    have hlt : j < (made.adopt parent a.size).size := by
      rw [adopt, size_modify]
      apply hmade.laid.lt hj
    rw [hrest.same j hlt hjp, adopt, get?_modify_of_ne _ _ hjp]

/-- The nodes of a plan are numbered in pre-order from the next number on. -/
theorem grown_allocUnder {a : Arena} {parent : NodeId} (hp : parent < a.size) (slot : Nat)
    (plan : Draft) :
  Grown a (a.allocUnder parent slot plan) parent slot (plan.number a.size)
  := by
  induction plan generalizing a parent slot with
  | nil =>
    rw [allocUnder, Forest.number]
    constructor
    · rfl
    · simp [Forest.roots]
    · intro j _ _
      rfl
    · trivial
  | leaf i k x rest ih =>
    have hmade := made_leaf a k x (some parent) slot
    have hsize : ((a.push (.ofLeaf k x (some parent) slot)).adopt parent a.size).size
        = a.size + 1 := by
      rw [adopt, size_modify, size_push]
    have hparent : parent < ((a.push (.ofLeaf k x (some parent) slot)).adopt parent a.size).size := by
      rw [hsize]
      apply Nat.lt_succ_of_lt hp
    have hrest := ih hparent (slot + 1)
    rw [hsize] at hrest
    apply hmade.grown hp _ rfl hrest
    simp [Forest.ids]
  | branch i k l cs rest ihc ih =>
    have hself : a.size < (a.push (.ofBranch k l (some parent) slot)).size := by
      rw [size_push]
      apply Nat.lt_succ_self
    have hcs := ihc hself 0
    rw [size_push] at hcs
    obtain ⟨made, hmade⟩ : ∃ made, made
        = (a.push (.ofBranch k l (some parent) slot)).allocUnder a.size 0 cs := ⟨_, rfl⟩
    rw [allocUnder, ← hmade]
    rw [← hmade] at hcs
    have hsize : (made.adopt parent a.size).size = a.size + 1 + cs.size := by
      rw [adopt, size_modify, hcs.size, size_push, Forest.size_number]
    have hparent : parent < (made.adopt parent a.size).size := by
      rw [hsize, Nat.add_assoc]
      apply Nat.lt_add_right _ hp
    have hrest := ih hparent (slot + 1)
    rw [hsize] at hrest
    apply (made_branch hcs).grown hp _ rfl hrest
    intro j hj
    rw [Forest.ids, Forest.ids_number, List.mem_cons, List.mem_append, List.mem_range'_1] at hj
    rcases hj with rfl | hj | hj
    · apply Nat.le_refl
    · omega
    · cases hj

theorem alloc_fst (a : Arena) (new : NewNode) (parent : NodeId) (slot : Nat) :
  (a.alloc new parent slot).1 = a.size
  := by
  cases new <;> rfl

/-- A new node is laid out at its place, and nothing else is changed. -/
theorem made_alloc (a : Arena) (new : NewNode) (parent : NodeId) (slot : Nat) :
  Made a (a.alloc new parent slot).2 (some parent) slot (new.toForest.number a.size)
  := by
  cases new with
  | leaf i k x => apply made_leaf
  | branch i k l cs =>
    have hself : a.size < (a.push (.ofBranch k l (some parent) slot)).size := by
      rw [size_push]
      apply Nat.lt_succ_self
    have hcs := grown_allocUnder hself 0 cs
    rw [size_push] at hcs
    apply made_branch hcs

/-! ### Giving places -/

theorem size_setSlots (a : Arena) (slot : Nat) (ids : List NodeId) :
  (a.setSlots slot ids).size = a.size
  := by
  induction ids generalizing a slot with
  | nil => rfl
  | cons id ids ih => rw [setSlots, ih, size_modify]

theorem get?_setSlots_of_notMem {a : Arena} {slot : Nat} {ids : List NodeId} {j : NodeId}
    (h : j ∉ ids) :
  (a.setSlots slot ids).get? j = a.get? j
  := by
  induction ids generalizing a slot with
  | nil => rfl
  | cons id ids ih =>
    rw [List.mem_cons, not_or] at h
    rw [setSlots, ih h.2, get?_modify_of_ne _ _ h.1]

end Arena

/-- The roots are labels. -/
theorem Forest.roots_subset {ι : Type} (f : Forest ι) :
  f.roots ⊆ f.ids
  := by
  induction f with
  | nil => simp [roots]
  | leaf i k s rest ih =>
    rw [roots, ids]
    apply List.cons_subset_cons i ih
  | branch i k l cs rest _ ih =>
    rw [roots, ids]
    apply List.cons_subset_cons
    apply List.subset_append_of_subset_right _ ih

namespace Arena

/-- Giving places to the trees of a forest that is laid out moves it. -/
theorem Laid.setSlots {a : Arena} {p : Option NodeId} {s : Nat} {f : Forest NodeId}
    (h : a.Laid p s f) (hd : f.ids.Nodup) (slot : Nat) :
  (a.setSlots slot f.roots).Laid p slot f
  := by
  induction f generalizing a s slot with
  | nil => trivial
  | leaf i k x rest ih =>
    rw [Forest.ids, List.nodup_cons] at hd
    rw [Laid] at h
    have hi : i ∉ rest.roots := fun hm => hd.1 (rest.roots_subset hm)
    have hrest : (a.modify i fun r => { r with slot := slot }).Laid p (s + 1) rest := by
      apply h.2.frame
      intro j hj
      apply get?_modify_of_ne
      rintro rfl
      exact hd.1 hj
    rw [Forest.roots, Arena.setSlots, Laid]
    constructor
    · rw [get?_setSlots_of_notMem hi, get?_modify_self, h.1]
      rfl
    · apply ih hrest hd.2
  | branch i k l cs rest _ ih =>
    rw [Forest.ids, List.nodup_cons, List.nodup_append, List.mem_append, not_or] at hd
    obtain ⟨⟨hics, hirest⟩, hcs, hdrest, hdisjoint⟩ := hd
    rw [Laid] at h
    have hi : i ∉ rest.roots := fun hm => hirest (rest.roots_subset hm)
    have hrest : (a.modify i fun r => { r with slot := slot }).Laid p (s + 1) rest := by
      apply h.2.2.frame
      intro j hj
      apply get?_modify_of_ne
      rintro rfl
      exact hirest hj
    rw [Forest.roots, Arena.setSlots, Laid]
    refine ⟨?_, ?_, ih hrest hdrest _⟩
    · rw [get?_setSlots_of_notMem hi, get?_modify_self, h.1]
      rfl
    · apply h.2.1.frame
      intro j hj
      rw [get?_setSlots_of_notMem, get?_modify_of_ne]
      · rintro rfl
        exact hics hj
      · intro hm
        exact hdisjoint j hj j (rest.roots_subset hm) rfl

end Arena

/-! ### Taking nodes out -/

namespace Forest

variable {ι : Type}

theorem eq_nil_of_size_le {f : Forest ι} (h : f.size ≤ 0) :
  f = nil
  := by
  cases f with
  | nil => rfl
  | leaf i k s rest => simp [size] at h
  | branch i k l cs rest => simp [size] at h

/-- The trees of a forest in the opposite order. -/
def reversed : Forest ι → Forest ι
  | nil => nil
  | leaf i k s rest => rest.reversed ++ leaf i k s nil
  | branch i k l cs rest => rest.reversed ++ branch i k l cs nil

theorem roots_reversed (f : Forest ι) :
  f.reversed.roots = f.roots.reverse
  := by
  induction f with
  | nil => rfl
  | leaf i k s rest ih => simp [reversed, roots, ih]
  | branch i k l cs rest _ ih => simp [reversed, roots, ih]

theorem size_reversed (f : Forest ι) :
  f.reversed.size = f.size
  := by
  induction f with
  | nil => rfl
  | leaf i k s rest ih => simp [reversed, size, ih]
  | branch i k l cs rest _ ih =>
    simp only [reversed, size_append, size, ih]
    omega

theorem mem_nodes_reversed {f : Forest ι} {n : Node ι} :
  n ∈ f.reversed.nodes ↔ n ∈ f.nodes
  := by
  induction f with
  | nil => rfl
  | leaf i k s rest ih =>
    simp only [reversed, nodes_append, nodes, List.mem_append, List.mem_cons, List.not_mem_nil,
      or_false, ih]
    apply or_comm
  | branch i k l cs rest _ ih =>
    simp only [reversed, nodes_append, nodes, List.mem_append, List.mem_cons, List.append_nil, ih]
    rw [or_comm, or_assoc]

theorem mem_ids_reversed {f : Forest ι} {i : ι} :
  i ∈ f.reversed.ids ↔ i ∈ f.ids
  := by
  simp only [mem_ids_iff, mem_nodes_reversed]

end Forest

namespace Arena

/-- The records of the nodes of a forest have the children that the forest has. -/
def Fits (a : Arena) (f : Forest NodeId) : Prop :=
  ∀ n ∈ f.nodes, a.childrenOf n.id = n.children.roots

theorem childrenOf_of_get? {a : Arena} {id : NodeId} {r : Record} (h : a.get? id = some r) :
  a.childrenOf id = r.children
  := by
  rw [childrenOf, h]
  rfl

theorem Laid.fits {a : Arena} {p : Option NodeId} {s : Nat} {f : Forest NodeId}
    (h : a.Laid p s f) :
  a.Fits f
  := by
  intro n hn
  obtain ⟨p', s', hr⟩ := h.get?_node hn
  rw [childrenOf_of_get? hr]
  rfl

/-- Changes of records that keep the children. -/
theorem childrenOf_modify {a : Arena} {f : Record → Record} (hf : ∀ r, (f r).children = r.children)
    (id j : NodeId) :
  (a.modify id f).childrenOf j = a.childrenOf j
  := by
  rw [childrenOf, childrenOf, get?_modify]
  split
  · rw [Option.map_map]
    congr 2
    funext r
    apply hf
  · rfl

theorem size_strike (a : Arena) (n : Nat) (stack : List NodeId) :
  (a.strike n stack).size = a.size
  := by
  induction n generalizing a stack with
  | zero => cases stack <;> rfl
  | succ n ih =>
    cases stack with
    | nil => rfl
    | cons id stack => rw [strike, ih, size_modify]

/-- The arena with the flag of one node taken away. -/
def unflag (a : Arena) (id : NodeId) : Arena :=
  a.modify id fun r => { r with attached := false }

theorem Fits.unflag {a : Arena} {f : Forest NodeId} (h : a.Fits f) (id : NodeId) :
  (a.unflag id).Fits f
  := by
  intro n hn
  rw [← h n hn]
  apply childrenOf_modify
  intro r
  rfl

/-- A node from which the flag is taken twice has it no more. -/
theorem get?_unflag (a : Arena) (id j : NodeId) (ids : List NodeId) :
  (if j ∈ ids then ((a.unflag id).get? j).map fun r => { r with attached := false }
    else (a.unflag id).get? j)
  = if j ∈ id :: ids then (a.get? j).map fun r => { r with attached := false } else a.get? j
  := by
  rw [unflag, get?_modify]
  by_cases hj : id = j
  · subst hj
    simp [Function.comp_def]
  · simp [hj, Ne.symm hj]

/-- Striking out the trees of a forest takes the flag from exactly its nodes. -/
theorem get?_strike {a : Arena} {n : Nat} {f : Forest NodeId} (hn : f.size ≤ n) (hf : a.Fits f)
    (j : NodeId) :
  (a.strike n f.roots).get? j
    = if j ∈ f.ids then (a.get? j).map fun r => { r with attached := false } else a.get? j
  := by
  induction n generalizing a f with
  | zero =>
    obtain rfl := Forest.eq_nil_of_size_le hn
    rfl
  | succ n ih =>
    cases f with
    | nil => rfl
    | leaf i k x rest =>
      rw [Forest.size] at hn
      rw [Fits, Forest.nodes, List.forall_mem_cons] at hf
      have hchildren : a.childrenOf i = [] := hf.1
      rw [Forest.roots, strike, hchildren, List.reverse_nil, List.nil_append, ← unflag,
        ih (Nat.le_of_succ_le_succ hn) (Fits.unflag hf.2 i), Forest.ids, get?_unflag]
    | branch i k l cs rest =>
      rw [Forest.size] at hn
      rw [Fits, Forest.nodes, List.forall_mem_cons, List.forall_mem_append] at hf
      have hchildren : a.childrenOf i = cs.roots := hf.1
      have hsize : (cs.reversed ++ rest).size ≤ n := by
        rw [Forest.size_append, Forest.size_reversed]
        omega
      have hfits : a.Fits (cs.reversed ++ rest) := by
        rw [Fits, Forest.nodes_append, List.forall_mem_append]
        constructor
        · intro m hm
          apply hf.2.1 m (Forest.mem_nodes_reversed.mp hm)
        · exact hf.2.2
      have hmem : j ∈ (cs.reversed ++ rest).ids ↔ j ∈ cs.ids ++ rest.ids := by
        rw [Forest.ids_append, List.mem_append, List.mem_append, Forest.mem_ids_reversed]
      rw [Forest.roots, strike, hchildren, ← Forest.roots_reversed, ← Forest.roots_append,
        ← unflag, ih hsize (hfits.unflag i)]
      simp only [hmem]
      rw [Forest.ids, get?_unflag]

theorem size_detach (a : Arena) (id : NodeId) :
  (a.detach id).size = a.size
  := by
  rw [detach, size_modify, size_strike]

/-- Taking a node out does not change the records of nodes that are not inside it. -/
theorem get?_detach_of_notMem {a : Arena} {n : Node NodeId} (hn : n.toForest.size ≤ a.size)
    (hf : a.Fits n.toForest) {j : NodeId} (hj : j ∉ n.toForest.ids) :
  (a.detach n.id).get? j = a.get? j
  := by
  have hne : j ≠ n.id := by
    rintro rfl
    apply hj
    apply n.toForest.roots_subset
    rw [Node.roots_toForest]
    apply List.mem_singleton_self
  rw [detach, get?_modify_of_ne _ _ hne, ← Node.roots_toForest, get?_strike hn hf, if_neg hj]

/-- A node that is taken out and the nodes inside it keep their contents. -/
theorem get?_detach_of_mem {a : Arena} {n : Node NodeId} (hn : n.toForest.size ≤ a.size)
    (hf : a.Fits n.toForest) {m : Node NodeId} (hm : m ∈ n.toForest.nodes) {p : Option NodeId}
    {s : Nat} {att : Bool} (hr : a.get? m.id = some (m.record p s att)) :
  ∃ p' s', (a.detach n.id).get? m.id = some (m.record p' s' false)
  := by
  have hmem : m.id ∈ n.toForest.ids := by
    rw [Forest.mem_ids_iff]
    use m, hm
  rw [detach, get?_modify, ← Node.roots_toForest, get?_strike hn hf, if_pos hmem, hr]
  split
  · use none, s
    rfl
  · use p, s
    rfl

end Arena

end Fettle
