import Fettle.Proofs.Arena.Exchange
import Fettle.Proofs.Arena.Walk

/-!
# Edits of an arena that stands for a tree

An edit of the arena `Agrees` with the edit of the tree: both are refused with the same fault, or
both yield the same number, and the new arena stands for the new tree (`Represents.edit`).  Over
a list of edits the arena keeps standing for a sound tree (`Represents.edits`).
-/

namespace Fettle

/-- Two results agree if they are the same fault, or values that are related. -/
inductive Agrees {α β : Type} (R : α → β → Prop) : Except Fault α → Except Fault β → Prop where
  | error (fault : Fault) : Agrees R (.error fault) (.error fault)
  | ok {x : α} {y : β} (h : R x y) : Agrees R (.ok x) (.ok y)

theorem Agrees.map {α β γ δ : Type} {R : α → β → Prop} {S : γ → δ → Prop} {f : α → γ} {g : β → δ}
    {x : Except Fault α} {y : Except Fault β} (h : Agrees R x y)
    (hfg : ∀ x y, R x y → S (f x) (g y)) :
  Agrees S (x.map f) (y.map g)
  := by
  cases h with
  | error fault => apply error
  | ok h =>
    apply ok
    apply hfg _ _ h

section

variable {α β : Type} {R : α → β → Prop} {x : Except Fault α} {y : Except Fault β}
  (h : Agrees R x y)

include h

theorem Agrees.eq_error {fault : Fault} (hy : y = .error fault) :
  x = .error fault
  := by
  cases h with
  | error fault' => exact congrArg _ (Except.error.inj hy)
  | ok _ => cases hy

theorem Agrees.eq_error_iff {fault : Fault} :
  x = .error fault ↔ y = .error fault
  := by
  cases h with
  | error fault' => simp
  | ok _ => simp

theorem Agrees.exists_left {v : β} (hy : y = .ok v) :
  ∃ u, x = .ok u ∧ R u v
  := by
  cases h with
  | error _ => cases hy
  | ok hR =>
    obtain rfl := Except.ok.inj hy
    exact ⟨_, rfl, hR⟩

theorem Agrees.exists_right {u : α} (hx : x = .ok u) :
  ∃ v, y = .ok v ∧ R u v
  := by
  cases h with
  | error _ => cases hx
  | ok hR =>
    obtain rfl := Except.ok.inj hx
    exact ⟨_, rfl, hR⟩

end

namespace Arena

/-- The results of an edit are the same number, and an arena that stands for the tree. -/
def Edited {ι : Type} (x : ι × Arena) (y : ι × Tree) : Prop :=
  x.1 = y.1 ∧ x.2.Represents y.2

theorem Edited.map_some {x : Except Fault (NodeId × Arena)} {y : Except Fault (NodeId × Tree)}
    (h : Agrees Edited x y) :
  Agrees (@Edited (Option NodeId)) (x.map fun r => (some r.1, r.2))
    (y.map fun r => (some r.1, r.2))
  := by
  apply h.map
  intro x y hxy
  exact ⟨congrArg some hxy.1, hxy.2⟩

theorem Edited.map_none {x : Except Fault Arena} {y : Except Fault Tree}
    (h : Agrees Represents x y) :
  Agrees (@Edited (Option NodeId)) (x.map fun b => (none, b)) (y.map fun u => (none, u))
  := by
  apply h.map
  intro b u hbu
  exact ⟨rfl, hbu⟩

namespace Represents

variable {a b : Arena} {t : Tree} (h : a.Represents t) (ht : t.Sound)

include h ht

/-- The children of a branch of the tree. -/
theorem gap {fr : Frame} {frs : List Frame} {f : Forest NodeId}
    (hall : t.attached = .within (fr :: frs) f) :
  a.Gap fr.id f
  := by
  obtain ⟨hchildren, hlaid⟩ := h.laid_gap hall
  have hd := ht.nodup_attached
  rw [hall, Forest.within] at hd
  have hfill : (fr.fill f).ids.Nodup := Forest.sublist_ids_within.nodup hd
  use hlaid, hchildren
  · rw [Forest.ids_fill, List.nodup_append, List.nodup_cons, List.nodup_append] at hfill
    exact hfill.2.1.2.1
  · intro hm
    exact (Forest.notMem_of_nodup_fill hfill hm).2.1 rfl

/-- An exchange among the children of a branch is one in the tree. -/
theorem exchange {u : Tree} {fr : Frame} {frs : List Frame} {f g cut : Forest NodeId}
    {count : Nat} (hall : t.attached = .within (fr :: frs) f)
    (hex : a.Exchange b fr.id f g cut count) (hu : u.attached = .within (fr :: frs) g)
    (hremoved : u.removed = cut ++ t.removed) (hsize : u.size = t.size + count) :
  b.Represents u
  := by
  have hfr : fr.id ∈ t.attached.ids := by
    rw [hall, Forest.within]
    apply Forest.sublist_ids_within.subset
    simp
  have hf {j : NodeId} (hj : j ∈ f.ids) : j ∈ t.attached.ids := by
    rw [hall]
    apply Forest.sublist_ids_within.subset hj
  constructor
  · rw [hex.root, h.root]
  · rw [hex.size, h.size, hsize]
  · rw [hu]
    apply h.laid_exchange ht hall _ hex.parent hex.laid
    intro j hj
    apply hex.same
    rw [h.size]
    apply ht.lt_size hj
  · intro n hn
    rw [hremoved, Forest.nodes_append, List.mem_append] at hn
    rcases hn with hn | hn
    · apply hex.struck n hn
    · obtain ⟨p, s, hr⟩ := h.struck n hn
      have hid : n.id ∈ t.removed.ids := by
        rw [Forest.mem_ids_iff]
        use n, hn
      have hout : n.id ∉ t.attached.ids := fun hm => ht.notMem_removed hm hid
      use p, s
      rw [hex.same _ (lt_size_of_get? hr) (fun hm => hout (hf hm))]
      · exact hr
      · intro heq
        exact hout (heq ▸ hfr)

/-- An edit is refused alike, or is made at a node inside the root. -/
theorem accept_cases (id : NodeId) (new : NewNode) :
  (∃ fault, a.accept id new = .error fault ∧ (t.anchorFault? id).or new.fault? = some fault)
    ∨ ∃ c : t.Focus id, id ∈ t.children.ids
      ∧ a.accept id new = .ok (c.parent.id, c.left.roots.length)
      ∧ (t.anchorFault? id).or new.fault? = none
  := by
  cases hanchor : t.anchorFault? id with
  | some fault =>
    left
    use fault
    rw [accept, h.locate_of_fault ht hanchor]
    exact ⟨rfl, rfl⟩
  | none =>
    have hid := ht.anchorFault?_eq_none_iff.mp hanchor
    obtain ⟨c⟩ := Tree.exists_focus hid
    cases hnew : new.fault? with
    | some fault =>
      left
      use fault
      rw [accept, h.locate_focus c, hnew]
      exact ⟨rfl, rfl⟩
    | none =>
      right
      use c, hid
      rw [accept, h.locate_focus c, hnew]
      exact ⟨rfl, rfl⟩

/-! ### The edits -/

theorem insertBefore (anchor : NodeId) (new : NewNode) :
  Agrees Edited (a.insertBefore anchor new) (t.insertBefore anchor new)
  := by
  rw [Arena.insertBefore, Tree.insertBefore]
  rcases h.accept_cases ht anchor new with ⟨fault, ha, htree⟩ | ⟨c, hid, ha, htree⟩
  · rw [ha, htree]
    apply Agrees.error
  · rw [ha, htree]
    apply Agrees.ok
    constructor
    · rw [← h.size]
      apply alloc_fst
    · apply h.exchange ht c.attached_eq ((h.gap ht c.attached_eq).insertAt new)
      · rw [Tree.spliced, Tree.attached, c.attached_splice ht hid, Forest.append_assoc, h.size]
      · rfl
      · simp [Tree.spliced]

theorem insertAfter (anchor : NodeId) (new : NewNode) :
  Agrees Edited (a.insertAfter anchor new) (t.insertAfter anchor new)
  := by
  rw [Arena.insertAfter, Tree.insertAfter]
  rcases h.accept_cases ht anchor new with ⟨fault, ha, htree⟩ | ⟨c, hid, ha, htree⟩
  · rw [ha, htree]
    apply Agrees.error
  · have hall := c.attached_eq
    rw [← Forest.append_assoc] at hall
    have hslot : c.left.roots.length + 1 = (c.left ++ c.node.toForest).roots.length := by
      simp
    rw [ha, htree]
    apply Agrees.ok
    constructor
    · rw [← h.size]
      apply alloc_fst
    · dsimp only
      rw [hslot]
      apply h.exchange ht hall ((h.gap ht hall).insertAt new)
      · rw [Tree.spliced, Tree.attached, c.attached_splice ht hid, Forest.append_assoc,
          Forest.append_assoc, h.size]
      · rfl
      · simp [Tree.spliced]

theorem remove (id : NodeId) :
  Agrees Represents (a.remove id) (t.remove id)
  := by
  rw [Arena.remove, Tree.remove]
  cases hanchor : t.anchorFault? id with
  | some fault =>
    rw [h.locate_of_fault ht hanchor]
    apply Agrees.error
  | none =>
    have hid := ht.anchorFault?_eq_none_iff.mp hanchor
    obtain ⟨c⟩ := Tree.exists_focus hid
    have hremove := (h.gap ht c.attached_eq).remove
    rw [c.id_node] at hremove
    rw [h.locate_focus c]
    apply Agrees.ok
    rw [Tree.retire, c.find?_eq ht hid]
    apply h.exchange ht c.attached_eq hremove
    · apply c.attached_splice ht hid
    · rfl
    · rfl

theorem replace (id : NodeId) (new : NewNode) :
  Agrees Edited (a.replace id new) (t.replace id new)
  := by
  rw [Arena.replace, Tree.replace]
  rcases h.accept_cases ht id new with ⟨fault, ha, htree⟩ | ⟨c, hid, ha, htree⟩
  · rw [ha, htree]
    apply Agrees.error
  · have hreplace := (h.gap ht c.attached_eq).replace new rfl
    have hadded := alloc_fst a new c.parent.id c.left.roots.length
    rw [c.id_node] at hreplace
    rw [ha, htree]
    apply Agrees.ok
    constructor
    · rw [← h.size]
      exact hadded
    · rw [Tree.retire, c.find?_eq ht hid]
      dsimp only
      rw [hadded]
      apply h.exchange ht c.attached_eq hreplace
      · rw [h.size]
        apply c.attached_splice ht hid
      · rfl
      · simp [Tree.spliced]

theorem setSpaceBefore (id : NodeId) (text : String) :
  Agrees Edited (a.setSpaceBefore id text) (t.setSpaceBefore id text)
  := by
  rw [Arena.setSpaceBefore, Tree.setSpaceBefore]
  cases Tree.spaceFault? text with
  | some fault => apply Agrees.error
  | none =>
    rw [Option.none_or]
    cases hanchor : t.anchorFault? id with
    | some fault =>
      rw [h.locate_of_fault ht hanchor]
      apply Agrees.error
    | none =>
      have hid := ht.anchorFault?_eq_none_iff.mp hanchor
      obtain ⟨c⟩ := Tree.exists_focus hid
      rw [h.locate_focus c]
      dsimp only
      rw [h.spaceBefore_eq ht hid]
      cases hold : (t.prevLeaf? id).filter fun l => l.kind = .whitespace with
      | some old =>
        have hleaf := ht.mem_of_prevLeaf? (Option.filter_eq_some_iff.mp hold).1
        simp only [Option.map_some, h.leafText?_leaf ht hleaf, Option.some.injEq]
        split
        · apply Edited.map_none (h.remove ht old.id)
        · split
          · apply Agrees.ok
            exact ⟨rfl, h⟩
          · apply Edited.map_some (h.replace ht old.id _)
      | none =>
        simp only [Option.map_none]
        split
        · apply Agrees.ok
          exact ⟨rfl, h⟩
        · apply Edited.map_some (h.insertBefore ht id _)

/-- Every edit of the arena agrees with that of the tree. -/
theorem edit (e : Edit) :
  Agrees Edited (a.edit e) (t.edit e)
  := by
  cases e with
  | insertBefore anchor new => apply Edited.map_some (h.insertBefore ht anchor new)
  | insertAfter anchor new => apply Edited.map_some (h.insertAfter ht anchor new)
  | remove id => apply Edited.map_none (h.remove ht id)
  | replace id new => apply Edited.map_some (h.replace ht id new)
  | setSpaceBefore id text => apply h.setSpaceBefore ht id text

end Represents

end Arena

/-- An edit of a sound tree yields a sound tree. -/
theorem Tree.Sound.edit {t u : Tree} (h : t.Sound) {e : Edit} {o : Option NodeId}
    (he : t.edit e = .ok (o, u)) :
  u.Sound
  := by
  cases e with
  | insertBefore anchor new =>
    obtain ⟨r, hr, heq⟩ := Except.map_eq_ok_iff.mp he
    obtain ⟨-, rfl⟩ := Prod.mk.inj heq
    apply h.insertBefore hr
  | insertAfter anchor new =>
    obtain ⟨r, hr, heq⟩ := Except.map_eq_ok_iff.mp he
    obtain ⟨-, rfl⟩ := Prod.mk.inj heq
    apply h.insertAfter hr
  | remove id =>
    obtain ⟨r, hr, heq⟩ := Except.map_eq_ok_iff.mp he
    obtain ⟨-, rfl⟩ := Prod.mk.inj heq
    apply h.remove hr
  | replace id new =>
    obtain ⟨r, hr, heq⟩ := Except.map_eq_ok_iff.mp he
    obtain ⟨-, rfl⟩ := Prod.mk.inj heq
    apply h.replace hr
  | setSpaceBefore id text => apply h.setSpaceBefore he

namespace Arena

/-- After any edits, refused ones among them, an arena stands for a sound tree. -/
theorem Represents.edits {a : Arena} {t : Tree} (h : a.Represents t) (ht : t.Sound)
    (es : List Edit) :
  ∃ u : Tree, (a.edits es).Represents u ∧ u.Sound
  := by
  induction es generalizing a t with
  | nil => exact ⟨t, h, ht⟩
  | cons e es ih =>
    rw [Arena.edits]
    have hagrees := h.edit ht e
    split
    · rename_i o b hb
      cases hu : t.edit e with
      | error fault =>
        rw [hb, hu] at hagrees
        cases hagrees
      | ok y =>
        rw [hb, hu] at hagrees
        obtain ⟨-, hbu⟩ : Edited (o, b) y := by
          cases hagrees
          assumption
        apply ih hbu (ht.edit hu)
    · apply ih h ht

end Arena

end Fettle
