import Fettle.Proofs.Arena.Content

/-!
# Nodes last

No edit changes what a node is by itself, be the node attached, taken out by the edit or taken out
before: its number goes on to stand for the same kind, construct and text (`Lasts.edit`).  This
holds of every arena, since the steps of an edit write nothing but links and flags into records
that are there, and put new records behind them.
-/

namespace Fettle

namespace Arena

/-- The nodes of an arena are by themselves the same in another one, which may have more. -/
structure Lasts (a b : Arena) : Prop where
  size_le : a.size ≤ b.size
  entryOf?_eq : ∀ id < a.size, b.entryOf? id = a.entryOf? id

namespace Lasts

variable {a b c : Arena}

theorem refl (a : Arena) :
  a.Lasts a
  := by
  constructor
  · apply Nat.le_refl
  · intro id _
    rfl

theorem trans (hab : a.Lasts b) (hbc : b.Lasts c) :
  a.Lasts c
  := by
  constructor
  · apply Nat.le_trans hab.size_le hbc.size_le
  · intro id hid
    rw [hbc.entryOf?_eq id (Nat.lt_of_lt_of_le hid hab.size_le), hab.entryOf?_eq id hid]

/-! ### Steps -/

theorem modify {f : Record → Record} (hkind : ∀ r, (f r).kind = r.kind)
    (hlabel : ∀ r, (f r).label = r.label) (htext : ∀ r, (f r).text = r.text) (a : Arena)
    (id : NodeId) :
  a.Lasts (a.modify id f)
  := by
  constructor
  · exact Nat.le_of_eq (a.size_modify id f).symm
  · intro j _
    rw [entryOf?, entryOf?, get?_modify]
    split
    · rw [Option.map_map]
      congr 1
      funext r
      rw [Function.comp_apply, hkind, hlabel, htext]
    · rfl

theorem push (a : Arena) (r : Record) :
  a.Lasts (a.push r)
  := by
  constructor
  · rw [size_push]
    apply Nat.le_succ
  · intro j hj
    rw [entryOf?, get?_push, if_neg (Nat.ne_of_lt hj), entryOf?]

theorem adopt (a : Arena) (parent child : NodeId) :
  a.Lasts (a.adopt parent child)
  := by
  apply modify <;> intro r <;> rfl

theorem allocUnder (a : Arena) (parent : NodeId) (slot : Nat) (plan : Draft) :
  a.Lasts (a.allocUnder parent slot plan)
  := by
  induction plan generalizing a parent slot with
  | nil => apply refl
  | leaf i k x rest ih =>
    rw [Arena.allocUnder]
    apply (push a _).trans
    apply (adopt _ parent a.size).trans
    apply ih
  | branch i k l cs rest ihc ih =>
    rw [Arena.allocUnder]
    apply (push a _).trans
    apply (ihc _ a.size 0).trans
    apply (adopt _ parent a.size).trans
    apply ih

theorem alloc (a : Arena) (new : NewNode) (parent : NodeId) (slot : Nat) :
  a.Lasts (a.alloc new parent slot).2
  := by
  cases new with
  | leaf i k x => apply push
  | branch i k l cs =>
    apply (push a _).trans
    apply allocUnder

theorem setChildren (a : Arena) (parent : NodeId) (children : List NodeId) :
  a.Lasts (a.setChildren parent children)
  := by
  apply modify <;> intro r <;> rfl

theorem setSlots (a : Arena) (slot : Nat) (ids : List NodeId) :
  a.Lasts (a.setSlots slot ids)
  := by
  induction ids generalizing a slot with
  | nil => apply refl
  | cons id ids ih =>
    rw [Arena.setSlots]
    apply trans _ (ih _ (slot + 1))
    apply modify <;> intro r <;> rfl

theorem strike (a : Arena) (n : Nat) (stack : List NodeId) :
  a.Lasts (a.strike n stack)
  := by
  induction n generalizing a stack with
  | zero => cases stack <;> apply refl
  | succ n ih =>
    cases stack with
    | nil => apply refl
    | cons id stack =>
      rw [Arena.strike]
      apply trans _ (ih _ _)
      apply modify <;> intro r <;> rfl

theorem detach (a : Arena) (id : NodeId) :
  a.Lasts (a.detach id)
  := by
  rw [Arena.detach]
  apply (strike a a.size [id]).trans
  apply modify <;> intro r <;> rfl

theorem insertAt (a : Arena) (parent : NodeId) (slot : Nat) (new : NewNode) :
  a.Lasts (a.insertAt parent slot new).2
  := by
  rw [Arena.insertAt]
  apply (alloc a new parent slot).trans
  apply (setChildren _ parent _).trans
  apply setSlots

/-! ### Edits -/

variable {o : Option NodeId} {e : Edit}

theorem remove {id : NodeId} (h : a.remove id = .ok b) :
  a.Lasts b
  := by
  obtain ⟨place, -, rfl⟩ := Except.map_eq_ok_iff.mp h
  apply trans _ (detach _ id)
  apply (setChildren a place.1 _).trans
  apply setSlots

theorem replace {id : NodeId} {new : NewNode} {r : NodeId × Arena}
    (h : a.replace id new = .ok r) :
  a.Lasts r.2
  := by
  obtain ⟨place, -, rfl⟩ := Except.map_eq_ok_iff.mp h
  apply (alloc a new place.1 place.2).trans
  apply (setChildren _ place.1 _).trans
  apply detach

theorem insertBefore {id : NodeId} {new : NewNode} {r : NodeId × Arena}
    (h : a.insertBefore id new = .ok r) :
  a.Lasts r.2
  := by
  obtain ⟨place, -, rfl⟩ := Except.map_eq_ok_iff.mp h
  apply insertAt

theorem insertAfter {id : NodeId} {new : NewNode} {r : NodeId × Arena}
    (h : a.insertAfter id new = .ok r) :
  a.Lasts r.2
  := by
  obtain ⟨place, -, rfl⟩ := Except.map_eq_ok_iff.mp h
  apply insertAt

theorem setSpaceBefore {id : NodeId} {text : String}
    (h : a.setSpaceBefore id text = .ok (o, b)) :
  a.Lasts b
  := by
  rw [Arena.setSpaceBefore] at h
  split at h
  · cases h
  · split at h
    · cases h
    · split at h
      · split at h
        · obtain ⟨c, hc, heq⟩ := Except.map_eq_ok_iff.mp h
          obtain ⟨-, rfl⟩ := Prod.mk.inj heq
          apply remove hc
        · split at h
          · obtain ⟨-, rfl⟩ := Prod.mk.inj (Except.ok.inj h)
            apply refl
          · obtain ⟨r, hr, heq⟩ := Except.map_eq_ok_iff.mp h
            obtain ⟨-, rfl⟩ := Prod.mk.inj heq
            apply replace hr
      · split at h
        · obtain ⟨-, rfl⟩ := Prod.mk.inj (Except.ok.inj h)
          apply refl
        · obtain ⟨r, hr, heq⟩ := Except.map_eq_ok_iff.mp h
          obtain ⟨-, rfl⟩ := Prod.mk.inj heq
          apply insertBefore hr

/-- No edit changes what the nodes are by themselves. -/
theorem edit (h : a.edit e = .ok (o, b)) :
  a.Lasts b
  := by
  cases e with
  | insertBefore id new =>
    obtain ⟨r, hr, heq⟩ := Except.map_eq_ok_iff.mp h
    obtain ⟨-, rfl⟩ := Prod.mk.inj heq
    apply insertBefore hr
  | insertAfter id new =>
    obtain ⟨r, hr, heq⟩ := Except.map_eq_ok_iff.mp h
    obtain ⟨-, rfl⟩ := Prod.mk.inj heq
    apply insertAfter hr
  | remove id =>
    obtain ⟨c, hc, heq⟩ := Except.map_eq_ok_iff.mp h
    obtain ⟨-, rfl⟩ := Prod.mk.inj heq
    apply remove hc
  | replace id new =>
    obtain ⟨r, hr, heq⟩ := Except.map_eq_ok_iff.mp h
    obtain ⟨-, rfl⟩ := Prod.mk.inj heq
    apply replace hr
  | setSpaceBefore id text => apply setSpaceBefore h

end Lasts

end Arena

end Fettle
