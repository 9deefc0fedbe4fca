import Fettle.Arena.InPlace
import Fettle.Proofs.Arena.Reachable
import Fettle.Proofs.Tree.WellFormed

/-!
# Edits that are refused

An edit is made at an *anchor*, an attached node other than the root, and a new node has to be
well formed (`Edit.Admitted`).  What is wrong with the anchor comes before what is wrong with the
new node, and what is wrong with the text of white space comes first (`Edit.Refused`).

In an arena that can be reached exactly the admitted edits are made, and an edit that is not
admitted leaves the arena as it was, with the fault that comes first (`Reachable.perform_iff`).
That an edit which fails changes nothing holds of every arena: the action of an edit comes to
what the edit yields, or stops at its start (`Edit.run_perform`).
-/

namespace Fettle

/-! ### Edits in place -/

/-- The result of an action that leaves the arena as it was if it fails. -/
def settle {α : Type} (a : Arena) : Except Fault (α × Arena) → EStateM.Result Fault Arena α
  | .ok (x, b) => .ok x b
  | .error fault => .error fault a

namespace Action

variable {a : Arena} {id : NodeId} {new : NewNode} {text : String}

/-- What comes after looking for a node is done at its place. -/
theorem run_locate_bind {α : Type} (next : NodeId × Nat → Action α) :
  (locate id >>= next).run a
    = match a.locate id with
      | .error fault => .error fault a
      | .ok place => (next place).run a
  := by
  have hlocate : (locate id).run a
      = (match a.locate id with
        | .error fault => throw fault
        | .ok place => return place : Action (NodeId × Nat)).run a := rfl
  rw [EStateM.run_bind, hlocate]
  cases a.locate id with
  | error fault => rfl
  | ok place => rfl

/-- What comes after a check is done if there is no fault. -/
theorem run_check_bind {α : Type} (fault? : Option Fault) (next : Unit → Action α) :
  (check fault? >>= next).run a
    = match fault? with
      | some fault => .error fault a
      | none => (next ()).run a
  := by
  cases fault? with
  | some fault => rfl
  | none => rfl

theorem run_insertBefore :
  (insertBefore id new).run a = settle a (a.insertBefore id new)
  := by
  rw [insertBefore, run_locate_bind, Arena.insertBefore, Arena.accept]
  cases a.locate id with
  | error fault => rfl
  | ok place =>
    dsimp only
    rw [run_check_bind]
    cases new.fault? with
    | some fault => rfl
    | none => rfl

theorem run_insertAfter :
  (insertAfter id new).run a = settle a (a.insertAfter id new)
  := by
  rw [insertAfter, run_locate_bind, Arena.insertAfter, Arena.accept]
  cases a.locate id with
  | error fault => rfl
  | ok place =>
    dsimp only
    rw [run_check_bind]
    cases new.fault? with
    | some fault => rfl
    | none => rfl

theorem run_remove :
  (remove id).run a = settle a ((a.remove id).map fun b => ((), b))
  := by
  rw [remove, run_locate_bind, Arena.remove]
  cases a.locate id with
  | error fault => rfl
  | ok place => rfl

theorem run_replace :
  (replace id new).run a = settle a (a.replace id new)
  := by
  rw [replace, run_locate_bind, Arena.replace, Arena.accept]
  cases a.locate id with
  | error fault => rfl
  | ok place =>
    dsimp only
    rw [run_check_bind]
    cases new.fault? with
    | some fault => rfl
    | none => rfl

theorem run_setSpaceBefore :
  (setSpaceBefore id text).run a = settle a (a.setSpaceBefore id text)
  := by
  rw [setSpaceBefore, run_check_bind, Arena.setSpaceBefore]
  cases Tree.spaceFault? text with
  | some fault => rfl
  | none =>
    dsimp only
    rw [run_locate_bind]
    cases a.locate id with
    | error fault => rfl
    | ok place =>
      dsimp only
      rw [EStateM.run_bind, EStateM.run_get]
      dsimp only
      cases (a.prevLeaf? id).filter a.isWhitespace with
      | some old =>
        dsimp only
        split
        · rw [EStateM.run_bind, run_remove]
          cases a.remove old <;> rfl
        · split
          · rfl
          · rw [EStateM.run_bind, run_replace]
            cases a.replace old (.whitespace text) <;> rfl
      | none =>
        dsimp only
        split
        · rfl
        · rw [EStateM.run_bind, run_insertBefore]
          cases a.insertBefore id (.whitespace text) <;> rfl

end Action

/-- The action of an edit comes to what the edit yields; if it fails, it has changed nothing. -/
theorem Edit.run_perform (e : Edit) (a : Arena) :
  e.perform.run a = settle a (a.edit e)
  := by
  cases e with
  | insertBefore anchor new =>
    rw [perform, Arena.edit, EStateM.run_bind, Action.run_insertBefore]
    cases a.insertBefore anchor new <;> rfl
  | insertAfter anchor new =>
    rw [perform, Arena.edit, EStateM.run_bind, Action.run_insertAfter]
    cases a.insertAfter anchor new <;> rfl
  | remove id =>
    rw [perform, Arena.edit, EStateM.run_bind, Action.run_remove]
    cases a.remove id <;> rfl
  | replace id new =>
    rw [perform, Arena.edit, EStateM.run_bind, Action.run_replace]
    cases a.replace id new <;> rfl
  | setSpaceBefore id text => apply Action.run_setSpaceBefore

/-! ### Anchors -/

namespace Arena

/-- A node at which an edit can be made: it is attached and not the root. -/
def IsAnchor (a : Arena) (id : NodeId) : Prop :=
  a.isAttached id = true ∧ id ≠ a.root

/-- A number that is not that of an anchor, and why. -/
inductive NotAnchor (a : Arena) : NodeId → Fault → Prop where
  | unknown {id : NodeId} (h : a.size ≤ id) : NotAnchor a id (.unknownNode id)
  | detached {id : NodeId} (hlt : id < a.size) (h : a.isAttached id = false) :
    NotAnchor a id (.detached id)
  | root (h : a.isAttached a.root = true) : NotAnchor a a.root (.rootAnchor a.root)

namespace Represents

variable {a : Arena} {t : Tree} (h : a.Represents t) (ht : t.Sound) {id : NodeId} {fault : Fault}

include h ht

theorem isAttached_eq (id : NodeId) :
  a.isAttached id = t.isAttached id
  := by
  rw [Bool.eq_iff_iff, h.isAttached_iff ht, Tree.isAttached_iff]
  rfl

theorem anchorFault?_eq_none_iff :
  t.anchorFault? id = none ↔ a.IsAnchor id
  := by
  rw [ht.anchorFault?_eq_none_iff, IsAnchor, h.isAttached_iff ht, h.root, Tree.ids_attached,
    List.mem_cons]
  constructor
  · intro hid
    use .inr hid
    rintro rfl
    exact ht.root_notMem_children hid
  · rintro ⟨hid, hroot⟩
    exact hid.resolve_left hroot

theorem anchorFault?_eq_some_iff :
  t.anchorFault? id = some fault ↔ a.NotAnchor id fault
  := by
  constructor
  · intro hf
    rw [Tree.anchorFault?, ← h.size, ← h.isAttached_eq ht, ← h.root] at hf
    split at hf
    · rename_i hsize
      obtain rfl := Option.some.inj hf
      exact .unknown hsize
    · rename_i hsize
      split at hf
      · rename_i hatt
        obtain rfl := Option.some.inj hf
        exact .detached (Nat.lt_of_not_le hsize) (Bool.not_eq_true' _ ▸ hatt)
      · rename_i hatt
        rw [Bool.not_eq_true', Bool.not_eq_false] at hatt
        split at hf
        · rename_i hroot
          obtain rfl := Option.some.inj hf
          subst hroot
          exact .root hatt
        · cases hf
  · intro hf
    rw [Tree.anchorFault?, ← h.size, ← h.isAttached_eq ht, ← h.root]
    cases hf with
    | unknown hsize => rw [if_pos hsize]
    | detached hlt hatt => rw [if_neg (Nat.not_le_of_lt hlt), hatt]; rfl
    | root hatt =>
      have hlt : a.root < a.size := by
        rw [isAttached, Option.any_eq_true] at hatt
        obtain ⟨r, hr, -⟩ := hatt
        apply lt_size_of_get? hr
      rw [if_neg (Nat.not_le_of_lt hlt), hatt, if_pos rfl]
      rfl

end Represents

end Arena

/-! ### Edits that are made and edits that are refused -/

/-- The edits that can be made at an arena. -/
def Edit.Admitted (a : Arena) : Edit → Prop
  | .insertBefore id new | .insertAfter id new | .replace id new =>
    a.IsAnchor id ∧ new.WellFormed
  | .remove id => a.IsAnchor id
  | .setSpaceBefore id text => (∀ c ∈ text.toList, Text.isBlank c = true) ∧ a.IsAnchor id

/-- The edits that cannot be made at an arena, and what comes first of what is wrong. -/
def Edit.Refused (a : Arena) (fault : Fault) : Edit → Prop
  | .insertBefore id new | .insertAfter id new | .replace id new =>
    a.NotAnchor id fault ∨ a.IsAnchor id ∧ new.FirstMisfits fault
  | .remove id => a.NotAnchor id fault
  | .setSpaceBefore id text =>
    (∃ c ∈ text.toList, Text.isBlank c = false) ∧ fault = .invalidWhitespace text
      ∨ (∀ c ∈ text.toList, Text.isBlank c = true) ∧ a.NotAnchor id fault

/-- What is wrong with an edit of a tree. -/
def Edit.fault? (t : Tree) : Edit → Option Fault
  | .insertBefore id new | .insertAfter id new | .replace id new =>
    (t.anchorFault? id).or new.fault?
  | .remove id => t.anchorFault? id
  | .setSpaceBefore id text => (Tree.spaceFault? text).or (t.anchorFault? id)

/-- An edit with which something is wrong is refused. -/
theorem Tree.edit_of_fault? {t : Tree} {e : Edit} {fault : Fault} (h : e.fault? t = some fault) :
  t.edit e = .error fault
  := by
  cases e with
  | insertBefore id new =>
    rw [Edit.fault?] at h
    rw [edit, insertBefore, h]
    rfl
  | insertAfter id new =>
    rw [Edit.fault?] at h
    rw [edit, insertAfter, h]
    rfl
  | remove id =>
    rw [Edit.fault?] at h
    rw [edit, remove, h]
    rfl
  | replace id new =>
    rw [Edit.fault?] at h
    rw [edit, replace, h]
    rfl
  | setSpaceBefore id text =>
    rw [Edit.fault?] at h
    rw [edit, setSpaceBefore, h]

/-- The leaf that white space would be has no fault if the text is not empty. -/
theorem fault?_whitespace {text : String} (h : Tree.spaceFault? text = none) (hne : text ≠ "") :
  (NewNode.whitespace text).fault? = none
  := by
  rw [Tree.spaceFault?, if_neg hne] at h
  rw [Node.fault?, Node.toForest, Forest.fault?, h]
  rfl

/-- An edit of a sound tree with which nothing is wrong is made.  The edits that setting white
space comes to are never refused. -/
theorem Tree.exists_edit {t : Tree} (ht : t.Sound) {e : Edit} (h : e.fault? t = none) :
  ∃ r, t.edit e = .ok r
  := by
  cases e with
  | insertBefore id new =>
    rw [Edit.fault?] at h
    rw [edit, insertBefore, h]
    exact ⟨_, rfl⟩
  | insertAfter id new =>
    rw [Edit.fault?] at h
    rw [edit, insertAfter, h]
    exact ⟨_, rfl⟩
  | remove id =>
    rw [Edit.fault?] at h
    rw [edit, remove, h]
    exact ⟨_, rfl⟩
  | replace id new =>
    rw [Edit.fault?] at h
    rw [edit, replace, h]
    exact ⟨_, rfl⟩
  | setSpaceBefore id text =>
    rw [Edit.fault?] at h
    rw [edit, setSpaceBefore, h]
    rw [Option.or_eq_none_iff] at h
    dsimp only
    split
    · rename_i old hold
      have hid := ht.anchorFault?_eq_none_iff.mp h.2
      have hleaf := ht.mem_of_prevLeaf? (Option.filter_eq_some_iff.mp hold).1
      have hanchor : t.anchorFault? old.id = none := by
        obtain ⟨before, after, hleaves⟩ := List.append_of_mem hleaf
        apply ht.anchorFault?_eq_none_iff.mpr (Sound.mem_children hleaves)
      split
      · rw [remove, hanchor]
        exact ⟨_, rfl⟩
      · rename_i hne
        split
        · exact ⟨_, rfl⟩
        · rw [replace, hanchor, fault?_whitespace h.1 hne]
          exact ⟨_, rfl⟩
    · split
      · exact ⟨_, rfl⟩
      · rename_i hne
        rw [insertBefore, h.2, fault?_whitespace h.1 hne]
        exact ⟨_, rfl⟩

theorem spaceFault?_eq_none_iff {text : String} :
  Tree.spaceFault? text = none ↔ ∀ c ∈ text.toList, Text.isBlank c = true
  := by
  rw [Tree.spaceFault?]
  split
  · rename_i hs
    subst hs
    simp
  · rename_i hs
    rw [leafFault?_eq_none_iff, List.all_eq_true]
    simp [hs, Kind.isComposite]

theorem spaceFault?_eq_some_iff {text : String} {fault : Fault} :
  Tree.spaceFault? text = some fault
    ↔ (∃ c ∈ text.toList, Text.isBlank c = false) ∧ fault = .invalidWhitespace text
  := by
  rw [Tree.spaceFault?]
  split
  · rename_i hs
    subst hs
    simp
  · rename_i hs
    have hown : leafFault? .whitespace text = (NewNode.whitespace text).ownFault? := rfl
    rw [hown, Node.ownFault?_eq_some_iff]
    constructor
    · intro h
      cases h with
      | compositeKindAsLeaf hk => cases hk
      | emptyLeaf hk => exact absurd rfl hs
      | invalidWhitespace hc hblank => exact ⟨⟨_, hc, hblank⟩, rfl⟩
    · rintro ⟨⟨c, hc, hblank⟩, rfl⟩
      exact .invalidWhitespace hc hblank

namespace Arena

variable {a : Arena} {t : Tree}

theorem Represents.fault?_eq_none_iff (h : a.Represents t) (ht : t.Sound) {e : Edit} :
  e.fault? t = none ↔ e.Admitted a
  := by
  cases e with
  | insertBefore id new | insertAfter id new | replace id new =>
    rw [Edit.fault?, Edit.Admitted, Option.or_eq_none_iff, h.anchorFault?_eq_none_iff ht,
      Node.fault?_eq_none_iff]
  | remove id => rw [Edit.fault?, Edit.Admitted, h.anchorFault?_eq_none_iff ht]
  | setSpaceBefore id text =>
    rw [Edit.fault?, Edit.Admitted, Option.or_eq_none_iff, h.anchorFault?_eq_none_iff ht,
      spaceFault?_eq_none_iff]

theorem Represents.fault?_eq_some_iff (h : a.Represents t) (ht : t.Sound) {e : Edit}
    {fault : Fault} :
  e.fault? t = some fault ↔ e.Refused a fault
  := by
  cases e with
  | insertBefore id new | insertAfter id new | replace id new =>
    rw [Edit.fault?, Edit.Refused, Option.or_eq_some_iff, h.anchorFault?_eq_some_iff ht,
      h.anchorFault?_eq_none_iff ht, Node.fault?_eq_some_iff]
  | remove id => rw [Edit.fault?, Edit.Refused, h.anchorFault?_eq_some_iff ht]
  | setSpaceBefore id text =>
    rw [Edit.fault?, Edit.Refused, Option.or_eq_some_iff, spaceFault?_eq_some_iff,
      spaceFault?_eq_none_iff, h.anchorFault?_eq_some_iff ht]

/-- In an arena that can be reached exactly the admitted edits are made.  An edit fails exactly
with the fault that comes first of what is wrong with it, and the arena is then as it was. -/
theorem Reachable.perform_iff (h : a.Reachable) (e : Edit) :
  ((∃ o b, e.perform.run a = .ok o b) ↔ e.Admitted a)
    ∧ ∀ fault b, e.perform.run a = .error fault b ↔ b = a ∧ e.Refused a fault
  := by
  obtain ⟨t, ht, hsound⟩ := h.exists_represents
  rw [← ht.fault?_eq_none_iff hsound, e.run_perform a]
  simp only [← ht.fault?_eq_some_iff hsound]
  cases hfault : e.fault? t with
  | some fault =>
    rw [(ht.edit hsound e).eq_error (Tree.edit_of_fault? hfault), settle]
    simp [eq_comm, and_comm]
  | none =>
    obtain ⟨r, hr⟩ := Tree.exists_edit hsound hfault
    obtain ⟨⟨o, b⟩, hb, -⟩ := (ht.edit hsound e).exists_left hr
    rw [hb, settle]
    simp

/-- White space with a letter deep inside a new node is refused, and white space before a leaf is
set. -/
theorem perform_iff_of_two :
  let wrong : Edit := .insertBefore 2 (.branch () .element none
    (.leaf () .token "x" (.branch () .block none (.leaf () .whitespace " y" .nil) .nil)))
  let right : Edit := .setSpaceBefore 2 " "
  ∃ a, ofLeaves [(.identifier, "a"), (.identifier, "b")] = .ok a
    ∧ wrong.perform.run a = .error (.invalidWhitespace " y") a
    ∧ wrong.Refused a (.invalidWhitespace " y")
    ∧ (∃ o b, right.perform.run a = .ok o b) ∧ right.Admitted a
  := by
  intro wrong right
  have hreach {a : Arena} (ha : ofLeaves [(.identifier, "a"), (.identifier, "b")] = .ok a) :
      a.Reachable := .built ha
  refine ⟨_, rfl, rfl, ?_, ⟨_, _, rfl⟩, ?_⟩
  · exact (((Reachable.perform_iff (hreach rfl) wrong).2 _ _).mp rfl).2
  · exact (Reachable.perform_iff (hreach rfl) right).1.mp ⟨_, _, rfl⟩

end Arena

end Fettle
