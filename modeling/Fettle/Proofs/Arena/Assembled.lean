import Fettle.Proofs.Arena.Content
import Fettle.Proofs.Tree.Described

/-!
# Arenas of construction events

The leaves of what is built are the tokens of the events in order, those without text left out.
Events that close every branch they open, the last one being that of the root, make an arena
without fault (`Arena.exists_ofEvents`), so no other knowledge of the builder is needed to say what
is in it.

An arena `Stores` a tree if its records are those of the nodes of the tree, in pre-order.  The
arena of some events stores the tree that they describe (`Arena.ofEvents_iff_balanced`).
-/

namespace Fettle

namespace Arena

/-- The leaves of a tree as they are read off an arena that stands for it. -/
theorem Represents.tokens_eq {a : Arena} {t : Tree} (h : a.Represents t) (ht : t.Sound) :
  a.leaves.map (fun id => (a.kind id, a.leafText? id))
    = t.attached.tokens.map fun l => (l.1, some l.2)
  := by
  rw [h.leaves_eq ht, Tree.entries, Forest.leaves_of_entries ht.valid, Forest.tokens, List.map_map,
    List.map_map]
  apply List.map_congr_left
  intro l hl
  obtain ⟨r, hr, hkind, -, -⟩ := h.get?_leaf ht hl
  have htext := h.leafText?_leaf ht hl
  rw [Function.comp_apply, Function.comp_apply, htext, kind, hr, Option.map_some, hkind]
  rfl

/-- Events that close what they open make an arena without fault of their tokens. -/
theorem exists_ofEvents {es : List Event} (h : Progress.fresh.run es = .ok .closed) :
  ∃ a, ofEvents es = .ok a ∧ a.fault? = none
    ∧ a.text = String.join ((Event.tokens es).map Prod.snd)
    ∧ a.leaves.map (fun id => (a.kind id, a.leafText? id))
      = (Event.tokens es).map fun l => (l.1, some l.2)
  := by
  obtain ⟨t, ht, htokens⟩ := Tree.exists_ofEvents h
  obtain ⟨a, ha, hrepresents⟩ := (ofEvents_agrees es).exists_left ht
  have hsound := Tree.Sound.ofEvents ht
  use a, ha, hrepresents.fault?_eq_none hsound
  rw [hrepresents.text_eq hsound, hrepresents.tokens_eq hsound, htokens]
  refine ⟨?_, rfl⟩
  rw [Tree.text, Forest.text_eq_join_leaves, ← htokens, Forest.tokens, List.map_map]
  rfl

/-- The records of an arena are those of the nodes of a tree, numbered in pre-order from the
root on. -/
structure Stores (a : Arena) (tree : NewNode) : Prop where
  root : a.root = Tree.root
  size : a.size = tree.toForest.size
  laid : a.Laid none 0 (tree.toForest.number Tree.root)

/-- An arena that stands for a fresh tree stores it. -/
theorem Represents.stores {a : Arena} {k : Kind} {l : Option String} {cs : Draft}
    (h : a.Represents (.ofRoot k l cs)) :
  a.Stores (.branch () k l cs)
  := by
  constructor
  · exact h.root
  · rw [h.size, Node.toForest, Forest.size, Forest.size]
    rfl
  · exact h.laid

/-- The builder makes an arena of exactly the events that are balanced, which are those that
describe a tree, and stores this tree; what it says of other events is the first fault. -/
theorem ofEvents_iff_balanced (es : List Event) :
  ((∃ a, ofEvents es = .ok a) ↔ Event.Balanced es)
  ∧ (Event.Balanced es ↔ ∃ tree, Event.Describe es tree)
  ∧ (∀ a, ofEvents es = .ok a → ∃ tree, Event.Describe es tree ∧ a.Stores tree
    ∧ a.preOrder = List.range a.size
    ∧ a.text = String.join ((Event.tokens es).map Prod.snd))
  ∧ ∀ fault, ofEvents es = .error fault ↔ Event.Refused es fault
  := by
  have hagrees := ofEvents_agrees es
  refine ⟨?_, Event.balanced_iff, ?_, ?_⟩
  · constructor
    · rintro ⟨a, ha⟩
      obtain ⟨t, ht, -⟩ := hagrees.exists_right ha
      obtain ⟨k, l, cs, hdescribe, -⟩ := Tree.ofEvents_eq_ok_iff.mp ht
      exact Event.balanced_iff.mpr ⟨_, hdescribe⟩
    · intro h
      obtain ⟨a, ha, -⟩ := exists_ofEvents (Progress.run_eq_closed_iff.mpr h)
      exact ⟨a, ha⟩
  · intro a ha
    obtain ⟨t, ht, hrepresents⟩ := hagrees.exists_right ha
    have hsound := Tree.Sound.ofEvents ht
    obtain ⟨k, l, cs, hdescribe, rfl⟩ := Tree.ofEvents_eq_ok_iff.mp ht
    obtain ⟨a', ha', -, htext, -⟩ := exists_ofEvents hdescribe.run_eq
    obtain rfl := Except.ok.inj (ha.symm.trans ha')
    have hstores := hrepresents.stores
    refine ⟨_, hdescribe, hstores, ?_, htext⟩
    rw [hrepresents.preOrder_eq hsound, hstores.size, List.range_eq_range']
    exact Forest.ids_number (Node.branch () k l cs).toForest Tree.root
  · intro fault
    rw [← Tree.ofEvents_eq_error_iff]
    exact hagrees.eq_error_iff

/-- A token without text is passed over, a branch may stay empty, and the root is closed once. -/
theorem ofEvents_iff_balanced_of_sparse :
  let es : List Event := [.token .token "", .start .file (some "source"), .start .block none,
    .finish, .token .identifier "a", .token .whitespace " ", .finish]
  (∃ a tree, ofEvents es = .ok a ∧ Event.Balanced es ∧ Event.Describe es tree ∧ a.Stores tree
    ∧ a.preOrder = List.range 4 ∧ a.text = "a ")
  ∧ Event.Refused (es ++ [.finish]) (.construction .closeWithoutOpen)
  := by
  intro es
  obtain ⟨hok, -, hstores, -⟩ := ofEvents_iff_balanced es
  obtain ⟨-, -, -, hrefused⟩ := ofEvents_iff_balanced (es ++ [.finish])
  constructor
  · obtain ⟨tree, hdescribe, htree, hpreOrder, htext⟩ := hstores _ rfl
    exact ⟨_, tree, rfl, hok.mp ⟨_, rfl⟩, hdescribe, htree, hpreOrder, htext.trans (by decide)⟩
  · exact (hrefused _).mp rfl

end Arena

end Fettle
