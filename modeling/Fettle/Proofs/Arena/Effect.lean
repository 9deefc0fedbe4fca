import Fettle.Proofs.Arena.Lasting
import Fettle.Proofs.Arena.Refusal
import Fettle.Proofs.Tree.Changes

/-!
# What edits change

An arena `Shows` its nodes in a row, in pre-order; the leaves, the document and the flags are
read off the row.  A node has some part of the row to itself, which is `Around` it cut off from
what is before and after.  An edit puts the entries of the new node at the start or the end of
that part or in its place, or takes the part out (`Edit.Effect`), and leaves the rest of the row
as it was.  Setting white space does so with the white space leaf before a node, or at the start
of the node if there is none (`Arena.SpaceEffect`).

Every edit of an arena that can be reached has its effect (`Reachable.effect`).
-/

namespace Fettle

/-! ### Nodes in a row -/

namespace Arena

/-- The nodes of an arena are some entries, in pre-order. -/
structure Shows (a : Arena) (es : List Entry) : Prop where
  entries : a.entries = es
  preOrder : a.preOrder = es.map Entry.id
  nodup : (es.map Entry.id).Nodup
  attached : ∀ id, a.isAttached id = true ↔ id ∈ es.map Entry.id
  leaves : a.leaves = (es.filterMap Entry.leaf?).map Leaf.id
  text : a.text = Entry.spelled es

/-- The nodes before a node, those inside it, itself among them, and those after.  The text before
the node ends where the node starts. -/
structure Around (a : Arena) (id : NodeId) (before inside after : List Entry) : Prop where
  shows : a.Shows (before ++ (inside ++ after))
  ids : a.inside id = inside.map Entry.id
  start : a.startOffset id = (Entry.spelled before).utf8ByteSize
  spelled : a.textOf id = Entry.spelled inside

namespace Represents

variable {a : Arena} {t : Tree} (h : a.Represents t) (ht : t.Sound)

include h ht

theorem shows :
  a.Shows t.entries
  := by
  constructor
  · apply h.entries_eq ht
  · rw [h.preOrder_eq ht, Tree.entries, Forest.map_id_entries, Tree.preOrder]
  · apply ht.nodup_entries
  · intro id
    rw [h.isAttached_iff ht, Tree.entries, Forest.map_id_entries]
  · apply h.leaves_eq ht
  · rw [h.text_eq ht, Tree.entries, Forest.spelled_entries, Tree.text]

theorem around {id : NodeId} (c : t.Focus id) :
  a.Around id c.before c.node.toForest.entries c.after
  := by
  constructor
  · rw [← c.entries_eq]
    apply h.shows ht
  · have hinside := h.inside_eq ht c.node_mem
    rw [c.id_node] at hinside
    rw [hinside, Forest.map_id_entries]
  · apply h.startOffset_eq ht
  · have htext := h.textOf_eq ht c.node_mem
    rw [c.id_node] at htext
    rw [htext, Forest.spelled_entries]

/-- Everything is inside the root. -/
theorem around_root :
  a.Around Tree.root [] t.entries []
  := by
  have hroot : .branch Tree.root t.rootKind t.rootLabel t.children ∈ t.attached.nodes :=
    List.mem_cons_self
  constructor
  · rw [List.nil_append, List.append_nil]
    apply h.shows ht
  · have hinside := h.inside_eq ht hroot
    rw [Tree.entries, Forest.map_id_entries]
    exact hinside
  · apply h.offsetWithin_root
  · have htext := h.textOf_eq ht hroot
    rw [Tree.entries, Forest.spelled_entries]
    exact htext

/-- Every attached node has its place in the row. -/
theorem exists_around {id : NodeId} (hid : a.isAttached id = true) :
  ∃ before inside after, a.Around id before inside after
  := by
  rw [h.isAttached_iff ht, Tree.ids_attached, List.mem_cons] at hid
  rcases hid with rfl | hid
  · exact ⟨_, _, _, h.around_root ht⟩
  · obtain ⟨c⟩ := Tree.exists_focus hid
    exact ⟨_, _, _, h.around ht c⟩

end Represents

/-! ### Effects -/

/-- What setting the white space before a node changes.  The result is the number of the leaf that
is white space then, if there is one. -/
inductive SpaceEffect (a b : Arena) (id : NodeId) (text : String) : Option NodeId → Prop where
  /-- The leaf before the node is white space with the text. -/
  | kept {w : NodeId} (hw : a.prevLeaf? id = some w) (hspace : a.isWhitespace w = true)
    (htext : a.leafText? w = some text) (hb : b = a) : SpaceEffect a b id text (some w)
  /-- The leaf before the node is white space with another text. -/
  | replaced {w : Entry} {before after : List Entry} (hw : a.prevLeaf? id = some w.id)
    (hspace : w.kind = .whitespace) (htext : w.text ≠ text) (ha : a.Around w.id before [w] after)
    (hb : b.Shows (before ++ (spaceEntries a.size text ++ after))) :
    SpaceEffect a b id text ((spaceEntries a.size text).head?.map Entry.id)
  /-- The leaf before the node is not white space, or there is none. -/
  | inserted {before inside after : List Entry}
    (hw : ∀ w, a.prevLeaf? id = some w → a.isWhitespace w = false)
    (ha : a.Around id before inside after)
    (hb : b.Shows (before ++ (spaceEntries a.size text ++ (inside ++ after)))) :
    SpaceEffect a b id text ((spaceEntries a.size text).head?.map Entry.id)

/-- A leaf with a text is the white space before a node, and setting it again changes nothing. -/
structure SpaceBefore (b : Arena) (id : NodeId) (text : String) (w : NodeId) : Prop where
  prevLeaf : b.prevLeaf? id = some w
  whitespace : b.isWhitespace w = true
  leafText : b.leafText? w = some text
  again : b.edit (.setSpaceBefore id text) = .ok (some w, b)

end Arena

/-- What an edit of an arena changes, and its result. -/
def Edit.Effect (a b : Arena) (o : Option NodeId) : Edit → Prop
  | .insertBefore id new => ∃ before inside after, a.Around id before inside after
    ∧ b.Shows (before ++ (new.entries a.size ++ (inside ++ after))) ∧ o = some a.size
  | .insertAfter id new => ∃ before inside after, a.Around id before inside after
    ∧ b.Shows (before ++ (inside ++ (new.entries a.size ++ after))) ∧ o = some a.size
  | .remove id => ∃ before inside after, a.Around id before inside after
    ∧ b.Shows (before ++ after) ∧ o = none
  | .replace id new => ∃ before inside after, a.Around id before inside after
    ∧ b.Shows (before ++ (new.entries a.size ++ after)) ∧ o = some a.size
  | .setSpaceBefore id text => a.SpaceEffect b id text o ∧ b.isAttached id = true
    ∧ (text ≠ "" → ∃ w, o = some w ∧ b.SpaceBefore id text w)

namespace Arena

namespace Represents

variable {a b : Arena} {t u : Tree} (h : a.Represents t) (ht : t.Sound) {id : NodeId}
  {text : String} {o : Option NodeId}

include h ht

/-- White space that stands before a node of the tree is found in the arena. -/
theorem spaceBefore (hid : id ∈ t.children.ids) (hs : Tree.spaceFault? text = none)
    (hne : text ≠ "") {l : Leaf NodeId} (hl : t.prevLeaf? id = some l)
    (hspace : l.kind = .whitespace) (htext : l.text = text) :
  a.SpaceBefore id text l.id
  := by
  obtain ⟨c⟩ := Tree.exists_focus hid
  have hmem := ht.mem_of_prevLeaf? hl
  have hprev := h.prevLeaf?_eq ht hid
  rw [hl, Option.map_some] at hprev
  have hwhite : a.isWhitespace l.id = true := by
    rw [h.isWhitespace_leaf ht hmem, hspace]
    rfl
  have hleaf := h.leafText?_leaf ht hmem
  rw [htext] at hleaf
  use hprev, hwhite, hleaf
  rw [Arena.edit, Arena.setSpaceBefore, hs, h.locate_focus c]
  dsimp only
  rw [hprev, Option.filter_some, if_pos hwhite]
  dsimp only
  rw [if_neg hne, if_pos hleaf]

/-- A change of the white space before a node of the tree is one of the arena. -/
theorem spaceEffect (hb : b.Represents u) (hu : u.Sound) (hid : id ∈ t.children.ids)
    (hs : Tree.spaceFault? text = none) (hc : t.SpaceChange id text o u)
    (he : a.edit (.setSpaceBefore id text) = .ok (o, b)) :
  a.SpaceEffect b id text o
  := by
  have hprev := h.prevLeaf?_eq ht hid
  cases hc with
  | @kept l hl hspace htext =>
    have hne : text ≠ "" := by
      rw [← htext]
      apply ht.text_ne_empty l (ht.mem_of_prevLeaf? hl)
    have hw := h.spaceBefore ht hid hs hne hl hspace htext
    rw [hw.again] at he
    obtain ⟨-, rfl⟩ := Prod.mk.inj (Except.ok.inj he)
    exact .kept hw.prevLeaf hw.whitespace hw.leafText rfl
  | @replaced _ l hl hspace htext c hentries =>
    rw [hl, Option.map_some] at hprev
    have haround := h.around ht c
    have hshows := hb.shows hu
    rw [c.entries_leaf ht (ht.mem_of_prevLeaf? hl)] at haround
    rw [hentries, ← h.size] at hshows
    rw [← h.size]
    exact @SpaceEffect.replaced a b id text ⟨l.id, l.kind, none, l.text⟩ _ _ hprev hspace htext
      haround hshows
  | inserted hl c hentries =>
    have hshows := hb.shows hu
    rw [hentries, ← h.size] at hshows
    rw [← h.size]
    apply SpaceEffect.inserted _ (h.around ht c) hshows
    intro w hw
    rw [hprev, Option.map_eq_some_iff] at hw
    obtain ⟨l, hprev, rfl⟩ := hw
    rw [h.isWhitespace_leaf ht (ht.mem_of_prevLeaf? hprev), decide_eq_false (hl l hprev)]

end Represents

/-- Every edit of an arena that can be reached has its effect, and the nodes that are there stay
what they are by themselves. -/
theorem Reachable.effect {a b : Arena} (h : a.Reachable) {e : Edit} {o : Option NodeId}
    (he : a.edit e = .ok (o, b)) :
  e.Effect a b o ∧ a.Lasts b
  := by
  refine ⟨?_, Lasts.edit he⟩
  obtain ⟨t, ht, hsound⟩ := h.exists_represents
  obtain ⟨u, hu, hb, hsound'⟩ := ht.exists_edit hsound he
  have hshows := hb.shows hsound'
  cases e with
  | insertBefore id new =>
    obtain ⟨r, hr, heq⟩ := Except.map_eq_ok_iff.mp hu
    obtain ⟨rfl, rfl⟩ := Prod.mk.inj heq
    obtain ⟨c, hnew, hentries⟩ := hsound.entries_insertBefore hr
    rw [hentries, ← ht.size] at hshows
    refine ⟨_, _, _, ht.around hsound c, hshows, ?_⟩
    rw [hnew, ht.size]
  | insertAfter id new =>
    obtain ⟨r, hr, heq⟩ := Except.map_eq_ok_iff.mp hu
    obtain ⟨rfl, rfl⟩ := Prod.mk.inj heq
    obtain ⟨c, hnew, hentries⟩ := hsound.entries_insertAfter hr
    rw [hentries, ← ht.size] at hshows
    refine ⟨_, _, _, ht.around hsound c, hshows, ?_⟩
    rw [hnew, ht.size]
  | remove id =>
    obtain ⟨r, hr, heq⟩ := Except.map_eq_ok_iff.mp hu
    obtain ⟨rfl, rfl⟩ := Prod.mk.inj heq
    obtain ⟨c, hentries⟩ := hsound.entries_remove hr
    rw [hentries] at hshows
    exact ⟨_, _, _, ht.around hsound c, hshows, rfl⟩
  | replace id new =>
    obtain ⟨r, hr, heq⟩ := Except.map_eq_ok_iff.mp hu
    obtain ⟨rfl, rfl⟩ := Prod.mk.inj heq
    obtain ⟨c, hnew, hentries⟩ := hsound.entries_replace hr
    rw [hentries, ← ht.size] at hshows
    refine ⟨_, _, _, ht.around hsound c, hshows, ?_⟩
    rw [hnew, ht.size]
  | setSpaceBefore id text =>
    have hfault : Edit.fault? t (.setSpaceBefore id text) = none := by
      cases hf : Edit.fault? t (.setSpaceBefore id text) with
      | none => rfl
      | some fault =>
        rw [Tree.edit_of_fault? hf] at hu
        cases hu
    rw [Edit.fault?, Option.or_eq_none_iff, hsound.anchorFault?_eq_none_iff] at hfault
    obtain ⟨hs, hid⟩ := hfault
    have hc := hsound.spaceChange hu
    obtain ⟨hmem, hspace⟩ := hc.prevLeaf?_eq hsound hsound' hid
    refine ⟨ht.spaceEffect hsound hb hsound' hid hs hc he, ?_, ?_⟩
    · rw [hb.isAttached_iff hsound', Tree.ids_attached]
      apply List.mem_cons_of_mem _ hmem
    · intro hne
      obtain ⟨l, ho, hl, hkind, htext⟩ := hspace hne
      exact ⟨l.id, ho, hb.spaceBefore hsound' hmem hs hne hl hkind htext⟩

/-- White space at the end of one branch is that before the next branch. -/
theorem effect_of_neighbours :
  let es : List Event := [.start .file none, .start .element none, .token .identifier "a",
    .token .whitespace " ", .finish, .start .block (some "body"), .token .token "b", .finish,
    .finish]
  let e : Edit := .setSpaceBefore 4 "\n"
  ∃ a b, ofEvents es = .ok a ∧ a.edit e = .ok (some 6, b) ∧ b.text = "a\nb"
    ∧ e.Effect a b (some 6) ∧ a.Lasts b
  := by
  intro es e
  have hreach {a : Arena} (ha : ofEvents es = .ok a) : a.Reachable := .built ha
  refine ⟨_, _, rfl, rfl, by decide, ?_⟩
  exact Reachable.effect (hreach rfl) rfl

end Arena

end Fettle
