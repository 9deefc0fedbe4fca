import Fettle.Arena.Offsets
import Fettle.Proofs.Arena.Effect
import Fettle.Proofs.Tree.Offsets

/-!
# The table of offsets

On a table that stands for a sound tree the walk with the stack ends and puts down one offset for
every attached node (`Represents.offsets_eq`).  The offset of a node is the length of the text
before it, so it agrees with what is counted on the way up to the root, and the text under the node
stands there in the document (`Reachable.offsets_agree`).
-/

namespace Fettle

/-! ### Tables -/

namespace OffsetTable

/-- The table with the offsets of some nodes. -/
def putAll (table : OffsetTable) (starts : List (NodeId × Nat)) : OffsetTable :=
  starts.foldl (fun table s => table.put s.1 s.2) table

variable {table : OffsetTable} {starts : List (NodeId × Nat)} {id : NodeId} {n : Nat}

theorem putAll_cons (table : OffsetTable) (id : NodeId) (n : Nat) (starts : List (NodeId × Nat)) :
  table.putAll ((id, n) :: starts) = (table.put id n).putAll starts
  := rfl

theorem putAll_append (table : OffsetTable) (starts starts' : List (NodeId × Nat)) :
  table.putAll (starts ++ starts') = (table.putAll starts).putAll starts'
  := List.foldl_append

theorem get?_blank (size : Nat) (id : NodeId) :
  (blank size).get? id = none
  := by
  rw [blank, get?, Array.getElem?_replicate]
  split <;> rfl

theorem size_put (table : OffsetTable) (id : NodeId) (n : Nat) :
  (table.put id n).starts.size = table.starts.size
  := Array.size_setIfInBounds

theorem get?_put_of_ne {id' : NodeId} (h : id' ≠ id) (n : Nat) :
  (table.put id' n).get? id = table.get? id
  := by
  rw [put, get?, Array.getElem?_setIfInBounds_ne h, get?]

theorem get?_put_self (h : id < table.starts.size) (n : Nat) :
  (table.put id n).get? id = some n
  := by
  rw [put, get?, Array.getElem?_setIfInBounds_self_of_lt h]
  rfl

/-- Nodes that are not put down keep their offset. -/
theorem get?_putAll_of_notMem (h : id ∉ starts.map Prod.fst) :
  (table.putAll starts).get? id = table.get? id
  := by
  induction starts generalizing table with
  | nil => rfl
  | cons s starts ih =>
    rw [List.map_cons, List.mem_cons, not_or] at h
    rw [putAll_cons, ih h.2, get?_put_of_ne (Ne.symm h.1)]

/-- A node that is put down once has the offset. -/
theorem get?_putAll_of_mem (hd : (starts.map Prod.fst).Nodup) (h : (id, n) ∈ starts)
    (hid : id < table.starts.size) :
  (table.putAll starts).get? id = some n
  := by
  induction starts generalizing table with
  | nil => cases h
  | cons s starts ih =>
    rw [List.map_cons, List.nodup_cons] at hd
    rw [putAll_cons]
    rcases List.mem_cons.mp h with rfl | h
    · rw [get?_putAll_of_notMem hd.1, get?_put_self hid]
    · apply ih hd.2 h
      rw [size_put]
      exact hid

end OffsetTable

/-! ### Starts -/

namespace Entry

/-- The offsets at which some entries start, the first one at `base`. -/
def starts (base : Nat) : List Entry → List (NodeId × Nat)
  | [] => []
  | e :: es => (e.id, base) :: starts (base + e.text.utf8ByteSize) es

theorem starts_append (base : Nat) (es fs : List Entry) :
  starts base (es ++ fs) = starts base es ++ starts (base + (spelled es).utf8ByteSize) fs
  := by
  induction es generalizing base with
  | nil => rfl
  | cons e es ih =>
    rw [List.cons_append, starts, ih, starts, spelled, String.utf8ByteSize_append, Nat.add_assoc]
    rfl

theorem map_fst_starts (base : Nat) (es : List Entry) :
  (starts base es).map Prod.fst = es.map id
  := by
  induction es generalizing base with
  | nil => rfl
  | cons e es ih => rw [starts, List.map_cons, ih, List.map_cons]

end Entry

theorem Forest.starts_eq (base : Nat) (f : Forest NodeId) :
  f.starts base = Entry.starts base f.entries
  := by
  induction f generalizing base with
  | nil => rfl
  | leaf i k s rest ih => rw [starts, entries_leaf, Entry.starts, ih]
  | branch i k l cs rest ihc ih =>
    rw [starts, entries_branch, Entry.starts, Entry.starts_append, spelled_entries, ihc, ih,
      textLength_eq_utf8ByteSize]
    rfl

namespace Arena

variable {a : Arena}

/-! ### The walk -/

theorem offsetsFrom_nil (a : Arena) (steps running : Nat) (table : OffsetTable) :
  a.offsetsFrom steps running table [] = some table
  := by
  cases steps <;> rfl

/-- The walk over the trees of a forest puts down the offset of every node in it, one in each step,
and goes on at the end of its text. -/
theorem offsetsFrom_roots {p : Option NodeId} {s : Nat} {f : Forest NodeId} (h : a.Laid p s f)
    (hf : f.fault? = none) (steps running : Nat) (table : OffsetTable) (stack : List NodeId) :
  a.offsetsFrom (steps + f.size) running table (f.roots ++ stack)
    = a.offsetsFrom steps (running + f.textLength) (table.putAll (f.starts running)) stack
  := by
  induction f generalizing p s steps running table stack with
  | nil => rfl
  | leaf i k x rest ih =>
    rw [Forest.fault?, Option.or_eq_none_iff] at hf
    have hk := (leafFault?_eq_none_iff.mp hf.1).1
    rw [Laid] at h
    have hleaf : ¬ ((Node.leaf i k x).record p s true).kind.isComposite = true := by
      simp [Node.record, Node.kind, hk]
    rw [Forest.roots, List.cons_append, Forest.size, ← Nat.add_assoc, offsetsFrom, h.1]
    dsimp only
    rw [if_neg hleaf, ih h.2 hf.2, Forest.textLength, ← Nat.add_assoc]
    rfl
  | branch i k l cs rest ihc ih =>
    rw [Forest.fault?, Option.or_eq_none_iff, Option.or_eq_none_iff, branchFault?_eq_none_iff] at hf
    rw [Laid] at h
    have hbranch : ((Node.branch i k l cs).record p s true).kind.isComposite = true := hf.1
    have hsize : steps + (Forest.branch i k l cs rest).size = steps + rest.size + cs.size + 1 := by
      rw [Forest.size]
      omega
    rw [hsize, Forest.roots, List.cons_append, offsetsFrom, h.1]
    dsimp only
    rw [if_pos hbranch]
    change a.offsetsFrom _ running (table.put i running) (cs.roots ++ (rest.roots ++ stack)) = _
    rw [ihc h.2.1 hf.2.1, ih h.2.2 hf.2.2, Forest.textLength, Forest.starts, ← Nat.add_assoc,
      OffsetTable.putAll_cons, OffsetTable.putAll_append]

/-- The table of a sound tree has one offset for every attached node. -/
theorem Represents.offsets_eq {t : Tree} (h : a.Represents t) (ht : t.Sound) {steps : Nat}
    (hsteps : a.size ≤ steps) :
  a.offsets steps = some ((OffsetTable.blank a.size).putAll t.offsets)
  := by
  have hle := ht.size_attached_le
  rw [← h.size] at hle
  obtain ⟨more, rfl⟩ := Nat.exists_eq_add_of_le' (Nat.le_trans hle hsteps)
  have hwalk := offsetsFrom_roots h.laid ht.valid more 0 (.blank a.size) []
  rw [List.append_nil, offsetsFrom_nil] at hwalk
  rw [offsets, h.root]
  exact hwalk

/-! ### Texts before a node -/

/-- The nodes met from an attached node on start with it. -/
theorem inside_of_attached {id : NodeId} (hid : a.isAttached id = true) :
  ∃ ids, a.inside id = id :: ids
  := by
  rw [isAttached, Option.any_eq_true] at hid
  obtain ⟨r, hr, -⟩ := hid
  obtain ⟨n, hn⟩ := Nat.exists_eq_succ_of_ne_zero (Nat.ne_of_gt (Nat.zero_lt_of_lt
    (lt_size_of_get? hr)))
  rw [inside, hn]
  exact ⟨_, rfl⟩

end Arena

/-- A branch of a forest without fault adds nothing to the text. -/
theorem Forest.text_of_mem_entries {f : Forest NodeId} (hf : f.fault? = none) {e : Entry}
    (he : e ∈ f.entries) (hk : e.kind.isComposite = true) :
  e.text = ""
  := by
  obtain ⟨n, hn, rfl⟩ := List.mem_map.mp he
  have hvalid := fault?_of_mem_nodes hf hn
  cases n with
  | branch i k l cs => rfl
  | leaf i k s =>
    rw [Node.fault?, Node.toForest, fault?, Option.or_eq_none_iff, leafFault?_eq_none_iff] at hvalid
    rw [Node.entry, Node.kind, hvalid.1.1] at hk
    cases hk

/-- The text of some entries is as long as their leaves are wide. -/
theorem Entry.utf8ByteSize_spelled {es : List Entry}
    (h : ∀ e ∈ es, e.kind.isComposite = true → e.text = "") :
  (spelled es).utf8ByteSize = width (es.filterMap leaf?)
  := by
  induction es with
  | nil => rfl
  | cons e es ih =>
    rw [List.forall_mem_cons] at h
    rw [spelled, String.utf8ByteSize_append, ih h.2, List.filterMap_cons, leaf?]
    cases hk : e.kind.isComposite with
    | true =>
      rw [h.1 hk]
      exact Nat.zero_add _
    | false => rfl

namespace Arena

variable {a : Arena} {n : NodeId} {before inside after : List Entry}

/-- The text under a node stands in the document from its offset on. -/
theorem Around.text_eq (h : a.Around n before inside after) :
  ∃ u v, a.text = u ++ (a.textOf n ++ v) ∧ u.utf8ByteSize = a.startOffset n
    ∧ (a.textOf n).utf8ByteSize = a.textLengthOf n
  := by
  use Entry.spelled before, Entry.spelled after
  rw [h.shows.text, Entry.spelled_append, Entry.spelled_append, h.spelled, h.start,
    a.textLengthOf_eq, h.spelled]
  exact ⟨rfl, rfl, rfl⟩

namespace Represents

variable {t : Tree} (h : a.Represents t) (ht : t.Sound)

include h ht

/-- The table has the offset at which an attached node starts. -/
theorem get?_offsets (haround : a.Around n before inside after) (hn : a.isAttached n = true) :
  ((OffsetTable.blank a.size).putAll t.offsets).get? n = some (a.startOffset n)
  := by
  have hentries : t.entries = before ++ (inside ++ after) := by
    rw [← h.entries_eq ht, haround.shows.entries]
  obtain ⟨ids, hids⟩ := inside_of_attached hn
  rw [haround.ids, List.map_eq_cons_iff] at hids
  obtain ⟨e, es, rfl, rfl, -⟩ := hids
  have hstarts : t.offsets = Entry.starts 0 t.entries := t.attached.starts_eq 0
  rw [hentries, Entry.starts_append, Nat.zero_add, ← haround.start] at hstarts
  apply OffsetTable.get?_putAll_of_mem
  · rw [hstarts, List.map_append, Entry.map_fst_starts, Entry.map_fst_starts, ← List.map_append]
    exact haround.shows.nodup
  · rw [hstarts]
    exact List.mem_append_right _ List.mem_cons_self
  · obtain ⟨r, hr, -⟩ := (Option.any_eq_true _ _).mp hn
    have hlt := lt_size_of_get? hr
    rw [OffsetTable.blank, Array.size_replicate]
    exact hlt

/-- The table has no offset for other numbers. -/
theorem get?_offsets_of_not_attached (hn : a.isAttached n = false) :
  ((OffsetTable.blank a.size).putAll t.offsets).get? n = none
  := by
  rw [OffsetTable.get?_putAll_of_notMem, OffsetTable.get?_blank]
  rw [Tree.offsets, t.attached.starts_eq, Entry.map_fst_starts, Forest.map_id_entries,
    ← h.isAttached_iff ht, hn]
  exact Bool.false_ne_true

end Represents

/-- On every arena that can be reached the walk with the stack ends in a table, after no more steps
than there are records.  The table has the offset of every attached node, which is the length of the
leaves before it, and no other; there the text under the node stands in the document.  A visit sees
the same offset with the table and without. -/
theorem Reachable.offsets_agree (h : a.Reachable) :
  ∃ table, (∀ steps, a.size ≤ steps → a.offsets steps = some table)
    ∧ (∀ n, a.isAttached n = true → ∃ before inside after, a.Around n before inside after
      ∧ table.get? n = some (a.startOffset n)
      ∧ a.startOffset n = width (before.filterMap Entry.leaf?)
      ∧ ∃ u v, a.text = u ++ (a.textOf n ++ v) ∧ u.utf8ByteSize = a.startOffset n
        ∧ (a.textOf n).utf8ByteSize = a.textLengthOf n)
    ∧ (∀ n, a.isAttached n = false → table.get? n = none)
    ∧ ∀ n, a.visitOffset none n = a.startOffset n
      ∧ a.visitOffset (some table) n = a.startOffset n
  := by
  obtain ⟨t, ht, hsound⟩ := h.exists_represents
  refine ⟨_, fun _ => ht.offsets_eq hsound, ?_, ?_, ?_⟩
  · intro n hn
    obtain ⟨before, inside, after, hplace⟩ := ht.exists_around hsound hn
    refine ⟨before, inside, after, hplace, ht.get?_offsets hsound hplace hn, ?_, hplace.text_eq⟩
    rw [hplace.start]
    apply Entry.utf8ByteSize_spelled
    intro e he
    apply Forest.text_of_mem_entries hsound.valid
    have hentries : t.entries = before ++ (inside ++ after) := by
      rw [← ht.entries_eq hsound, hplace.shows.entries]
    rw [← Tree.entries, hentries]
    exact List.mem_append_left _ he
  · intro n
    apply ht.get?_offsets_of_not_attached hsound
  · intro n
    use rfl
    rw [visitOffset]
    cases hn : a.isAttached n with
    | true =>
      obtain ⟨before, inside, after, hplace⟩ := ht.exists_around hsound hn
      rw [ht.get?_offsets hsound hplace hn, Option.getD_some]
    | false => rw [ht.get?_offsets_of_not_attached hsound hn, Option.getD_none]

/-- A branch with a leaf is taken out; an empty branch after it starts where the two bytes before it
end. -/
theorem offsets_agree_of_removed :
  let es : List Event := [.start .file none, .token .identifier "é", .start .element none,
    .token .identifier "b", .finish, .start .block none, .finish, .token .identifier "c", .finish]
  ∃ a b, ofEvents es = .ok a ∧ a.edit (.remove 2) = .ok (none, b)
    ∧ ∃ table, b.offsets b.size = some table ∧ table.get? 3 = none
      ∧ (b.startOffset 5 = 2 ∧ table.get? 5 = some (b.startOffset 5))
  := by
  intro es
  have hreach {a b : Arena} (ha : ofEvents es = .ok a) (hb : a.edit (.remove 2) = .ok (none, b)) :
      b.Reachable := .edited (.built ha) hb
  refine ⟨_, _, rfl, rfl, ?_⟩
  obtain ⟨table, htable, hattached, hdetached, -⟩ := Reachable.offsets_agree (hreach rfl rfl)
  obtain ⟨-, -, -, -, hget, -⟩ := hattached 5 (by decide)
  exact ⟨table, htable _ (Nat.le_refl _), hdetached 3 (by decide), by decide, hget⟩

end Arena

end Fettle
