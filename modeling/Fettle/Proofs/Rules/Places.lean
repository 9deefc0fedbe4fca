import Fettle.Proofs.Engine.Placing
import Fettle.Proofs.Kotlin.Surroundings
import Fettle.Proofs.Text.Boundaries

/-!
# Where the standard rules report

What the standard rules find is at character boundaries of the document, with one exception: white
space within a line is reported one byte after its start, which is inside of its first character if
that has more than one byte (`InWideSpace`).

`invalidOffset_iff` says which diagnostics of findings without a position come of that.
-/

namespace Fettle

open Kotlin Text

/-- The offset is inside of the first character of white space between the elements of a line,
one byte after its start. -/
def InWideSpace (ls : List (Leaf NodeId)) (o : Nat) : Prop :=
  ∃ a w b c s, ls = a ++ w :: b ∧ a ≠ [] ∧ b ≠ [] ∧ w.isInlineSpace = true
    ∧ w.text.toList = c :: s ∧ 1 < c.utf8Size ∧ o = width a + 1

/-! ### Boundaries of documents -/

theorem Tree.text_eq_of_leaves {t : Tree} {a b : List (Leaf NodeId)} {l : Leaf NodeId}
    (hl : t.leaves = a ++ l :: b) :
  t.text.toList = chars a ++ (l.text.toList ++ chars b)
  := by
  rw [← chars_leaves, hl, chars, List.flatMap_append, List.flatMap_cons]
  rfl

/-- A boundary of a leaf is one of the document. -/
theorem Site.At.boundary {s : Site} {a b : List (Leaf NodeId)} {l : Leaf NodeId}
    (h : s.At a l b) {o : Nat} (ho : Boundary l.text.toList o) :
  Boundary s.tree.text.toList (s.tree.startOffset s.node + o)
  := by
  rw [h.startOffset_eq, width_eq_byteLength, Tree.text_eq_of_leaves h.leaves,
    boundary_append_iff]
  apply ho.append_right

/-- A site of a kind that holds no children is at a leaf between others. -/
theorem Site.exists_at {s : Site} (h : s.tree.Sound) (hn : s.tree.isAttached s.node = true)
    {k : Kind} (hkind : s.kind = k) (hk : k.isComposite = false) :
  ∃ a l b, s.At a l b
  := by
  rw [← hkind] at hk
  obtain ⟨a, l, b, hl, hid⟩ := Site.exists_leaf h hn hk
  exact ⟨a, l, b, h, hl, hid⟩

/-! ### The places of findings -/

variable {s : Site} {f : Finding}

theorem CommentWrapping.boundary_of_mem_findings (h : s.tree.Sound)
    (hn : s.tree.isAttached s.node = true) (hf : f ∈ (inspect s).findings) :
  Boundary s.tree.text.toList f.offset
  := by
  rw [inspect] at hf
  split at hf
  · rename_i hkind
    obtain ⟨a, c, b, hat⟩ := Site.exists_at h hn hkind rfl
    have hstart : Boundary s.tree.text.toList (s.tree.startOffset s.node + 0) :=
      hat.boundary (boundary_zero _)
    cases hlayout : layout s with
    | fine =>
      rw [hlayout] at hf
      cases hf
    | alone | spanning | between | longAfter | shortAfter =>
      rw [hlayout] at hf
      obtain rfl := List.mem_singleton.mp hf
      exact hstart
    | followed id =>
      rw [hlayout] at hf
      obtain rfl := List.mem_singleton.mp hf
      rw [hat.layout_eq] at hlayout
      obtain ⟨-, n, hnext, rfl, hbreak⟩ := Layout.of_eq_followed hlayout
      obtain ⟨gap, rest, rfl, -⟩ := exists_gap_of_neighbour? hnext hbreak
      have hl' : s.tree.leaves = (a ++ c :: gap) ++ n :: rest := by
        rw [hat.leaves, List.append_assoc, List.cons_append]
      have hat' : Site.At { s with node := n.id } (a ++ c :: gap) n rest := ⟨h, hl', rfl⟩
      apply hat'.boundary (boundary_zero _)
  · cases hf

/-- Trailing spaces are at a boundary of the leaf. -/
theorem NoTrailingSpaces.boundary_of_mem_marks {a b : List (Leaf NodeId)} {l : Leaf NodeId}
    (h : s.At a l b) {delta : Nat} (hdelta : delta ∈ marks s) :
  Boundary l.text.toList delta
  := by
  rw [marks, h.text_eq] at hdelta
  split at hdelta
  · obtain ⟨o, rfl, ho⟩ := boundary_of_mem_spaceMarks hdelta
    rwa [unlines_lines, ← Nat.zero_add o] at ho
  · split at hdelta
    · obtain ⟨o, rfl, ho⟩ := boundary_of_mem_commentMarks hdelta
      rwa [unlines_lines, ← Nat.zero_add o] at ho
    · cases hdelta

theorem NoTrailingSpaces.boundary_of_mem_findings (h : s.tree.Sound)
    (hn : s.tree.isAttached s.node = true) (hf : f ∈ (inspect s).findings) :
  Boundary s.tree.text.toList f.offset
  := by
  obtain ⟨delta, hdelta, rfl⟩ := List.mem_map.mp hf
  have hmarks : marks s ≠ [] := List.ne_nil_of_mem hdelta
  obtain ⟨a, l, b, hat⟩ := Site.exists_at h hn rfl (isComposite_of_marks hmarks)
  apply hat.boundary (boundary_of_mem_marks hat hdelta)

/-- The blank lines that are too many begin at a boundary of the leaf. -/
theorem NoConsecutiveBlankLines.boundary_of_isExcessive {a b : List (Leaf NodeId)}
    {l : Leaf NodeId} (h : s.At a l b) (hmany : isExcessive s = true) :
  Boundary l.text.toList (firstTwoLines s.text)
  := by
  simp only [isExcessive, Bool.and_eq_true, decide_eq_true_eq] at hmany
  have hcount := hmany.2
  rw [h.text_eq] at hcount ⊢
  apply boundary_firstTwoLines
  have hpos := allowed_pos (isLast s)
  omega

theorem NoConsecutiveBlankLines.boundary_of_mem_findings (h : s.tree.Sound)
    (hn : s.tree.isAttached s.node = true) (hf : f ∈ (inspect s).findings) :
  Boundary s.tree.text.toList f.offset
  := by
  rw [inspect] at hf
  split at hf
  · rename_i hmany
    obtain rfl := List.mem_singleton.mp hf
    have hkind : s.kind = .whitespace := by
      simp only [isExcessive, Bool.and_eq_true, beq_iff_eq] at hmany
      exact hmany.1.1
    obtain ⟨a, l, b, hat⟩ := Site.exists_at h hn hkind rfl
    apply hat.boundary (boundary_of_isExcessive hat hmany)
  · cases hf

namespace NoMultiSpaces

/-- White space that is longer than one byte, between the elements of a line. -/
theorem isLong_iff {a b : List (Leaf NodeId)} {w : Leaf NodeId} (h : s.At a w b) :
  isLong s = true
    ↔ a ≠ [] ∧ b ≠ [] ∧ w.isInlineSpace = true ∧ 2 ≤ byteLength w.text.toList
  := by
  have ha : a.getLast?.isSome = true ↔ a ≠ [] := by
    rw [List.getLast?_isSome]
  have hb : b.head?.isSome = true ↔ b ≠ [] := by
    cases b <;> simp
  rw [isLong, h.kind_eq, h.text_eq, h.textLengthOf_eq, h.prevLeaf?_eq, h.nextLeaf?_eq,
    utf8ByteSize_eq_byteLength]
  simp only [Bool.and_eq_true, ha, hb, Leaf.isInlineSpace, decide_eq_true_eq]
  constructor
  · rintro ⟨⟨⟨hspace, hlength⟩, ha⟩, hb⟩
    exact ⟨ha, hb, hspace, hlength⟩
  · rintro ⟨ha, hb, hspace, hlength⟩
    exact ⟨⟨⟨hspace, hlength⟩, ha⟩, hb⟩

/-- White space within a line is reported at a boundary or inside of its first character. -/
theorem boundary_of_mem_findings (h : s.tree.Sound) (hn : s.tree.isAttached s.node = true)
    (hf : f ∈ (inspect s).findings) :
  Boundary s.tree.text.toList f.offset ∨ InWideSpace s.tree.leaves f.offset
  := by
  rw [inspect] at hf
  split at hf
  · rename_i hlong
    obtain rfl := List.mem_singleton.mp hf
    have hkind : s.kind = .whitespace := by
      simp only [isLong, Bool.and_eq_true, beq_iff_eq] at hlong
      exact hlong.1.1.1.1
    obtain ⟨a, w, b, hat⟩ := Site.exists_at h hn hkind rfl
    obtain ⟨ha, hb, hspace, hlength⟩ := (isLong_iff hat).mp hlong
    cases htext : w.text.toList with
    | nil =>
      rw [htext] at hlength
      cases hlength
    | cons c x =>
      have hpos := c.utf8Size_pos
      by_cases hone : c.utf8Size = 1
      · left
        apply hat.boundary
        rwa [htext, boundary_one_iff]
      · right
        use a, w, b, c, x, hat.leaves, ha, hb, hspace, htext, by omega
        rw [Site.finding, hat.startOffset_eq]
  · cases hf

/-- White space that begins with a character of more than one byte is reported. -/
theorem exists_mem_findings_of_inWideSpace {t : Tree} (h : t.Sound) {o : Nat}
    (ho : InWideSpace t.leaves o) (a : Active) (ha : a.rule.rule = rule) :
  ∃ l ∈ t.leaves, ∃ f ∈ (a.inspect t l.id).findings, f.offset = o
  := by
  obtain ⟨p, w, q, c, x, hl, hp, hq, hspace, htext, hsize, rfl⟩ := ho
  have hat : (a.site t w.id).At p w q := ⟨h, hl, rfl⟩
  have hlong : isLong (a.site t w.id) = true := by
    rw [isLong_iff hat, htext, byteLength_cons]
    exact ⟨hp, hq, hspace, by omega⟩
  have hmem : w ∈ t.leaves := by
    rw [hl]
    simp
  use w, hmem
  rw [Active.inspect, ha]
  change ∃ f ∈ (inspect (a.site t w.id)).findings, _
  rw [inspect, if_pos hlong, ← hat.startOffset_eq]
  exact ⟨_, List.mem_singleton_self _, rfl⟩

end NoMultiSpaces

/-- No offset inside of the first character of white space is a boundary of the document. -/
theorem InWideSpace.ofOffset_eq {t : Tree} {o : Nat} (h : InWideSpace t.leaves o) :
  Position.ofOffset t.text o = .error (.notBoundary o)
  := by
  obtain ⟨a, w, b, c, x, hl, -, -, -, htext, hsize, rfl⟩ := h
  have hsplit := Tree.text_eq_of_leaves hl
  rw [htext] at hsplit
  apply Position.ofOffset_of_not_boundary
  · rw [hsplit, width_eq_byteLength, boundary_append_iff, List.cons_append, boundary_one_iff]
    omega
  · rw [utf8ByteSize_eq_byteLength, hsplit, byteLength_append, List.cons_append, byteLength_cons,
      width_eq_byteLength]
    omega

/-! ### Diagnostics of runs -/

/-- The diagnostics of wide white space in a tree that no directive suppresses, if the rule about
white space within a line is active. -/
def TellsOfWideSpace (e : Engine) (scope : Scope) (t : Tree) (id m : String) : Prop :=
  id = "standard:no-multi-spaces" ∧ (∃ a ∈ (e.activate scope).1, a.id = ⟨id⟩)
    ∧ ∃ o, InWideSpace t.leaves o
      ∧ Suppression.isSuppressed (Suppression.spans t) o ⟨id⟩ = false
      ∧ m = (PositionFault.notBoundary o).message

/-- What an active standard rule finds without a position, it finds in wide white space. -/
theorem inWideSpace_of_mem_findings {a : Active} (ha : a.rule ∈ standardOrder) {t : Tree}
    (h : t.Sound) {n : NodeId} (hn : t.isAttached n = true) (hf : f ∈ (a.inspect t n).findings)
    (hnone : ¬ Boundary t.text.toList f.offset) :
  a.id = ⟨"standard:no-multi-spaces"⟩ ∧ InWideSpace t.leaves f.offset
  := by
  obtain ⟨r, settings⟩ := a
  simp only [standardOrder, List.mem_cons, List.not_mem_nil, or_false] at ha
  rcases ha with rfl | rfl | rfl | rfl
  · exact absurd (CommentWrapping.boundary_of_mem_findings (s := Active.site _ t n) h hn hf) hnone
  · use rfl
    rcases NoMultiSpaces.boundary_of_mem_findings (s := Active.site _ t n) h hn hf with ho | ho
    · exact absurd ho hnone
    · exact ho
  · exact absurd (NoTrailingSpaces.boundary_of_mem_findings (s := Active.site _ t n) h hn hf) hnone
  · exact absurd
      (NoConsecutiveBlankLines.boundary_of_mem_findings (s := Active.site _ t n) h hn hf) hnone

/-- The rule about white space within a line has its id to itself. -/
theorem rule_eq_of_id {r : Registered} (hr : r ∈ standardOrder)
    (hid : r.id = ⟨"standard:no-multi-spaces"⟩) :
  r.rule = NoMultiSpaces.rule
  := by
  simp only [standardOrder, List.mem_cons, List.not_mem_nil, or_false] at hr
  rcases hr with rfl | rfl | rfl | rfl
  · exact absurd hid (by decide)
  · rfl
  · exact absurd hid (by decide)
  · exact absurd hid (by decide)

/-- What the active standard rules find without a position is wide white space, and all of that
which no directive suppresses. -/
theorem unplaced_iff {e : Engine} (he : e.rules = standardOrder) {scope : Scope} {t : Tree}
    (h : t.Sound) {id m : String} :
  Unplaced (e.activate scope).1 t id m ↔ TellsOfWideSpace e scope t id m
  := by
  have hrule {a : Active} (ha : a ∈ (e.activate scope).1) : a.rule ∈ standardOrder := by
    rw [← he]
    apply Engine.rule_mem_of_mem_activate ha
  constructor
  · rintro ⟨p, hp, fault, hfault, rfl, rfl⟩
    obtain ⟨hn, a, ha, hid, hf⟩ := mem_pending hp
    have hnone : ¬ Boundary t.text.toList p.offset := by
      intro ho
      obtain ⟨pos, hpos⟩ := Position.exists_ofOffset_iff.mpr ho
      rw [hpos] at hfault
      cases hfault
    obtain ⟨hmulti, ho⟩ := inWideSpace_of_mem_findings (hrule ha) h hn hf hnone
    have hshown := (List.mem_filter.mp hp).2
    rw [Bool.not_eq_true'] at hshown
    have hfault' := ho.ofOffset_eq.symm.trans hfault
    rw [TellsOfWideSpace, ← hid]
    use congrArg RuleId.text hmulti, ⟨a, ha, rfl⟩, p.offset, ho
    rw [hid, ← Except.error.inj hfault']
    exact ⟨hshown, rfl⟩
  · rintro ⟨rfl, ⟨a, ha, hid⟩, o, ho, hshown, rfl⟩
    obtain ⟨l, hl, f, hf, rfl⟩ := NoMultiSpaces.exists_mem_findings_of_inWideSpace h ho a
      (rule_eq_of_id (hrule ha) hid)
    have hmem : (⟨Tree.root, a.id, f⟩ : Pending)
        ∈ (detect (e.activate scope).1 t).pending.map Pending.atRoot := by
      rw [pending_detect (fun b hb => rule_mem_standard (hrule hb)) h, List.mem_filter, hid]
      constructor
      · apply List.mem_flatMap.mpr
        use l, hl
        apply List.mem_flatMap.mpr
        use a, ha
        rw [hid]
        apply List.mem_map_of_mem hf
      · rw [Bool.not_eq_true']
        exact hshown
    obtain ⟨p, hp, heq⟩ := List.mem_map.mp hmem
    have hid' : p.ruleId = a.id := congrArg Pending.ruleId heq
    have hf' : p.finding = f := congrArg Pending.finding heq
    use p, hp, .notBoundary f.offset
    rw [hid', hid, Pending.offset, hf']
    exact ⟨ho.ofOffset_eq, rfl, rfl⟩

/-! ### White space that begins with one byte -/

/-- White space within a line that begins with a character of one byte, or another leaf. -/
def Leaf.IsNarrow (w : Leaf NodeId) : Prop :=
  w.isInlineSpace = true → ∀ c s, w.text.toList = c :: s → c.utf8Size = 1

/-- Offsets inside of first characters need leaves that begin with one. -/
theorem not_inWideSpace {ls : List (Leaf NodeId)} (h : ∀ w ∈ ls, w.IsNarrow) (o : Nat) :
  ¬ InWideSpace ls o
  := by
  rintro ⟨a, w, b, c, s, rfl, -, -, hspace, htext, hsize, -⟩
  rw [h w (by simp) hspace c s htext] at hsize
  omega

theorem Leaf.isNarrow_of_feed {w : Leaf NodeId} (h : '\n' ∈ w.text.toList) :
  w.IsNarrow
  := by
  intro hspace
  rw [Leaf.isInlineSpace_iff] at hspace
  exact absurd h hspace.2

theorem Leaf.isNarrow_of_ne_whitespace {w : Leaf NodeId} (h : w.kind ≠ .whitespace) :
  w.IsNarrow
  := by
  intro hspace
  rw [Leaf.isInlineSpace_iff] at hspace
  exact absurd hspace.1 h

theorem Leaf.isNarrow_of_head {w : Leaf NodeId} {c : Char} {s : List Char}
    (h : w.text.toList = c :: s) (hc : c.utf8Size = 1) :
  w.IsNarrow
  := by
  intro _ d u hd
  rw [h] at hd
  obtain ⟨rfl, -⟩ := List.cons.inj hd
  exact hc

theorem isNarrow_space (i : NodeId) :
  Leaf.IsNarrow ⟨i, .whitespace, " "⟩
  := Leaf.isNarrow_of_head (c := ' ') (s := []) (by simp) rfl

/-- White space within a line loses all of its trailing spaces or none. -/
theorem NoTrailingSpaces.feed_mem_of_spaceKept {atEnd : Bool} {x : List Char}
    (marked : spaceMarks atEnd 0 (lines x) ≠ [])
    (left : unlines (spaceKept atEnd (lines x)) ≠ []) :
  '\n' ∈ unlines (spaceKept atEnd (lines x))
  := by
  rw [← List.count_pos_iff, count_unlines_spaceKept, List.count_pos_iff]
  apply Classical.byContradiction
  intro hfeed
  rw [lines_of_notMem hfeed] at marked left
  cases atEnd with
  | false => exact marked rfl
  | true => exact left rfl

/-- The white space that the standard rules make is narrow. -/
theorem Rewrite.isNarrow {ls ls' : List (Leaf NodeId)} (h : Rewrite ls ls')
    (hls : ∀ w ∈ ls, w.IsNarrow) :
  ∀ w ∈ ls', w.IsNarrow
  := by
  cases h with
  | @convert a b c i =>
    rw [List.forall_mem_append, List.forall_mem_cons] at hls ⊢
    use hls.1, Leaf.isNarrow_of_ne_whitespace nofun, hls.2.2
  | @attach a old b c j i =>
    rw [List.forall_mem_append, List.forall_mem_append, List.forall_mem_cons] at hls
    rw [List.forall_mem_append, List.forall_mem_cons, List.forall_mem_cons]
    use hls.1.1, isNarrow_space j, Leaf.isNarrow_of_ne_whitespace nofun, hls.2.2
  | @separate a gap b c n j =>
    rw [List.forall_mem_append, List.forall_mem_cons, List.forall_mem_append] at hls
    rw [List.forall_mem_append, List.forall_mem_cons, List.forall_mem_cons]
    use hls.1, hls.2.1, Leaf.isNarrow_of_feed (feed_mem_indentAfter a), hls.2.2.2
  | @single a b w i =>
    rw [List.forall_mem_append, List.forall_mem_cons] at hls ⊢
    use hls.1, isNarrow_space i, hls.2.2
  | @trimSpace a b w i kind marked left =>
    rw [List.forall_mem_append, List.forall_mem_cons] at hls ⊢
    refine ⟨hls.1, Leaf.isNarrow_of_feed ?_, hls.2.2⟩
    rw [String.toList_ofList]
    apply NoTrailingSpaces.feed_mem_of_spaceKept marked left
  | @dropSpace a b w =>
    rw [List.forall_mem_append, List.forall_mem_cons] at hls
    rw [List.forall_mem_append]
    use hls.1, hls.2.2
  | @trimComment a b c i feed kind =>
    rw [List.forall_mem_append, List.forall_mem_cons] at hls ⊢
    refine ⟨hls.1, Leaf.isNarrow_of_ne_whitespace ?_, hls.2.2⟩
    intro hspace
    rw [show c.kind = .whitespace from hspace] at kind
    cases kind
  | @collapse a b w i kind before many =>
    rw [List.forall_mem_append, List.forall_mem_cons] at hls ⊢
    refine ⟨hls.1, Leaf.isNarrow_of_feed ?_, hls.2.2⟩
    rw [String.toList_ofList, ← List.count_pos_iff, NoConsecutiveBlankLines.count_collapsed many]
    apply NoConsecutiveBlankLines.allowed_pos

/-- What reports on linting and formatting with the standard rules tell to have no position is the
wide white space of the tree that they are about.  A tree of which all white space is narrow has
none before or after formatting. -/
theorem invalidOffset_iff {t : Tree} (h : t.Sound) (c : Config) (scope : Scope) (clock : Clock) :
  ∃ e, Kotlin.standardEngine c = .ok e
    ∧ (∀ id m, .invalidOffset id m ∈ (e.lint t scope).diagnostics
      ↔ TellsOfWideSpace e scope t id m)
    ∧ (∀ id m, .invalidOffset id m ∈ (e.formatTimed clock t scope).1.diagnostics
      ↔ TellsOfWideSpace e scope (e.formatTimed clock t scope).2 id m)
    ∧ ((∀ w ∈ t.leaves, w.IsNarrow) →
      ∀ id m, .invalidOffset id m ∉ (e.lint t scope).diagnostics
        ∧ .invalidOffset id m ∉ (e.formatTimed clock t scope).1.diagnostics)
  := by
  obtain ⟨e, he⟩ : ∃ e, e = Engine.mk standardOrder (max c.maxPasses 1) c.timeout := ⟨_, rfl⟩
  have hrules : e.rules = standardOrder := by
    rw [he]
  have hsound : (e.formatTimed clock t scope).2.Sound :=
    (standard_invariant hrules (P := fun _ => True) (fun _ _ _ _ _ _ => trivial) clock h
      trivial).1
  have hlint (id m : String) : .invalidOffset id m ∈ (e.lint t scope).diagnostics
      ↔ TellsOfWideSpace e scope t id m := by
    rw [Engine.mem_lint_iff, unplaced_iff hrules h]
  have hformat (id m : String) : .invalidOffset id m ∈ (e.formatTimed clock t scope).1.diagnostics
      ↔ TellsOfWideSpace e scope (e.formatTimed clock t scope).2 id m := by
    rw [Engine.mem_formatTimed_iff, unplaced_iff hrules hsound]
  use e, by rw [he, standardEngine_eq], hlint, hformat
  intro hnarrow id m
  have hafter : ∀ w ∈ (e.formatTimed clock t scope).2.leaves, w.IsNarrow :=
    (standard_invariant hrules (P := fun ls => ∀ w ∈ ls, w.IsNarrow)
      (fun _ _ _ _ hrewrite hls => hrewrite.isNarrow hls) clock h hnarrow).2
  constructor
  · rw [hlint]
    rintro ⟨-, -, o, ho, -⟩
    exact not_inWideSpace hnarrow o ho
  · rw [hformat]
    rintro ⟨-, -, o, ho, -⟩
    exact not_inWideSpace hafter o ho

/-- White space of which only the second character has more than one byte. -/
theorem invalidOffset_iff_narrow :
  let t : Tree := .ofRoot .file none (.leaf () .identifier "a"
    (.leaf () .whitespace " \u00a0" (.leaf () .identifier "b" .nil)))
  t.Sound ∧ ∃ e, Kotlin.standardEngine .empty = .ok e
    ∧ ∀ id m, .invalidOffset id m ∉ (e.lint t .empty).diagnostics
      ∧ .invalidOffset id m ∉ (e.formatTimed .stopped t .empty).1.diagnostics
  := by
  intro t
  have ht : t.Sound := by
    apply Tree.Sound.ofRoot
    · rfl
    · decide
  have hnarrow : ∀ w ∈ t.leaves, w.IsNarrow := by
    have hleaves : t.leaves = [⟨1, .identifier, "a"⟩, ⟨2, .whitespace, " \u00a0"⟩,
        ⟨3, .identifier, "b"⟩] := rfl
    rw [hleaves, List.forall_mem_cons, List.forall_mem_cons, List.forall_mem_singleton]
    constructor
    · apply Leaf.isNarrow_of_ne_whitespace (by decide)
    · constructor
      · apply Leaf.isNarrow_of_head (c := ' ') (s := ['\u00a0']) (by simp) rfl
      · apply Leaf.isNarrow_of_ne_whitespace (by decide)
  obtain ⟨e, he, -, -, hnone⟩ := invalidOffset_iff ht .empty .empty .stopped
  exact ⟨ht, e, he, hnone hnarrow⟩

/-- Not every finding has a position: white space that begins with a character of two bytes is
reported inside of it. -/
theorem exists_invalidOffset_mem_lint :
  ¬ ∀ (t : Tree) (c : Config) (scope : Scope), t.Sound →
    ∃ e, Kotlin.standardEngine c = .ok e
      ∧ ∀ id m, .invalidOffset id m ∉ (e.lint t scope).diagnostics
  := by
  intro h
  let t : Tree := .ofRoot .file none (.leaf () .identifier "a"
    (.leaf () .whitespace "\u00a0 " (.leaf () .identifier "b" .nil)))
  have ht : t.Sound := by
    apply Tree.Sound.ofRoot
    · rfl
    · decide
  obtain ⟨e, he, hnone⟩ := h t .empty .empty ht
  rw [standardEngine_eq] at he
  obtain rfl := Except.ok.inj he
  apply hnone "standard:no-multi-spaces" "offset 2 is not on a character boundary"
  decide +kernel

end Fettle
