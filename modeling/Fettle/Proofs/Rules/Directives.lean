import Fettle.Proofs.Rules.Success

/-!
# Directives and comment wrapping

A block comment that is a directive should stay what it is, for an end-of-line comment switches
other lines.  Comment wrapping has its own way to tell directives, which fails for those that
begin with the marks of documentation or of an end-of-line comment
(`CommentWrapping.isSwitch_eq_false_iff`), and it does not look for them at all where code comes
before the comment.  `CommentWrapping.mem_leaves_fix` says which directives stay:  those that do
not fit on a line, that something follows, or that begin a line and are told to be directives.
-/

namespace Fettle

open Text

/-! ### Telling directives -/

theorem Switch.isSome_lead?_iff {body : List Char} :
  (lead? body).isSome = true ↔ ∃ switch : Switch, ∃ rest, body = switch.keyword.toList ++ rest
  := by
  rw [lead?, Option.isSome_or, Bool.or_eq_true, Option.isSome_map, Option.isSome_map,
    Option.isSome_iff_exists, Option.isSome_iff_exists]
  simp only [dropLead?_eq_some_iff]
  constructor
  · rintro (⟨rest, hrest⟩ | ⟨rest, hrest⟩)
    · exact ⟨disable, rest, hrest⟩
    · exact ⟨enable, rest, hrest⟩
  · rintro ⟨switch, rest, hrest⟩
    cases switch with
    | disable => exact .inl ⟨rest, hrest⟩
    | enable => exact .inr ⟨rest, hrest⟩

/-- No keyword begins with another character than its first one. -/
theorem Switch.lead?_cons {c : Char} (hc : c ≠ 'k') (s : List Char) :
  lead? (c :: s) = none
  := by
  rw [← Option.not_isSome_iff_eq_none, isSome_lead?_iff]
  rintro ⟨switch, rest, h⟩
  cases switch with
  | disable => exact hc (List.cons.inj h).1
  | enable => exact hc (List.cons.inj h).1

/-- A directive begins with a keyword. -/
theorem Directive.isSome_lead?_of_isDirective {comment : String}
    (h : isDirective comment = true) :
  (Switch.lead? (trim (commentBody comment.toList))).isSome = true
  := by
  rw [isDirective, parse?] at h
  cases hlead : Switch.lead? (trim (commentBody comment.toList)) with
  | none =>
    rw [hlead] at h
    cases h
  | some _ => rfl

theorem withoutTail_eq (tail s : List Char) :
  withoutTail tail s = s ∨ s = withoutTail tail s ++ tail
  := by
  rw [withoutTail]
  cases hs : dropTail? tail s with
  | none => exact .inl rfl
  | some r => exact .inr (dropTail?_eq_some_iff.mp hs)

/-- A closing mark at the end does not hide a keyword. -/
theorem Switch.isSome_lead?_withoutTail {s : List Char}
    (h : (lead? (trim s)).isSome = true) :
  (lead? (trim (withoutTail ['*', '/'] s))).isSome = true
  := by
  rcases withoutTail_eq ['*', '/'] s with heq | heq
  · rwa [heq]
  · rw [isSome_lead?_iff] at h ⊢
    obtain ⟨switch, rest, hrest⟩ := h
    have hplain : trimEnd switch.keyword.toList = switch.keyword.toList := by
      cases switch <;> decide
    have hstar : '*' ∉ switch.keyword.toList := by
      cases switch <;> decide
    generalize withoutTail ['*', '/'] s = r at heq ⊢
    have hfront : trimStart r ++ ['*', '/'] = switch.keyword.toList ++ rest := by
      have hstart : trimStart (r ++ ['*', '/']) = trimStart r ++ ['*', '/'] := by
        rw [trimStart, trimStart, List.dropWhile_append]
        split
        · rename_i hnil
          rw [List.isEmpty_iff.mp hnil]
          rfl
        · rfl
      rw [← hrest, heq, trim, hstart, List.append_cons, trimEnd_append_of_nonblank _ (by decide)]
    rcases List.append_eq_append_iff.mp hfront with ⟨x, hx, hmark⟩ | ⟨x, hx, -⟩
    · -- the mark is not part of the keyword
      cases x with
      | nil =>
        rw [List.append_nil] at hx
        use switch, []
        rw [trim, ← hx, hplain, List.append_nil]
      | cons c x =>
        obtain ⟨rfl, -⟩ := List.cons.inj hmark
        rw [hx] at hstar
        exact absurd (List.mem_append_right _ List.mem_cons_self) hstar
    · use switch, trimEnd x
      rw [trim, hx, trimEnd_append_of_trimEnd_eq hplain]

namespace CommentWrapping

/-- The first characters of a comment tell whether the rule takes a directive for one. -/
theorem isSwitch_eq_false_iff {comment : String} (h : Directive.isDirective comment = true) :
  isSwitch comment.toList = false
    ↔ ['/', '/'] <+: comment.toList ∨ ['/', '*', '*'] <+: comment.toList
  := by
  have hlead := Directive.isSome_lead?_of_isDirective h
  generalize comment.toList = s at hlead ⊢
  have hother {c : Char} {u : List Char} (hc : c ≠ 'k') (hblank : isBlank c = false) :
      Switch.lead? (trim (withoutTail ['*', '/'] (c :: u))) = none := by
    rcases withoutTail_eq ['*', '/'] (c :: u) with heq | heq
    · rw [heq, trim_cons_of_nonblank hblank, Switch.lead?_cons hc]
    · cases hw : withoutTail ['*', '/'] (c :: u) with
      | nil => rfl
      | cons d v =>
        rw [hw] at heq
        obtain ⟨rfl, -⟩ := List.cons.inj heq
        rw [trim_cons_of_nonblank hblank, Switch.lead?_cons hc]
  cases hline : dropLead? ['/', '/'] s with
  | some u =>
    obtain rfl := dropLead?_eq_some_iff.mp hline
    have hswitch : isSwitch (['/', '/'] ++ u) = false :=
      congrArg Option.isSome (hother (c := '/') (u := '/' :: u) (by decide) (by decide))
    rw [hswitch]
    exact iff_of_true rfl (.inl (List.prefix_append _ _))
  | none =>
    have hnoline : ¬ ['/', '/'] <+: s := by
      rintro ⟨u, hu⟩
      rw [dropLead?_eq_some_iff.mpr hu.symm] at hline
      cases hline
    rw [or_iff_right hnoline]
    simp only [commentBody, hline] at hlead
    cases hblock : dropLead? ['/', '*'] s with
    | none =>
      -- a comment without marks is read alike
      have hnoblock : ¬ ['/', '*', '*'] <+: s := by
        rintro ⟨u, hu⟩
        have hu : ['/', '*'] ++ '*' :: u = s := hu
        rw [dropLead?_eq_some_iff.mpr hu.symm] at hblock
        cases hblock
      simp only [hblock] at hlead
      rw [isSwitch, withoutLead, hblock, Option.getD_none,
        Switch.isSome_lead?_withoutTail hlead]
      exact iff_of_false (by decide) hnoblock
    | some u =>
      obtain rfl := dropLead?_eq_some_iff.mp hblock
      simp only [hblock] at hlead
      rw [isSwitch, withoutLead, hblock, Option.getD_some]
      cases hdoc : dropLead? ['*'] u with
      | some v =>
        obtain rfl := dropLead?_eq_some_iff.mp hdoc
        have hnone : Switch.lead? (trim (withoutTail ['*', '/'] (['*'] ++ v))) = none :=
          hother (by decide) (by decide)
        rw [hnone]
        exact iff_of_true rfl (List.prefix_append ['/', '*', '*'] v)
      | none =>
        rw [withoutLead, hdoc, Option.getD_none] at hlead
        rw [hlead]
        refine iff_of_false (by decide) ?_
        rintro ⟨v, hv⟩
        rw [dropLead?_eq_some_iff.mpr (List.append_cancel_left hv.symm)] at hdoc
        cases hdoc

/-- The comments that become end-of-line comments. -/
theorem Layout.of_eq_alone_or_shortAfter_iff {comment : List Char}
    {prev next : Option (Leaf NodeId)} :
  of comment prev next = alone ∨ of comment prev next = shortAfter
    ↔ '\n' ∉ comment ∧ (∀ n, next = some n → n.breaksLine = true)
      ∧ ((∀ p, prev = some p → p.breaksLine = true) → isSwitch comment = false)
  := by
  constructor
  · rintro (halone | hshort)
    · obtain ⟨hfeed, hswitch, -, hends⟩ := of_eq_alone halone
      exact ⟨hfeed, hends, fun _ => hswitch⟩
    · obtain ⟨hfeed, ⟨p, hp, hbreak⟩, hends⟩ := of_eq_shortAfter hshort
      refine ⟨hfeed, hends, ?_⟩
      intro hstarts
      rw [hstarts p hp] at hbreak
      cases hbreak
  · rintro ⟨hfeed, hends, hswitch⟩
    have hnext : next.filter (!·.breaksLine) = none := by
      rw [Option.filter_eq_none_iff]
      simpa using hends
    rw [of, hnext]
    cases hprev : prev.filter (!·.breaksLine) with
    | none =>
      rw [Option.filter_eq_none_iff] at hprev
      left
      simp [hfeed, hswitch (by simpa using hprev)]
    | some p =>
      right
      simp [hfeed]

end CommentWrapping

/-- A leaf that is replaced by one of another kind is not there any more. -/
theorem Tree.Sound.notMem_leaves_replace {t t' : Tree} (h : t.Sound) {a b : List (Leaf NodeId)}
    {c : Leaf NodeId} (hl : t.leaves = a ++ c :: b) {i : NodeId} {k : Kind} {x : String}
    (hk : c.kind ≠ k) (he : t.replace c.id (.ofLeaf k x) = .ok (i, t')) :
  c ∉ t'.leaves
  := by
  have hd : (a ++ c :: b).Nodup := by
    rw [← hl]
    apply Forest.nodup_leaves h.nodup_attached
  rw [List.nodup_middle, List.nodup_cons] at hd
  rw [h.leaves_replace hl he, List.mem_append, List.mem_cons]
  rintro (hmem | rfl | hmem)
  · apply hd.1 (List.mem_append_left _ hmem)
  · exact hk rfl
  · apply hd.1 (List.mem_append_right _ hmem)

namespace CommentWrapping

section

variable {s : Site} {t : Tree} {a b : List (Leaf NodeId)} {c : Leaf NodeId} (h : s.tree.Sound)
  (hl : s.tree.leaves = a ++ c :: b) (hc : c.id = s.node) (hkind : c.kind = .blockComment)

include h hl hc hkind

theorem notMem_leaves_alone (he : corrected s .alone = .ok t) :
  c ∉ t.leaves
  := by
  rw [corrected, ← hc] at he
  obtain ⟨⟨i, u⟩, hu, rfl⟩ := Except.map_eq_ok_iff.mp he
  apply h.notMem_leaves_replace hl (by simp [hkind]) hu

theorem notMem_leaves_shortAfter (he : corrected s .shortAfter = .ok t) :
  c ∉ t.leaves
  := by
  rw [corrected, ← hc] at he
  split at he
  · cases he
  · rename_i o u hu
    obtain ⟨j, a₀, old, hleaves, -, -⟩ := h.leaves_setSpaceBefore hl (by decide) hu
    rw [← List.singleton_append, ← List.append_assoc] at hleaves
    obtain ⟨⟨i, v⟩, hv, rfl⟩ := Except.map_eq_ok_iff.mp he
    apply (h.setSpaceBefore hu).notMem_leaves_replace hleaves (by simp [hkind]) hv

omit hc in
theorem mem_leaves_followed {n : Leaf NodeId} (hn : neighbour? b = some n)
    (hbreak : n.breaksLine = false) (he : corrected s (.followed n.id) = .ok t) :
  c ∈ t.leaves
  := by
  obtain ⟨gap, rest, rfl, -⟩ := exists_gap_of_neighbour? hn hbreak
  rw [← List.cons_append, ← List.append_assoc] at hl
  obtain ⟨⟨o, u⟩, hu, rfl⟩ := Except.map_eq_ok_iff.mp he
  have hne : s.tree.indent s.node ≠ "" := by
    rw [Tree.indent]
    split
    · simp
    · decide
  obtain ⟨j, a₀, old, hleaves, hsplit, hold⟩ := h.leaves_setSpaceBefore hl hne hu
  have hmem : c ∈ a₀ ++ old := by
    rw [← hsplit]
    simp
  rw [hleaves]
  apply List.mem_append_left
  rcases hold with ⟨rfl, -⟩ | ⟨w, hw, rfl⟩
  · rwa [List.append_nil] at hmem
  · rcases List.mem_append.mp hmem with hmem | hmem
    · exact hmem
    · rw [List.mem_singleton.mp hmem, hw] at hkind
      cases hkind

end

/-- The visit of a block comment that is a directive leaves it in place, unless it fits on a
line, nothing follows it there, and either something comes before it there or its marks are not
those of a block comment. -/
theorem mem_leaves_fix_iff {s : Site} {a b : List (Leaf NodeId)} {c : Leaf NodeId}
    (h : s.tree.Sound) (hl : s.tree.leaves = a ++ c :: b) (hc : c.id = s.node)
    (hkind : c.kind = .blockComment) (hdirective : Directive.isDirective c.text = true) :
  ∃ t, fix s = .ok t
    ∧ (c ∈ t.leaves ↔ '\n' ∈ c.text.toList ∨ ¬ EndsLine b
      ∨ StartsLine a ∧ ¬ (['/', '/'] <+: c.text.toList ∨ ['/', '*', '*'] <+: c.text.toList))
  := by
  have hatt : s.tree.isAttached s.node = true := by
    rw [Tree.isAttached_iff, ← hc]
    apply Tree.Sound.mem_attached hl
  have hsite : s.kind = .blockComment := by
    rw [Site.kind_leaf h hl hc, hkind]
  have hmem : c ∈ s.tree.leaves := by
    rw [hl]
    simp
  have hconverted := @Layout.of_eq_alone_or_shortAfter_iff c.text.toList (neighbour? a.reverse)
    (neighbour? b)
  have hlayout := layout_leaf h hl hc
  rw [← hlayout, ← not_iff_not] at hconverted
  rw [← isSwitch_eq_false_iff hdirective]
  obtain ⟨t, ht⟩ := exists_fix h hatt
  use t, ht
  have hkept : c ∈ t.leaves ↔ ¬ (layout s = .alone ∨ layout s = .shortAfter) := by
    rw [fix, if_pos hsite] at ht
    cases hcase : layout s with
    | fine | spanning | between | longAfter =>
      rw [hcase] at ht
      obtain rfl := Except.ok.inj ht
      exact iff_of_true hmem (by simp)
    | alone =>
      rw [hcase] at ht
      exact iff_of_false (notMem_leaves_alone h hl hc hkind ht) (by simp)
    | shortAfter =>
      rw [hcase] at ht
      exact iff_of_false (notMem_leaves_shortAfter h hl hc hkind ht) (by simp)
    | followed id =>
      rw [hcase] at ht hlayout
      obtain ⟨-, n, hn, rfl, hbreak⟩ := Layout.of_eq_followed hlayout.symm
      exact iff_of_true (mem_leaves_followed h hl hkind hn hbreak ht) (by simp)
  rw [hkept, hconverted, not_and_or, not_and_or, not_not, Classical.not_imp]
  rfl

/-- A directive that begins its line stays. -/
theorem mem_leaves_fix_iff_alone :
  let t : Tree := .ofRoot .file none (.leaf () .blockComment "/* ktlint-disable no-tabs */"
    (.leaf () .whitespace "\n" .nil))
  let s : Site := ⟨t, 1, ⟨"standard:comment-wrapping"⟩, ⟨[]⟩⟩
  let c : Leaf NodeId := ⟨1, .blockComment, "/* ktlint-disable no-tabs */"⟩
  let b : List (Leaf NodeId) := [⟨2, .whitespace, "\n"⟩]
  t.Sound ∧ t.leaves = [] ++ c :: b ∧ c.id = s.node ∧ c.kind = .blockComment
    ∧ Directive.isDirective c.text = true
    ∧ ∃ t', fix s = .ok t'
      ∧ (c ∈ t'.leaves ↔ '\n' ∈ c.text.toList ∨ ¬ EndsLine b
        ∨ StartsLine [] ∧ ¬ (['/', '/'] <+: c.text.toList ∨ ['/', '*', '*'] <+: c.text.toList))
  := by
  intro t s c b
  have ht : t.Sound := by
    apply Tree.Sound.ofRoot
    · rfl
    · decide
  have hl : t.leaves = [] ++ c :: b := by
    rfl
  have hdirective : Directive.isDirective c.text = true := by
    decide +kernel
  use ht, hl, rfl, rfl, hdirective
  apply @mem_leaves_fix_iff s [] b c ht hl rfl rfl hdirective

/-- Not every directive stays: one that comes after code and ends its line does not. -/
theorem exists_directive_notMem_leaves_fix :
  ¬ ∀ (s : Site) (c : Leaf NodeId), s.tree.Sound → c ∈ s.tree.leaves → c.id = s.node →
    c.kind = .blockComment → Directive.isDirective c.text = true →
    ∃ t, fix s = .ok t ∧ c ∈ t.leaves
  := by
  intro h
  let t : Tree := .ofRoot .file none (.leaf () .identifier "x" (.leaf () .whitespace " "
    (.leaf () .blockComment "/* ktlint-disable no-tabs */" (.leaf () .whitespace "\n" .nil))))
  let s : Site := ⟨t, 3, ⟨"standard:comment-wrapping"⟩, ⟨[]⟩⟩
  let c : Leaf NodeId := ⟨3, .blockComment, "/* ktlint-disable no-tabs */"⟩
  have ht : t.Sound := by
    apply Tree.Sound.ofRoot
    · rfl
    · decide
  have hl : t.leaves = [⟨1, .identifier, "x"⟩, ⟨2, .whitespace, " "⟩] ++ c
      :: [⟨4, .whitespace, "\n"⟩] := by
    rfl
  have hmem : c ∈ t.leaves := by
    rw [hl]
    simp
  have hlayout : layout s = .shortAfter := by
    decide +kernel
  obtain ⟨t', ht', hmem'⟩ := h s c ht hmem rfl rfl (by decide +kernel)
  rw [fix, if_pos (by decide), hlayout] at ht'
  apply @notMem_leaves_shortAfter s t' _ _ c ht hl rfl rfl ht' hmem'

end CommentWrapping

end Fettle
