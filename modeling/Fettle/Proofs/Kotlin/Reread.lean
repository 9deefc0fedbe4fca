import Fettle.Proofs.Kotlin.Legible

/-!
# Reading leaves again

`Reads` is what a reader of Kotlin does: the trees that it makes have the lexemes of the source as
their leaves, however it cuts code other than braces.  `parse?` is such a reader (`reads_parse?`).

`Relexed` relates lexemes to those that are read from their text, and `Reread` leaves to those that
are.  They are the same but for end-of-line comments: one that has come to stand in front of blanks
takes what there is of them up to the line feed, or up to the end of the document.  Legible leaves
of a tree and the leaves that are read from its text are related (`Reads.reread`).
-/

namespace Fettle

open Text

/-! ### Trees of leaves -/

/-- The leaves of a file are the given ones. -/
theorem Tree.leaves_ofLeaves {ls : List (Kind × String)} (hls : ∀ l ∈ ls, l.2 ≠ "") {t : Tree}
    (h : ofLeaves ls = .ok t) :
  t.leaves.map (fun l => (l.kind, l.text)) = ls
  := by
  have hassemble : assemble (ls.map (fun l => .token l.1 l.2) ++ [.finish])
      = (ls.foldr (fun l f => .leaf () l.1 l.2 f) .nil, [.nil]) := by
    clear h
    induction ls with
    | nil => rfl
    | cons l ls ih =>
      have hrest := ih fun m hm => hls m (List.mem_cons_of_mem _ hm)
      rw [List.map_cons, List.cons_append, assemble, if_neg (hls l List.mem_cons_self), hrest]
      rfl
  have hnumber (n : Nat) :
      ((ls.foldr (fun l f => Forest.leaf () l.1 l.2 f) .nil).number n).leaves.map
        (fun l => (l.kind, l.text)) = ls := by
    clear hassemble h hls
    induction ls generalizing n with
    | nil => rfl
    | cons l ls ih =>
      rw [List.foldr_cons, Forest.number, Forest.leaves, List.map_cons, ih]
  rw [ofLeaves, ofEvents] at h
  split at h
  · cases h
  · cases h
  · cases h
  · rw [List.cons_append, assemble, hassemble] at h
    obtain rfl := Except.ok.inj h
    rw [leaves_eq]
    apply hnumber 1

namespace Kotlin

theorem chars_leaves (t : Tree) :
  chars t.leaves = t.text.toList
  := by
  have hjoin (ls : List (Leaf NodeId)) :
      chars ls = (String.join (ls.map Leaf.text)).toList := by
    induction ls with
    | nil => rfl
    | cons l ls ih => simp [ih]
  rw [hjoin, Tree.leaves, Tree.text, Forest.text_eq_join_leaves]

theorem text_ne_nil_of_lexemes? {s : List Char} {ls : List Lexeme} (h : lexemes? s = some ls) :
  ∀ l ∈ ls, l.text ≠ []
  := by
  induction ls generalizing s with
  | nil => simp
  | cons l ls ih =>
    obtain ⟨hcut, hrest⟩ := of_lexemes?_cons h
    intro m hm
    rcases List.mem_cons.mp hm with rfl | hm
    · apply text_ne_nil_of_next? (next?_of_cut hcut)
    · apply ih hrest m hm

/-- What comes of reading a source. -/
theorem of_parse? {s : String} {t : Tree} (h : parse? s = some t) :
  t.Sound ∧ t.text = s ∧ lexemes? s.toList = some (t.leaves.map Leaf.lexeme)
  := by
  rw [parse?] at h
  obtain ⟨ls, hls, h⟩ := Option.bind_eq_some_iff.mp h
  split at h
  · cases ht : Tree.ofLeaves (ls.map fun l => (l.kind, String.ofList l.text)) with
    | error fault =>
      rw [ht] at h
      cases h
    | ok u =>
      rw [ht] at h
      obtain rfl := Option.some.inj h
      have htexts : ∀ l ∈ ls.map fun l => (l.kind, String.ofList l.text), l.2 ≠ "" := by
        intro l hl
        obtain ⟨m, hm, rfl⟩ := List.mem_map.mp hl
        rw [ne_eq, String.ofList_eq_empty_iff]
        apply text_ne_nil_of_lexemes? hls m hm
      have hleaves : u.leaves.map Leaf.lexeme = ls := by
        have hmap := congrArg (List.map fun l => (⟨l.1, l.2.toList⟩ : Lexeme))
          (Tree.leaves_ofLeaves htexts ht)
        rw [List.map_map, List.map_map] at hmap
        apply hmap.trans
        rw [List.map_congr_left, List.map_id]
        intro l _
        simp
      refine ⟨Tree.Sound.ofEvents ht, ?_, ?_⟩
      · apply String.toList_injective
        rw [← chars_leaves, ← flatMap_lexeme_text, hleaves, flatMap_text_of_lexemes? hls]
      · rw [hleaves, hls]
  · cases h

/-! ### Lexemes -/

/-- Blanks that an end-of-line comment takes when it is read again. -/
structure Absorbs (s x : List Char) : Prop where
  mark : ['/', '/'] <+: s
  inline : '\n' ∉ s ++ x
  blank : ∀ c ∈ x, isBlank c = true
  some : x ≠ []

/-- Lexemes and the lexemes that are read from their text. -/
inductive Relexed : List Lexeme → List Lexeme → Prop where
  | nil : Relexed [] []
  /-- A lexeme is read as it is. -/
  | same {ls ls' : List Lexeme} (l : Lexeme) (rest : Relexed ls ls') :
      Relexed (l :: ls) (l :: ls')
  /-- An end-of-line comment takes the blanks in front of the line feed. -/
  | line {s x y : List Char} {ls ls' : List Lexeme} (absorbs : Absorbs s x)
      (rest : Relexed ls ls') :
      Relexed (⟨.eolComment, s⟩ :: ⟨.whitespace, x ++ '\n' :: y⟩ :: ls)
        (⟨.eolComment, s ++ x⟩ :: ⟨.whitespace, '\n' :: y⟩ :: ls')
  /-- An end-of-line comment takes the blanks at the end of the document. -/
  | last {s x : List Char} (absorbs : Absorbs s x) :
      Relexed [⟨.eolComment, s⟩, ⟨.whitespace, x⟩] [⟨.eolComment, s ++ x⟩]

/-- The first lexeme that is read from a text is the one that is cut off. -/
theorem of_lexemes?_cut {l : Lexeme} {r : List Char} {ms : List Lexeme} (hcut : Cut l r)
    (h : lexemes? (l.text ++ r) = some ms) :
  ∃ rest, ms = l :: rest ∧ lexemes? r = some rest
  := by
  rw [lexemes?_append hcut] at h
  obtain ⟨rest, hrest, rfl⟩ := Option.map_eq_some_iff.mp h
  exact ⟨rest, rfl, hrest⟩

/-- An end-of-line comment and blanks up to the end of the line are cut off as one comment. -/
theorem cut_line {s x r : List Char} (mark : ['/', '/'] <+: s) (feed : '\n' ∉ s ++ x)
    (stop : r.head?.all (· == '\n') = true) :
  Cut ⟨.eolComment, s ++ x⟩ r
  := by
  obtain ⟨u, rfl⟩ := mark
  apply Cut.line _ stop
  intro hmem
  apply feed
  apply List.mem_cons_of_mem _ (List.mem_cons_of_mem _ hmem)

/-- The lexemes that are read from the text of readable leaves. -/
theorem relexed_of_lexemes? {ls : List (Leaf NodeId)} {ms : List Lexeme} (h : Readable ls)
    (h' : lexemes? (chars ls) = some ms) :
  Relexed (ls.map Leaf.lexeme) ms
  := by
  induction hn : ls.length using Nat.strongRecOn generalizing ls ms with
  | _ n ih =>
    cases ls with
    | nil =>
      rw [chars_nil, lexemes?] at h'
      obtain rfl := Option.some.inj h'
      apply Relexed.nil
    | cons l ls =>
      rw [List.length_cons] at hn
      rw [chars_cons] at h'
      rw [List.map_cons]
      have hsame (hcut : Cut l.lexeme (chars ls)) :
          Relexed (l.lexeme :: ls.map Leaf.lexeme) ms := by
        obtain ⟨rest, rfl, hrest⟩ := of_lexemes?_cut hcut h'
        apply Relexed.same l.lexeme (ih _ (by omega) h.2 hrest rfl)
      cases h.1 with
      | cut kind cut => apply hsame cut
      | line kind mark feed ends =>
        by_cases hstop : (chars ls).head?.all (· == '\n') = true
        · apply hsame
          rw [Leaf.lexeme, kind, ← List.append_nil l.text.toList]
          apply cut_line mark _ hstop
          rwa [List.append_nil]
        · cases ls with
          | nil => exact absurd rfl hstop
          | cons w ls =>
            -- blanks come first that the reader takes for a part of the comment
            obtain ⟨hw, hbreak⟩ := ends w ls rfl
            have hblank := h.2.1.blank hw
            have hjoin {x : List Char} (hx : '\n' ∉ x) : '\n' ∉ l.text.toList ++ x := by
              intro hfeed
              rcases List.mem_append.mp hfeed with hfeed | hfeed
              · apply feed hfeed
              · apply hx hfeed
            rw [chars_cons] at h' hstop
            rw [List.map_cons, Leaf.lexeme, Leaf.lexeme, kind, hw]
            by_cases hmem : '\n' ∈ w.text.toList
            · obtain ⟨x, y, hxy, hx⟩ := List.eq_append_cons_of_mem hmem
              have hsome : x ≠ [] := by
                rintro rfl
                apply hstop
                rw [hxy]
                rfl
              rw [hxy] at hblank
              have hcut : Cut ⟨.whitespace, '\n' :: y⟩ (chars ls) := by
                apply Cut.space _ (h.2.1.stop hw)
                intro c hc
                apply hblank c (List.mem_append_right _ hc)
              have hblank' : ∀ c ∈ x, isBlank c = true := by
                intro c hc
                apply hblank c (List.mem_append_left _ hc)
              rw [hxy, List.append_assoc, ← List.append_assoc] at h'
              obtain ⟨rest, rfl, hrest⟩ := of_lexemes?_cut (cut_line mark (hjoin hx) rfl) h'
              obtain ⟨rest', rfl, hrest'⟩ := of_lexemes?_cut hcut hrest
              rw [List.length_cons] at hn
              rw [hxy]
              exact .line ⟨mark, hjoin hx, hblank', hsome⟩ (ih _ (by omega) h.2.2 hrest' rfl)
            · have hinline : ¬ w.breaksLine = true := by
                intro hw
                apply hmem (Leaf.breaksLine_iff.mp hw).2
              obtain rfl := hbreak.resolve_left hinline
              have hsome : w.text.toList ≠ [] := by
                intro hnil
                apply hstop
                rw [hnil]
                rfl
              rw [chars_nil, ← List.append_assoc] at h'
              obtain ⟨rest, rfl, hrest⟩ := of_lexemes?_cut (cut_line mark (hjoin hmem) rfl) h'
              rw [lexemes?] at hrest
              obtain rfl := Option.some.inj hrest
              exact .last ⟨mark, hjoin hmem, hblank, hsome⟩

/-- What is read of the pieces is joined of what is read. -/
theorem Relexed.joined {ls ls' : List Lexeme} (h : Relexed ls ls') :
  Relexed (joined ls) (Kotlin.joined ls')
  := by
  have hjoin (s : List Char) {ps ps' : List Lexeme} (hps : Relexed ps ps') :
      Relexed (join s ps) (join s ps') := by
    cases hps with
    | nil => exact .same _ .nil
    | same l rest =>
      rw [join, join]
      split
      · exact .same _ rest
      · exact .same _ (.same l rest)
    | line absorbs rest => exact .same _ (.line absorbs rest)
    | last absorbs => exact .same _ (.last absorbs)
  induction h with
  | nil => exact .nil
  | same l rest ih =>
    rw [Kotlin.joined, Kotlin.joined]
    split
    · apply hjoin _ ih
    · exact .same l ih
  | line absorbs rest ih => exact .line absorbs ih
  | last absorbs => exact .last absorbs

/-! ### Leaves -/

/-- Leaves of plain code, at least one. -/
structure Plain (c : List (Leaf NodeId)) : Prop where
  some : c ≠ []
  plain : ∀ l ∈ c, l.kind.isPlain = true

/-- An end-of-line comment that is longer by blanks behind it. -/
structure Longer (l : Leaf NodeId) (x : List Char) (l' : Leaf NodeId) : Prop
    extends Absorbs l.text.toList x where
  kind : l.kind = .eolComment
  kind' : l'.kind = .eolComment
  text' : l'.text.toList = l.text.toList ++ x

theorem Longer.of_absorbs {l l' : Leaf NodeId} {s x : List Char} (h : Absorbs s x)
    (hl : l.lexeme = ⟨.eolComment, s⟩) (hl' : l'.lexeme = ⟨.eolComment, s ++ x⟩) :
  Longer l x l'
  := by
  obtain ⟨kind, rfl⟩ := Lexeme.mk.inj hl
  obtain ⟨kind', text'⟩ := Lexeme.mk.inj hl'
  exact ⟨h, kind, kind', text'⟩

/-- Leaves and the leaves that are read from their text. -/
inductive Reread : List (Leaf NodeId) → List (Leaf NodeId) → Prop where
  | nil : Reread [] []
  /-- Plain code may be cut in another way. -/
  | code {c c' ls ls' : List (Leaf NodeId)} (plain : Plain c) (plain' : Plain c')
      (text : chars c = chars c') (rest : Reread ls ls') : Reread (c ++ ls) (c' ++ ls')
  /-- Another leaf is the same lexeme. -/
  | same {l l' : Leaf NodeId} {ls ls' : List (Leaf NodeId)} (lexeme : l'.lexeme = l.lexeme)
      (rest : Reread ls ls') : Reread (l :: ls) (l' :: ls')
  /-- An end-of-line comment takes the blanks in front of the line feed. -/
  | line {l l' w w' : Leaf NodeId} {ls ls' : List (Leaf NodeId)} {x y : List Char}
      (longer : Longer l x l') (space : w.kind = .whitespace ∧ w.text.toList = x ++ '\n' :: y)
      (shorter : w'.kind = .whitespace ∧ w'.text.toList = '\n' :: y) (rest : Reread ls ls') :
      Reread (l :: w :: ls) (l' :: w' :: ls')
  /-- An end-of-line comment takes the blanks at the end of the document. -/
  | last {l l' w : Leaf NodeId} (longer : Longer l w.text.toList l')
      (space : w.kind = .whitespace) : Reread [l, w] [l']

/-- What is read of pieces is read of the leaves, however code is cut. -/
theorem reread_of_relexed {ls ls' : List (Leaf NodeId)} (h : Relexed (pieces ls) (pieces ls')) :
  Reread ls ls'
  := by
  generalize hp : pieces ls = ps at h
  generalize hp' : pieces ls' = ps' at h
  induction h generalizing ls ls' with
  | nil =>
    obtain rfl := eq_nil_of_pieces hp
    obtain rfl := eq_nil_of_pieces hp'
    exact .nil
  | same p rest ih =>
    cases hplain : p.kind.isPlain with
    | true =>
      obtain ⟨c, b, rfl, ⟨hsome, hc⟩, rfl, hb⟩ := exists_plain_of_pieces_cons hplain hp
      obtain ⟨c', b', rfl, ⟨hsome', hc'⟩, heq, hb'⟩ := exists_plain_of_pieces_cons hplain hp'
      exact .code ⟨hsome, hc⟩ ⟨hsome', hc'⟩ (congrArg Lexeme.text heq) (ih hb hb')
    | false =>
      obtain ⟨l, b, rfl, hl, hb⟩ := exists_of_pieces_cons hplain hp
      obtain ⟨l', b', rfl, hl', hb'⟩ := exists_of_pieces_cons hplain hp'
      exact .same (hl'.trans hl.symm) (ih hb hb')
  | line absorbs rest ih =>
    obtain ⟨l, d, rfl, hl, hd⟩ := exists_of_pieces_cons rfl hp
    obtain ⟨w, b, rfl, hw, hb⟩ := exists_of_pieces_cons rfl hd
    obtain ⟨l', d', rfl, hl', hd'⟩ := exists_of_pieces_cons rfl hp'
    obtain ⟨w', b', rfl, hw', hb'⟩ := exists_of_pieces_cons rfl hd'
    exact .line (.of_absorbs absorbs hl hl') (Lexeme.mk.inj hw) (Lexeme.mk.inj hw') (ih hb hb')
  | last absorbs =>
    obtain ⟨l, d, rfl, hl, hd⟩ := exists_of_pieces_cons rfl hp
    obtain ⟨w, b, rfl, hw, hb⟩ := exists_of_pieces_cons rfl hd
    obtain ⟨l', b', rfl, hl', hb'⟩ := exists_of_pieces_cons rfl hp'
    obtain rfl := eq_nil_of_pieces hb
    obtain rfl := eq_nil_of_pieces hb'
    obtain ⟨hkind, rfl⟩ := Lexeme.mk.inj hw
    exact .last (.of_absorbs absorbs hl hl') hkind

/-! ### Readers -/

/-- A reader of Kotlin: it makes sound trees, in which the leaves have the pieces of the lexemes
of the source. -/
structure Reads (read : String → Option Tree) : Prop where
  sound : ∀ s t, read s = some t → t.Sound
  leaves : ∀ s t, read s = some t → ∃ ls, lexemes? s.toList = some ls ∧ pieces t.leaves = joined ls

theorem reads_parse? :
  Reads parse?
  := by
  constructor
  · intro s t h
    apply (of_parse? h).1
  · intro s t h
    exact ⟨_, (of_parse? h).2.2, rfl⟩

namespace Reads

variable {read : String → Option Tree} (h : Reads read) {s : String} {t : Tree}
  (ht : read s = some t)

include h ht

theorem text_eq :
  t.text = s
  := by
  obtain ⟨ls, hls, hpieces⟩ := h.leaves s t ht
  apply String.toList_injective
  rw [← chars_leaves, ← flatMap_text_pieces, hpieces, flatMap_text_joined,
    flatMap_text_of_lexemes? hls]

theorem legible :
  Legible t.leaves
  := by
  obtain ⟨ls, hls, hpieces⟩ := h.leaves s t ht
  have hmap : (ls.map fun l => (⟨Tree.root, l.kind, String.ofList l.text⟩ : Leaf NodeId)).map
      Leaf.lexeme = ls := by
    rw [List.map_map, List.map_congr_left, List.map_id]
    intro l _
    simp [Leaf.lexeme]
  refine ⟨_, ?_, readable_of_lexemes? (hmap.symm ▸ hls)⟩
  rw [hpieces, pieces, hmap]

end Reads

/-- The leaves that are read from the text of a tree with legible leaves. -/
theorem Reads.reread {read : String → Option Tree} (h : Reads read) {t u : Tree}
    (ht : Legible t.leaves) (hu : read t.text = some u) :
  Reread t.leaves u.leaves
  := by
  obtain ⟨ms, hms, hreadable⟩ := ht
  obtain ⟨ls, hls, hpieces⟩ := h.leaves _ u hu
  rw [← chars_leaves, ← flatMap_text_pieces, hms, flatMap_text_pieces] at hls
  apply reread_of_relexed
  rw [hms, hpieces]
  apply (relexed_of_lexemes? hreadable hls).joined

end Kotlin

end Fettle
