import Fettle.Proofs.Kotlin.Pieces

/-!
# Legible leaves

Leaves are `Legible` if they have the pieces of readable leaves.  A change that the standard rules
make to leaves they make to any leaves with the same pieces (`Rewrite.of_pieces`), so what they do
to legible leaves leaves them legible (`Rewrite.legible`).
-/

namespace Fettle

open Text

namespace Kotlin

section

variable {ls ms : List (Leaf NodeId)} (h : pieces ls = pieces ms)

include h

theorem startsLine_iff :
  StartsLine ls ↔ StartsLine ms
  := by
  have hiff (ks : List (Leaf NodeId)) : StartsLine ks
      ↔ ∀ r, (CommentWrapping.neighbour? ks.reverse).map Leaf.role = some r → r.2 = true := by
    simp only [StartsLine, Option.map_eq_some_iff, forall_exists_index, and_imp,
      forall_apply_eq_imp_iff₂, Leaf.role_snd]
  rw [hiff, hiff, neighbour?_reverse_role_eq h]

theorem endsLine_iff :
  EndsLine ls ↔ EndsLine ms
  := by
  have hiff (ks : List (Leaf NodeId)) : EndsLine ks
      ↔ ∀ r, (CommentWrapping.neighbour? ks).map Leaf.role = some r → r.2 = true := by
    simp only [EndsLine, Option.map_eq_some_iff, forall_exists_index, and_imp,
      forall_apply_eq_imp_iff₂, Leaf.role_snd]
  rw [hiff, hiff, neighbour?_role_eq h]

theorem indentAfter_eq :
  indentAfter ls = indentAfter ms
  := by
  -- the last white space that breaks a line is a piece
  have hfind (ks : List (Leaf NodeId)) :
      (ks.reverse.find? Leaf.breaksLine).map Leaf.lexeme
        = ((pieces ks).filter fun p => p.role.2).getLast? := by
    rw [filter_pieces, List.filter_map, List.getLast?_map, ← List.head?_filter,
      List.filter_reverse, List.head?_reverse]
    · rfl
    · intro p hp
      rw [Lexeme.role_of_plain hp]
  have hindent (ks : List (Leaf NodeId)) :
      indentAfter ks = match (ks.reverse.find? Leaf.breaksLine).map Leaf.lexeme with
        | some p => String.ofList ('\n' :: (lines p.text).getLast?.getD [])
        | none => "\n" := by
    rw [indentAfter]
    cases ks.reverse.find? Leaf.breaksLine <;> rfl
  rw [hindent, hindent, hfind, hfind, h]

theorem eq_nil_iff :
  ls = [] ↔ ms = []
  := by
  constructor
  · rintro rfl
    apply eq_nil_of_pieces h.symm
  · rintro rfl
    apply eq_nil_of_pieces h

end

/-- A line feed comes first in leaves exactly if it comes first in their pieces. -/
theorem head?_feed_pieces {ls : List (Leaf NodeId)} (hls : ∀ l ∈ ls, l.text ≠ "") :
  ((pieces ls).head?.any fun p => p.text.head? == some '\n')
    = ls.head?.any fun l => l.text.toList.head? == some '\n'
  := by
  cases ls with
  | nil => rfl
  | cons l ls =>
    cases hl : l.kind.isPlain with
    | false =>
      rw [pieces_cons hl]
      rfl
    | true =>
      obtain ⟨c, s, hs⟩ := List.exists_cons_of_ne_nil
        fun hnil => hls l List.mem_cons_self (String.toList_eq_nil_iff.mp hnil)
      rw [pieces_cons_of_plain hl, List.head?_cons, Option.any_some, hs]
      cases pieces ls with
      | nil => rfl
      | cons p ps =>
        rw [join]
        split
        · rfl
        · rfl

/-- A leaf that is not joined is there among other leaves, between leaves with the same pieces. -/
theorem exists_place {ks a b : List (Leaf NodeId)} {c : Leaf NodeId}
    (hc : c.kind.isPlain = false) (hks : pieces (a ++ c :: b) = pieces ks) :
  ∃ a' c' b', ks = a' ++ c' :: b' ∧ pieces a = pieces a' ∧ c'.kind = c.kind ∧ c'.text = c.text
    ∧ pieces b = pieces b'
  := by
  rw [pieces_append_cons hc] at hks
  obtain ⟨a', c', b', rfl, ha, hc', hb⟩ := exists_of_pieces_append hc hks.symm
  exact ⟨a', c', b', rfl, ha.symm, congrArg Lexeme.kind hc', text_of_lexeme hc', hb.symm⟩

theorem pieces_cons_congr {c : Leaf NodeId} {b b' : List (Leaf NodeId)}
    (hc : c.kind.isPlain = false) (hb : pieces b = pieces b') :
  pieces (c :: b) = pieces (c :: b')
  := by
  rw [pieces_cons hc, pieces_cons hc, hb]

theorem pieces_exchange {a a' b b' : List (Leaf NodeId)} {c c' : Leaf NodeId}
    (hc : c.kind.isPlain = false) (hkind : c'.kind = c.kind) (htext : c'.text = c.text)
    (ha : pieces a = pieces a') (hb : pieces b = pieces b') :
  pieces (a ++ c :: b) = pieces (a' ++ c' :: b')
  := by
  rw [pieces_append_cons hc, pieces_append_cons (hkind ▸ hc), ha, hb, Leaf.lexeme, Leaf.lexeme,
    hkind, htext]

theorem isInlineSpace_congr {w w' : Leaf NodeId} (hkind : w'.kind = w.kind)
    (htext : w'.text = w.text) :
  w'.isInlineSpace = w.isInlineSpace
  := by
  rw [Leaf.isInlineSpace, Leaf.isInlineSpace, hkind, htext]

/-- White space on the line before the end of leaves is there before the end of other leaves. -/
theorem exists_space_before {a old d : List (Leaf NodeId)} (h : pieces (a ++ old) = pieces d)
    (space : (old = [] ∧ ∀ p, a.getLast? = some p → p.kind ≠ .whitespace)
      ∨ ∃ w : Leaf NodeId, w.isInlineSpace = true ∧ old = [w]) :
  ∃ a' old', d = a' ++ old' ∧ pieces a = pieces a'
    ∧ ((old' = [] ∧ ∀ p, a'.getLast? = some p → p.kind ≠ .whitespace)
      ∨ ∃ w : Leaf NodeId, w.isInlineSpace = true ∧ old' = [w])
  := by
  rcases space with ⟨rfl, hlast⟩ | ⟨w, hw, rfl⟩
  · rw [List.append_nil] at h
    refine ⟨d, [], (List.append_nil d).symm, h, .inl ⟨rfl, ?_⟩⟩
    intro p hp
    have hrole := getLast?_role_eq h
    rw [hp] at hrole
    obtain ⟨q, hq, heq⟩ := Option.map_eq_some_iff.mp hrole
    rw [ne_eq, ← Leaf.kind_eq_iff_of_role heq rfl]
    apply hlast q hq
  · obtain ⟨a', w', e, rfl, ha, hkind, htext, he⟩ :=
      exists_place (Leaf.isPlain_of_isInlineSpace hw) h
    obtain rfl := eq_nil_of_pieces he.symm
    exact ⟨a', [w'], rfl, ha, .inr ⟨w', (isInlineSpace_congr hkind htext).trans hw, rfl⟩⟩

/-- White space on the line before a leaf is there before a leaf that plays the same role. -/
theorem exists_space_after {gap b d : List (Leaf NodeId)} {n : Leaf NodeId}
    (h : pieces (gap ++ n :: b) = pieces d)
    (space : (gap = [] ∧ n.kind ≠ .whitespace)
      ∨ ∃ w : Leaf NodeId, w.isInlineSpace = true ∧ gap = [w]) :
  ∃ gap' n' b', d = gap' ++ n' :: b' ∧ n.role = n'.role ∧ pieces (n :: b) = pieces (n' :: b')
    ∧ ((gap' = [] ∧ n'.kind ≠ .whitespace)
      ∨ ∃ w : Leaf NodeId, w.isInlineSpace = true ∧ gap' = [w])
  := by
  have hcons {e : List (Leaf NodeId)} (he : pieces (n :: b) = pieces e) :
      ∃ n' b', e = n' :: b' ∧ n.role = n'.role := by
    cases e with
    | nil => cases eq_nil_of_pieces he
    | cons n' b' => exact ⟨n', b', rfl, Option.some.inj (head?_role_eq he)⟩
  rcases space with ⟨rfl, hn⟩ | ⟨w, hw, rfl⟩
  · obtain ⟨n', b', rfl, hrole⟩ := hcons h
    rw [ne_eq, Leaf.kind_eq_iff_of_role hrole rfl] at hn
    exact ⟨[], n', b', rfl, hrole, h, .inl ⟨rfl, hn⟩⟩
  · rw [List.singleton_append, ← List.nil_append (w :: n :: b)] at h
    obtain ⟨e, w', f, rfl, he, hkind, htext, hf⟩ :=
      exists_place (Leaf.isPlain_of_isInlineSpace hw) h
    obtain rfl := eq_nil_of_pieces he.symm
    obtain ⟨n', b', rfl, hrole⟩ := hcons hf
    refine ⟨[w'], n', b', rfl, hrole, hf, .inr ⟨w', ?_, rfl⟩⟩
    rw [isInlineSpace_congr hkind htext, hw]

end Kotlin

open Kotlin

/-- What is done to leaves is done to leaves with the same pieces. -/
theorem Rewrite.of_pieces {ls ls' ms : List (Leaf NodeId)} (h : Rewrite ls ls')
    (hp : pieces ls = pieces ms) (hls : ∀ l ∈ ls, l.text ≠ "") (hms : ∀ l ∈ ms, l.text ≠ "") :
  ∃ ms', Rewrite ms ms' ∧ pieces ls' = pieces ms'
  := by
  have hblock {k : Kind} (hk : k = .blockComment) : k.isPlain = false := by
    rw [hk]
    rfl
  have hspace {k : Kind} (hk : k = .whitespace) : k.isPlain = false := by
    rw [hk]
    rfl
  cases h with
  | @convert a b c i kind short unswitched starts ends =>
    obtain ⟨a', c', b', rfl, ha, hkind, htext, hb⟩ := exists_place (hblock kind) hp
    rw [startsLine_iff ha] at starts
    rw [endsLine_iff hb] at ends
    rw [← htext] at short unswitched ⊢
    exact ⟨_, .convert i (hkind.trans kind) short unswitched starts ends,
      pieces_exchange rfl rfl rfl ha hb⟩
  | @attach a old b c j i kind short starts ends space =>
    obtain ⟨d, c', b', rfl, hd, hkind, htext, hb⟩ := exists_place (hblock kind) hp
    obtain ⟨a', old', rfl, ha, hspace'⟩ := exists_space_before hd space
    rw [startsLine_iff hd] at starts
    rw [endsLine_iff hb] at ends
    rw [← htext] at short ⊢
    exact ⟨_, .attach j i (hkind.trans kind) short starts ends hspace',
      pieces_exchange rfl rfl rfl ha (pieces_cons_congr rfl hb)⟩
  | @separate a gap b c n j kind starts next space =>
    obtain ⟨a', c', d, rfl, ha, hkind, htext, hd⟩ := exists_place (hblock kind) hp
    obtain ⟨gap', n', b', rfl, hrole, hrest, hspace'⟩ := exists_space_after hd space
    rw [startsLine_iff ha] at starts
    rw [Leaf.breaksLine_of_role hrole] at next
    rw [indentAfter_eq ha]
    exact ⟨_, .separate j (hkind.trans kind) starts next hspace',
      pieces_exchange (hblock kind) hkind htext ha (pieces_cons_congr rfl hrest)⟩
  | @single a b w i space long before after =>
    obtain ⟨a', w', b', rfl, ha, hkind, htext, hb⟩ :=
      exists_place (Leaf.isPlain_of_isInlineSpace space) hp
    rw [← isInlineSpace_congr hkind htext] at space
    rw [ne_eq, eq_nil_iff ha] at before
    rw [ne_eq, eq_nil_iff hb] at after
    rw [← htext] at long
    exact ⟨_, .single i space long before after, pieces_exchange rfl rfl rfl ha hb⟩
  | @trimSpace a b w i kind marked left =>
    obtain ⟨a', w', b', rfl, ha, hkind, htext, hb⟩ := exists_place (hspace kind) hp
    rw [isNone_head?_eq hb, ← htext] at marked left ⊢
    exact ⟨_, .trimSpace i (hkind.trans kind) marked left, pieces_exchange rfl rfl rfl ha hb⟩
  | @dropSpace a b w kind marked left =>
    obtain ⟨a', w', b', rfl, ha, hkind, htext, hb⟩ := exists_place (hspace kind) hp
    have hend : b = [] := by
      simpa using (NoTrailingSpaces.atEnd_of_unlines_spaceKept_eq_nil marked left).1
    rw [isNone_head?_eq hb, ← htext] at marked left
    obtain rfl := hend
    obtain rfl := eq_nil_of_pieces hb.symm
    refine ⟨_, .dropSpace (hkind.trans kind) marked left, ?_⟩
    rwa [List.append_nil, List.append_nil]
  | @trimComment a b c i feed kind follows marked =>
    have hplain := Kind.isPlain_of_isComment kind
    obtain ⟨a', c', b', rfl, ha, hkind, htext, hb⟩ := exists_place hplain hp
    rw [← head?_feed_pieces, hb, head?_feed_pieces] at follows
    · rw [← hkind] at kind hplain ⊢
      rw [← htext] at marked ⊢
      exact ⟨_, .trimComment i feed kind follows marked, pieces_exchange hplain rfl rfl ha hb⟩
    · intro l hl
      apply hms l (List.mem_append_right _ (List.mem_cons_of_mem _ hl))
    · intro l hl
      apply hls l (List.mem_append_right _ (List.mem_cons_of_mem _ hl))
  | @collapse a b w i kind before many =>
    obtain ⟨a', w', b', rfl, ha, hkind, htext, hb⟩ := exists_place (hspace kind) hp
    rw [ne_eq, eq_nil_iff ha] at before
    rw [isNone_head?_eq hb, ← htext] at many ⊢
    exact ⟨_, .collapse i (hkind.trans kind) before many, pieces_exchange rfl rfl rfl ha hb⟩

namespace Kotlin

/-- Leaves that are readable, however code is cut. -/
def Legible (ls : List (Leaf NodeId)) : Prop :=
  ∃ ms, pieces ls = pieces ms ∧ Readable ms

theorem Readable.text_ne_empty {ls : List (Leaf NodeId)} (h : Readable ls) :
  ∀ l ∈ ls, l.text ≠ ""
  := by
  intro l hl hempty
  obtain ⟨rest, hfits⟩ := h.of_mem hl
  obtain ⟨c, s, hs, -⟩ := hfits.exists_cons
  rw [hempty] at hs
  cases hs

theorem Legible.exists_nonblank {ls : List (Leaf NodeId)} (h : Legible ls) :
  ∀ l ∈ ls, l.kind.isComment = true → ∃ c ∈ l.text.toList, isBlank c = false
  := by
  intro l hl hcomment
  obtain ⟨ms, hms, hreadable⟩ := h
  obtain ⟨m, hm, heq⟩ := lexeme_mem_of_pieces hms hl (Kind.isPlain_of_isComment hcomment)
  obtain ⟨hkind, htext⟩ := Lexeme.mk.inj heq
  obtain ⟨rest, hfits⟩ := hreadable.of_mem hm
  rw [← htext]
  apply hfits.exists_nonblank
  intro hspace
  rw [← hkind, hspace] at hcomment
  cases hcomment

end Kotlin

/-- Rewritten leaves are legible, if their white space is white space. -/
theorem Rewrite.legible {ls ls' : List (Leaf NodeId)} (h : Rewrite ls ls') (hl : Legible ls)
    (hls : ∀ l ∈ ls, l.text ≠ "")
    (hspace : ∀ l ∈ ls', l.kind = .whitespace →
      l.text ≠ "" ∧ ∀ c ∈ l.text.toList, isBlank c = true) :
  Legible ls'
  := by
  obtain ⟨ms, hms, hreadable⟩ := hl
  obtain ⟨ms', hrewrite, hms'⟩ := h.of_pieces hms hls hreadable.text_ne_empty
  refine ⟨ms', hms', hrewrite.readable hreadable ?_⟩
  intro m hm hkind
  have hplain : m.kind.isPlain = false := by
    rw [hkind]
    rfl
  obtain ⟨l, hl, heq⟩ := lexeme_mem_of_pieces hms'.symm hm hplain
  have hmem := hspace l hl ((congrArg Lexeme.kind heq).trans hkind)
  rwa [text_of_lexeme heq] at hmem

end Fettle
