import Fettle.Kotlin.Source
import Fettle.Proofs.Kotlin.Lexing
import Fettle.Proofs.Rules.Outline
import Fettle.Proofs.Text.Thinned

/-!
# Leaves that are read again

Leaves are `Readable` if every one of them is the lexeme that is cut off where it stands.  An
end-of-line comment need not be: it may have become one in front of blanks that end the line or
the document, which a reader takes for a part of it.

The leaves of Kotlin source are readable (`readable_of_lexemes?`), and what the standard rules do
to readable leaves leaves them readable (`Rewrite.readable`).
-/

namespace Fettle

open Text

/-- The lexeme that a leaf stands for. -/
def Leaf.lexeme {ι : Type} (l : Leaf ι) : Kotlin.Lexeme :=
  ⟨l.kind, l.text.toList⟩

namespace Kotlin

/-- The characters of some leaves. -/
def chars (ls : List (Leaf NodeId)) : List Char :=
  ls.flatMap fun l => l.text.toList

@[simp]
theorem chars_nil :
  chars [] = []
  := rfl

@[simp]
theorem chars_cons (l : Leaf NodeId) (ls : List (Leaf NodeId)) :
  chars (l :: ls) = l.text.toList ++ chars ls
  := List.flatMap_cons

theorem chars_append (a b : List (Leaf NodeId)) :
  chars (a ++ b) = chars a ++ chars b
  := List.flatMap_append

/-- Whether white space that ends the line or the document, if anything, comes first. -/
def EndsInSpace (ls : List (Leaf NodeId)) : Prop :=
  ∀ w rest, ls = w :: rest → w.kind = .whitespace ∧ (w.breaksLine = true ∨ rest = [])

/-- A leaf is read in front of others, or is an end-of-line comment that may become longer. -/
inductive Fits (l : Leaf NodeId) (ls : List (Leaf NodeId)) : Prop where
  | line (kind : l.kind = .eolComment) (mark : ['/', '/'] <+: l.text.toList)
      (feed : '\n' ∉ l.text.toList) (ends : EndsInSpace ls)
  | cut (kind : l.kind ≠ .eolComment) (cut : Cut l.lexeme (chars ls))

/-- Every leaf is read in front of those after it. -/
def Readable : List (Leaf NodeId) → Prop
  | [] => True
  | l :: ls => Fits l ls ∧ Readable ls

/-! ### Leaves that fit -/

namespace Fits

variable {l : Leaf NodeId} {ls ls' : List (Leaf NodeId)}

/-- A leaf begins with a blank exactly if it is white space. -/
theorem exists_cons (h : Fits l ls) :
  ∃ c s, l.text.toList = c :: s ∧ (isBlank c = true ↔ l.kind = .whitespace)
  := by
  cases h with
  | line kind mark _ _ =>
    obtain ⟨s, hs⟩ := mark
    use '/', '/' :: s, hs.symm
    rw [kind]
    decide
  | cut _ cut =>
    by_cases hkind : l.kind = .whitespace
    · obtain ⟨hne, hblank, -⟩ := cut.of_whitespace hkind
      obtain ⟨c, s, hs⟩ := List.exists_cons_of_ne_nil hne
      have hc : c ∈ l.lexeme.text := by
        rw [hs]
        apply List.mem_cons_self
      exact ⟨c, s, hs, by simp [hblank c hc, hkind]⟩
    · obtain ⟨c, s, hs, hc⟩ := cut.exists_nonblank hkind
      exact ⟨c, s, hs, by simp [hc, hkind]⟩

theorem head?_chars (h : Fits l ls) (rest : List (Leaf NodeId)) :
  (chars (l :: rest)).head? = l.text.toList.head?
  := by
  obtain ⟨c, s, hs, -⟩ := h.exists_cons
  rw [chars_cons, hs]
  rfl

theorem any_isBlank (h : Fits l ls) (rest : List (Leaf NodeId)) :
  (chars (l :: rest)).head?.any isBlank = true ↔ l.kind = .whitespace
  := by
  obtain ⟨c, s, hs, hc⟩ := h.exists_cons
  rw [h.head?_chars, hs]
  exact hc

theorem all_isBlank (h : Fits l ls) (rest : List (Leaf NodeId)) :
  (chars (l :: rest)).head?.all isBlank = true ↔ l.kind = .whitespace
  := by
  obtain ⟨c, s, hs, hc⟩ := h.exists_cons
  rw [h.head?_chars, hs]
  exact hc

/-- Comments are not blank. -/
theorem exists_nonblank (h : Fits l ls) (hkind : l.kind ≠ .whitespace) :
  ∃ c ∈ l.text.toList, isBlank c = false
  := by
  obtain ⟨c, s, hs, hc⟩ := h.exists_cons
  use c
  rw [hs]
  use List.mem_cons_self
  rw [← Bool.not_eq_true, hc]
  exact hkind

/-- Only the first character behind a leaf matters if that is not white space. -/
theorem follow (h : Fits l ls) (hhead : (chars ls').head? = (chars ls).head?)
    (hspace : ¬ EndsInSpace ls) :
  Fits l ls'
  := by
  cases h with
  | line _ _ _ ends => exact absurd ends hspace
  | cut kind cut => exact .cut kind (cut.follow hhead)

/-- Blanks can come behind what is not white space. -/
theorem before_space (h : Fits l ls) (hkind : l.kind ≠ .whitespace)
    (hends : EndsInSpace ls → EndsInSpace ls') (hblank : (chars ls').head?.all isBlank = true) :
  Fits l ls'
  := by
  cases h with
  | line kind mark feed ends => exact .line kind mark feed (hends ends)
  | cut kind cut => exact .cut kind (cut.before_blank hkind kind hblank)

/-- What comes before a blank is not white space. -/
theorem ne_whitespace (h : Fits l ls) (hblank : (chars ls).head?.any isBlank = true) :
  l.kind ≠ .whitespace
  := by
  intro hkind
  cases h with
  | line kind _ _ _ =>
    rw [kind] at hkind
    cases hkind
  | cut _ cut =>
    rw [(cut.of_whitespace hkind).2.2] at hblank
    cases hblank

end Fits

theorem Readable.of_mem {ls : List (Leaf NodeId)} (h : Readable ls) {l : Leaf NodeId}
    (hl : l ∈ ls) :
  ∃ rest, Fits l rest
  := by
  induction ls with
  | nil => cases hl
  | cons m ls ih =>
    rcases List.mem_cons.mp hl with rfl | hl
    · exact ⟨ls, h.1⟩
    · apply ih h.2 hl

theorem Readable.of_append {a b : List (Leaf NodeId)} (h : Readable (a ++ b)) :
  Readable b
  := by
  induction a with
  | nil => exact h
  | cons l a ih => apply ih h.2

/-- What comes after some leaves is exchanged if the last of them still fits. -/
theorem Readable.exchange {a xs ys : List (Leaf NodeId)} (h : Readable (a ++ xs)) (hxs : xs ≠ [])
    (hys : Readable ys) (hjoin : ∀ l, a.getLast? = some l → Fits l xs → Fits l ys) :
  Readable (a ++ ys)
  := by
  induction a with
  | nil => exact hys
  | cons l a ih =>
    cases a with
    | nil => exact ⟨hjoin l rfl h.1, hys⟩
    | cons m a =>
      constructor
      · have hhead (zs : List (Leaf NodeId)) :
            (chars (m :: a ++ zs)).head? = m.text.toList.head? := h.2.1.head?_chars (a ++ zs)
        cases h.1 with
        | line kind mark feed ends =>
          apply Fits.line kind mark feed
          intro w rest heq
          obtain ⟨rfl, -⟩ := List.cons.inj heq
          obtain ⟨hkind, hbreak | hnone⟩ := ends _ _ rfl
          · exact ⟨hkind, .inl hbreak⟩
          · exact absurd (List.append_eq_nil_iff.mp hnone).2 hxs
        | cut kind cut => exact .cut kind (cut.follow ((hhead ys).trans (hhead xs).symm))
      · apply ih h.2
        intro k hk
        apply hjoin k
        rw [List.getLast?_cons_cons]
        exact hk

/-! ### The leaves of Kotlin source -/

theorem flatMap_lexeme_text (ls : List (Leaf NodeId)) :
  (ls.map Leaf.lexeme).flatMap Lexeme.text = chars ls
  := by
  rw [List.flatMap_map]
  rfl

/-- The first lexeme of a text is cut off, and the others are those of what follows. -/
theorem of_lexemes?_cons {s : List Char} {l : Lexeme} {ls : List Lexeme}
    (h : lexemes? s = some (l :: ls)) :
  Cut l (ls.flatMap Lexeme.text) ∧ lexemes? (ls.flatMap Lexeme.text) = some ls
  := by
  cases s with
  | nil =>
    rw [lexemes?] at h
    cases h
  | cons c s =>
    rw [lexemes?] at h
    split at h
    · cases h
    · rename_i q hq
      obtain ⟨ms, hms, heq⟩ := Option.map_eq_some_iff.mp h
      obtain ⟨rfl, rfl⟩ := List.cons.inj heq
      rw [flatMap_text_of_lexemes? hms]
      exact ⟨cut_of_next? hq, hms⟩

/-- Leaves that are the lexemes of their text are readable. -/
theorem readable_of_lexemes? {s : List Char} {ls : List (Leaf NodeId)}
    (h : lexemes? s = some (ls.map Leaf.lexeme)) :
  Readable ls
  := by
  induction ls generalizing s with
  | nil => trivial
  | cons l ls ih =>
    obtain ⟨hcut, hrest⟩ := of_lexemes?_cons h
    rw [flatMap_lexeme_text] at hcut
    have hls := ih hrest
    refine ⟨?_, hls⟩
    by_cases hkind : l.kind = .eolComment
    · obtain ⟨mark, feed, stop⟩ := hcut.of_eolComment hkind
      apply Fits.line hkind mark feed
      rintro w rest rfl
      -- the comment ends before a line feed, so white space that begins with it comes next
      obtain ⟨c, u, hu, hc⟩ := hls.1.exists_cons
      rw [hls.1.head?_chars, hu] at stop
      obtain rfl : c = '\n' := by simpa using stop
      have hw := hc.mp (by decide)
      use hw
      left
      rw [Leaf.breaksLine_iff, hu]
      exact ⟨hw, List.mem_cons_self⟩
    · exact .cut hkind hcut

/-! ### Leaves in the place of others -/

/-- White space fits in front of what is not blank. -/
theorem Fits.space {w : Leaf NodeId} {ls : List (Leaf NodeId)} (hkind : w.kind = .whitespace)
    (htext : w.text ≠ "" ∧ ∀ c ∈ w.text.toList, isBlank c = true)
    (hstop : (chars ls).head?.any isBlank = false) :
  Fits w ls
  := by
  obtain ⟨c, s, hs⟩ := List.exists_cons_of_ne_nil
    fun hnil => htext.1 (String.toList_eq_nil_iff.mp hnil)
  apply Fits.cut
  · rw [hkind]
    decide
  · rw [Leaf.lexeme, hkind, hs]
    rw [hs] at htext
    apply Cut.space htext.2 hstop

theorem Fits.blank {w : Leaf NodeId} {ls : List (Leaf NodeId)} (h : Fits w ls)
    (hkind : w.kind = .whitespace) :
  ∀ c ∈ w.text.toList, isBlank c = true
  := by
  cases h with
  | line kind _ _ _ => cases kind.symm.trans hkind
  | cut _ cut => apply (cut.of_whitespace hkind).2.1

theorem Fits.stop {w : Leaf NodeId} {ls : List (Leaf NodeId)} (h : Fits w ls)
    (hkind : w.kind = .whitespace) :
  (chars ls).head?.any isBlank = false
  := by
  rw [← Bool.not_eq_true]
  intro hblank
  apply h.ne_whitespace hblank hkind

/-- What white space comes before is not white space. -/
theorem not_whitespace_of_space {w n : Leaf NodeId} {rest : List (Leaf NodeId)}
    (h : Readable (w :: n :: rest)) (hkind : w.kind = .whitespace) :
  n.kind ≠ .whitespace
  := by
  rw [ne_eq, ← h.2.1.any_isBlank rest, h.1.stop hkind]
  decide

/-- Where a line or the document ends, only white space comes before its end. -/
theorem endsInSpace_of_endsLine {ls : List (Leaf NodeId)} (h : EndsLine ls) (hr : Readable ls) :
  EndsInSpace ls
  := by
  rintro w rest rfl
  rw [EndsLine, CommentWrapping.neighbour?] at h
  split at h
  · rename_i hinline
    have hkind := (Leaf.isInlineSpace_iff.mp hinline).1
    use hkind
    right
    cases rest with
    | nil => rfl
    | cons n rest =>
      exact absurd (Leaf.breaksLine_iff.mp (h n rfl)).1 (not_whitespace_of_space hr hkind)
  · have hbreak := h w rfl
    exact ⟨(Leaf.breaksLine_iff.mp hbreak).1, .inl hbreak⟩

section

variable {a b : List (Leaf NodeId)} {l l' : Leaf NodeId} (h : Readable (a ++ l :: b))

include h

/-- Other white space comes in the place of some, and breaks the line if that does. -/
theorem Readable.exchange_space (hkind : l.kind = .whitespace) (hkind' : l'.kind = .whitespace)
    (htext : l'.text ≠ "" ∧ ∀ c ∈ l'.text.toList, isBlank c = true)
    (hbreak : l.breaksLine = true → l'.breaksLine = true) :
  Readable (a ++ l' :: b)
  := by
  have hb := h.of_append
  have hl' : Fits l' b := Fits.space hkind' htext (hb.1.stop hkind)
  have hys : Readable (l' :: b) := ⟨hl', hb.2⟩
  apply h.exchange (List.cons_ne_nil _ _) hys
  intro m _ hm
  apply hm.before_space
  · apply hm.ne_whitespace ((hb.1.any_isBlank b).mpr hkind)
  · rintro hends w rest heq
    obtain ⟨rfl, rfl⟩ := List.cons.inj heq
    exact ⟨hkind', (hends _ _ rfl).2.imp_left hbreak⟩
  · apply (hl'.all_isBlank b).mpr hkind'

/-- Another element that begins alike comes in the place of one. -/
theorem Readable.exchange_element (hkind : l.kind ≠ .whitespace) (hl' : Fits l' b)
    (hhead : l'.text.toList.head? = l.text.toList.head?) :
  Readable (a ++ l' :: b)
  := by
  have hb := h.of_append
  have hys : Readable (l' :: b) := ⟨hl', hb.2⟩
  apply h.exchange (List.cons_ne_nil _ _) hys
  intro m _ hm
  apply hm.follow
  · rw [hb.1.head?_chars, hl'.head?_chars, hhead]
  · intro hends
    exact hkind (hends l b rfl).1

end

/-- A block comment is between its marks. -/
theorem Fits.of_block {c : Leaf NodeId} {ls : List (Leaf NodeId)} (h : Fits c ls)
    (hkind : c.kind = .blockComment ∨ c.kind = .kdoc) :
  ∃ s, c.lexeme = ⟨blockKind ('/' :: '*' :: s), '/' :: '*' :: s⟩
    ∧ Delimited.scan [.comment] (s ++ chars ls) = some (s, chars ls)
  := by
  cases h with
  | line kind _ _ _ => rcases hkind with hkind | hkind <;> cases kind.symm.trans hkind
  | cut _ cut => apply cut.of_block hkind

/-- What a block comment on one line becomes fits at the end of a line. -/
theorem fits_asEolComment {c : Leaf NodeId} {b : List (Leaf NodeId)} (i : NodeId)
    (hshort : '\n' ∉ c.text.toList) (hends : EndsInSpace b) :
  Fits ⟨i, .eolComment, CommentWrapping.asEolComment c.text.toList⟩ b
  := by
  apply Fits.line rfl _ _ hends
  · rw [CommentWrapping.asEolComment, String.toList_ofList]
    exact ⟨_, rfl⟩
  · apply feed_notMem_asEolComment hshort

/-- A comment without the blanks at the ends of its lines fits where the comment does. -/
theorem Fits.thinned {c : Leaf NodeId} {b : List (Leaf NodeId)} (h : Fits c b) (i : NodeId)
    (hkind : c.kind.isComment = true) {s : List Char} (hs : Thinned c.text.toList s) :
  Fits ⟨i, c.kind, String.ofList s⟩ b ∧ s.head? = c.text.toList.head?
  := by
  have hcut {k : Kind} (hk : k ≠ .eolComment) (hcut : Cut ⟨k, s⟩ (chars b)) :
      Fits ⟨i, k, String.ofList s⟩ b := by
    apply Fits.cut hk
    rw [Leaf.lexeme, String.toList_ofList]
    exact hcut
  have hblock (hk : c.kind = .blockComment ∨ c.kind = .kdoc) (hne : c.kind ≠ .eolComment) :
      Fits ⟨i, c.kind, String.ofList s⟩ b ∧ s.head? = c.text.toList.head? := by
    obtain ⟨u, hu, closed⟩ := h.of_block hk
    obtain ⟨hk', htext⟩ := Lexeme.mk.inj hu
    rw [htext] at hs ⊢
    obtain ⟨t, rfl, ht⟩ := hs.exists_cons (by decide)
    obtain ⟨v, rfl, hv⟩ := ht.exists_cons (by decide)
    constructor
    · apply hcut hne
      rw [hk']
      apply Cut.thinned closed hv
    · rfl
  cases hk : c.kind with
  | eolComment =>
    cases h with
    | line kind mark feed ends =>
      obtain ⟨u, hu⟩ := mark
      rw [← hu] at hs ⊢
      obtain ⟨t, rfl, ht⟩ := hs.exists_cons (by decide)
      obtain ⟨v, rfl, hv⟩ := ht.exists_cons (by decide)
      constructor
      · apply Fits.line rfl _ _ ends
        · rw [String.toList_ofList]
          exact ⟨v, rfl⟩
        · rw [String.toList_ofList]
          intro hmem
          apply feed
          rw [← hu]
          apply hs.mem_of_mem hmem
      · rfl
    | cut kind _ => exact absurd hk kind
  | blockComment =>
    rw [hk] at hblock
    apply hblock (.inl rfl) (by decide)
  | kdoc =>
    rw [hk] at hblock
    apply hblock (.inr rfl) (by decide)
  | _ =>
    rw [hk] at hkind
    cases hkind

end Kotlin

open Kotlin

/-- Rewritten leaves are readable, if their white space is white space. -/
theorem Rewrite.readable {ls ls' : List (Leaf NodeId)} (h : Rewrite ls ls') (hr : Readable ls)
    (hspace : ∀ l ∈ ls', l.kind = .whitespace →
      l.text ≠ "" ∧ ∀ c ∈ l.text.toList, isBlank c = true) :
  Readable ls'
  := by
  cases h with
  | @convert a b c i kind short _ _ ends =>
    have hb := hr.of_append
    obtain ⟨s, hs, -⟩ := hb.1.of_block (.inl kind)
    have htext : c.text.toList = '/' :: '*' :: s := congrArg Lexeme.text hs
    apply hr.exchange_element
    · rw [kind]
      decide
    · apply fits_asEolComment i short (endsInSpace_of_endsLine ends hb.2)
    · rw [CommentWrapping.asEolComment, String.toList_ofList, htext]
      rfl
  | @attach a old b c j i kind short starts ends space =>
    rw [List.append_assoc] at hr
    have hc := hr.of_append.of_append
    have heol := fits_asEolComment i short (endsInSpace_of_endsLine ends hc.2)
    have hsp : Fits ⟨j, .whitespace, " "⟩
        (⟨i, .eolComment, CommentWrapping.asEolComment c.text.toList⟩ :: b) := by
      apply Fits.space rfl
      · apply hspace _ _ rfl
        simp
      · rw [heol.head?_chars, CommentWrapping.asEolComment, String.toList_ofList]
        rfl
    have hys : Readable (⟨j, .whitespace, " "⟩
        :: ⟨i, .eolComment, CommentWrapping.asEolComment c.text.toList⟩ :: b) :=
      ⟨hsp, heol, hc.2⟩
    apply hr.exchange (by simp) hys
    intro l hl hfits
    rcases space with ⟨rfl, hlast⟩ | ⟨w, hw, rfl⟩
    · apply hfits.before_space (hlast l hl) _ ((hsp.all_isBlank _).mpr rfl)
      intro hnot
      have hcontra := (hnot _ _ rfl).1
      rw [kind] at hcontra
      cases hcontra
    · have hw' := (hr.of_append.1.any_isBlank (c :: b)).mpr (Leaf.isInlineSpace_iff.mp hw).1
      apply hfits.before_space (hfits.ne_whitespace hw') _ ((hsp.all_isBlank _).mpr rfl)
      intro hnot
      rcases (hnot _ _ rfl).2 with hbreak | hnone
      · rw [Leaf.breaksLine_of_isInlineSpace hw] at hbreak
        cases hbreak
      · cases hnone
  | @separate a gap b c n j kind starts next space =>
    have hc := hr.of_append
    have hn : n.kind ≠ .whitespace ∧ Readable (n :: b) := by
      rcases space with ⟨rfl, hn⟩ | ⟨w, hw, rfl⟩
      · exact ⟨hn, hc.2⟩
      · exact ⟨not_whitespace_of_space hc.2 (Leaf.isInlineSpace_iff.mp hw).1, hc.2.2⟩
    have hbreak : Fits ⟨j, .whitespace, indentAfter a⟩ (n :: b) := by
      apply Fits.space rfl
      · apply hspace _ _ rfl
        simp
      · rw [← Bool.not_eq_true, hn.2.1.any_isBlank]
        exact hn.1
    have hc' : Fits c (⟨j, .whitespace, indentAfter a⟩ :: n :: b) := by
      apply hc.1.before_space
      · rw [kind]
        decide
      · rintro - w rest heq
        obtain ⟨rfl, -⟩ := List.cons.inj heq
        exact ⟨rfl, .inl (Leaf.breaksLine_iff.mpr ⟨rfl, feed_mem_indentAfter a⟩)⟩
      · apply (hbreak.all_isBlank _).mpr rfl
    have hys : Readable (c :: ⟨j, .whitespace, indentAfter a⟩ :: n :: b) :=
      ⟨hc', hbreak, hn.2⟩
    apply hr.exchange (List.cons_ne_nil _ _) hys
    intro l _ hl
    apply hl.follow
    · rw [hc.1.head?_chars, hc.1.head?_chars]
    · intro hnot
      have hcontra := (hnot _ _ rfl).1
      rw [kind] at hcontra
      cases hcontra
  | @single a b w i space long before after =>
    apply hr.exchange_space (Leaf.isInlineSpace_iff.mp space).1 rfl
    · apply hspace _ _ rfl
      simp
    · intro hbreak
      rw [Leaf.breaksLine_of_isInlineSpace space] at hbreak
      cases hbreak
  | @trimSpace a b w i kind marked left =>
    apply hr.exchange_space kind rfl
    · apply hspace _ _ rfl
      simp
    · intro hbreak
      rw [Leaf.breaksLine_iff] at hbreak ⊢
      use rfl
      rw [String.toList_ofList, ← List.count_pos_iff, NoTrailingSpaces.count_unlines_spaceKept,
        List.count_pos_iff]
      exact hbreak.2
  | @dropSpace a b w kind marked left =>
    have hb : b = [] := by
      have hend := NoTrailingSpaces.atEnd_of_unlines_spaceKept_eq_nil marked left
      simpa using hend.1
    subst hb
    have hnil : Readable [] := trivial
    apply hr.exchange (List.cons_ne_nil _ _) hnil
    intro l _ hl
    apply hl.before_space
    · apply hl.ne_whitespace ((hr.of_append.1.any_isBlank []).mpr kind)
    · rintro - w' rest heq
      cases heq
    · rfl
  | @trimComment a b c i feed kind follows marked =>
    have hb := hr.of_append
    have hthin : Thinned c.text.toList
        (unlines (NoTrailingSpaces.commentKept feed (lines c.text.toList))) := by
      have hkept := NoTrailingSpaces.thinned_commentKept feed (lines c.text.toList)
      rwa [unlines_lines] at hkept
    have hkind : c.kind ≠ .whitespace := by
      intro hnot
      rw [hnot] at kind
      cases kind
    obtain ⟨hfits, hhead⟩ := hb.1.thinned i kind hthin
    apply hr.exchange_element hkind hfits
    rw [String.toList_ofList, hhead]
  | @collapse a b w i kind before many =>
    apply hr.exchange_space kind rfl
    · apply hspace _ _ rfl
      simp
    · intro _
      rw [Leaf.breaksLine_iff]
      use rfl
      rw [String.toList_ofList, ← List.count_pos_iff,
        NoConsecutiveBlankLines.count_collapsed many]
      apply NoConsecutiveBlankLines.allowed_pos

end Fettle
