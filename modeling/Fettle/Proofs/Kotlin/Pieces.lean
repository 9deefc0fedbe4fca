import Fettle.Proofs.Kotlin.Readable

/-!
# Leaves, however code is cut

The standard rules look at white space and comments, and at whether there are braces next to them.
They do not see how the rest of the code is cut into leaves.  The `pieces` of leaves are their
lexemes, with neighbouring leaves of that code joined.

A leaf that is not joined is in the same place among any leaves with the same pieces
(`exists_of_pieces_append`).  What the leaves next to it can see of a leaf is its `role`; leaves
with the same pieces begin and end with the same roles (`head?_role_eq`, `getLast?_role_eq`), and
so do their nearest leaves on the line (`neighbour?_role_eq`, `neighbour?_reverse_role_eq`).
-/

namespace Fettle

/-- The kinds of code other than braces. -/
def Kind.isPlain : Kind → Bool
  | whitespace | blockComment | eolComment | kdoc | leftBrace | rightBrace => false
  | _ => true

theorem Kind.isPlain_of_isComment {k : Kind} (h : k.isComment = true) :
  k.isPlain = false
  := by
  cases k with
  | blockComment => rfl
  | eolComment => rfl
  | kdoc => rfl
  | _ => cases h

namespace Kotlin

/-- Pieces behind a text of plain code. -/
def join (s : List Char) : List Lexeme → List Lexeme
  | [] => [⟨.token, s⟩]
  | p :: ps => if p.kind.isPlain then ⟨.token, s ++ p.text⟩ :: ps else ⟨.token, s⟩ :: p :: ps

/-- Lexemes with neighbouring ones of plain code joined. -/
def joined : List Lexeme → List Lexeme
  | [] => []
  | l :: ls => if l.kind.isPlain then join l.text (joined ls) else l :: joined ls

/-- The lexemes of leaves with neighbouring ones of plain code joined. -/
def pieces (ls : List (Leaf NodeId)) : List Lexeme :=
  joined (ls.map Leaf.lexeme)

/-- The text of some pieces behind a text is that text and theirs. -/
theorem flatMap_text_join (s : List Char) (ps : List Lexeme) :
  (join s ps).flatMap Lexeme.text = s ++ ps.flatMap Lexeme.text
  := by
  cases ps with
  | nil => simp [join]
  | cons p ps =>
    rw [join]
    split
    · simp
    · simp

theorem flatMap_text_joined (ls : List Lexeme) :
  (joined ls).flatMap Lexeme.text = ls.flatMap Lexeme.text
  := by
  induction ls with
  | nil => rfl
  | cons l ls ih =>
    rw [joined]
    split
    · rw [flatMap_text_join, ih, List.flatMap_cons]
    · rw [List.flatMap_cons, List.flatMap_cons, ih]

theorem flatMap_text_pieces (ls : List (Leaf NodeId)) :
  (pieces ls).flatMap Lexeme.text = chars ls
  := by
  rw [pieces, flatMap_text_joined, flatMap_lexeme_text]

/-! ### One leaf after another -/

theorem text_of_lexeme {l l' : Leaf NodeId} (h : l'.lexeme = l.lexeme) :
  l'.text = l.text
  := String.toList_injective (congrArg Lexeme.text h)

section

variable {l c : Leaf NodeId} {ls a b : List (Leaf NodeId)}

theorem pieces_cons_of_plain (hl : l.kind.isPlain = true) :
  pieces (l :: ls) = join l.text.toList (pieces ls)
  := if_pos hl

theorem pieces_cons (hl : l.kind.isPlain = false) :
  pieces (l :: ls) = l.lexeme :: pieces ls
  := if_neg (Bool.not_eq_true _ ▸ hl)

theorem join_append_cons (s : List Char) (ps : List Lexeme) {p : Lexeme} {qs : List Lexeme}
    (hp : p.kind.isPlain = false) :
  join s (ps ++ p :: qs) = join s ps ++ p :: qs
  := by
  cases ps with
  | nil => simp [join, hp]
  | cons r ps =>
    rw [List.cons_append, join, join]
    split
    · rfl
    · rfl

/-- A leaf that is not joined keeps the leaves before it from those after it. -/
theorem pieces_append_cons (hc : c.kind.isPlain = false) :
  pieces (a ++ c :: b) = pieces a ++ c.lexeme :: pieces b
  := by
  induction a with
  | nil => exact pieces_cons hc
  | cons l a ih =>
    cases hl : l.kind.isPlain with
    | true =>
      rw [List.cons_append, pieces_cons_of_plain hl, pieces_cons_of_plain hl, ih,
        join_append_cons _ _ hc]
    | false => rw [List.cons_append, pieces_cons hl, pieces_cons hl, ih, List.cons_append]

theorem join_ne_nil (s : List Char) (ps : List Lexeme) :
  join s ps ≠ []
  := by
  cases ps with
  | nil => exact List.cons_ne_nil _ _
  | cons p ps =>
    rw [join]
    split
    · exact List.cons_ne_nil _ _
    · exact List.cons_ne_nil _ _

theorem eq_nil_of_pieces (h : pieces ls = []) :
  ls = []
  := by
  cases ls with
  | nil => rfl
  | cons l ls =>
    cases hl : l.kind.isPlain with
    | true =>
      rw [pieces_cons_of_plain hl] at h
      exact absurd h (join_ne_nil _ _)
    | false =>
      rw [pieces_cons hl] at h
      cases h

/-- A piece that is not joined stands where it stands among what is joined. -/
theorem of_join_eq_append {s : List Char} {ps qs rs : List Lexeme} {p : Lexeme}
    (hp : p.kind.isPlain = false) (h : join s rs = ps ++ p :: qs) :
  ∃ ps', rs = ps' ++ p :: qs ∧ join s ps' = ps
  := by
  have hne {t : List Char} : (⟨.token, t⟩ : Lexeme) ≠ p := by
    rintro rfl
    cases hp
  cases ps with
  | nil =>
    cases rs with
    | nil => exact absurd (List.cons.inj h).1 hne
    | cons r rs =>
      rw [join] at h
      split at h
      · exact absurd (List.cons.inj h).1 hne
      · exact absurd (List.cons.inj h).1 hne
  | cons q ps =>
    cases rs with
    | nil => exact absurd (List.cons.inj h).2.symm (by simp)
    | cons r rs =>
      rw [join] at h
      split at h
      · rename_i hr
        obtain ⟨rfl, rfl⟩ := List.cons.inj h
        exact ⟨r :: ps, rfl, if_pos hr⟩
      · rename_i hr
        obtain ⟨rfl, hrest⟩ := List.cons.inj h
        refine ⟨ps, hrest, ?_⟩
        cases ps with
        | nil => rfl
        | cons q ps =>
          obtain ⟨rfl, -⟩ := List.cons.inj hrest
          exact if_neg hr

/-- A leaf that is not joined stands between leaves with the pieces before and after it. -/
theorem exists_of_pieces_append {ps qs : List Lexeme} {p : Lexeme} (hp : p.kind.isPlain = false)
    (h : pieces ls = ps ++ p :: qs) :
  ∃ a l b, ls = a ++ l :: b ∧ pieces a = ps ∧ l.lexeme = p ∧ pieces b = qs
  := by
  induction ls generalizing ps with
  | nil => cases ps <;> cases h
  | cons m ls ih =>
    cases hm : m.kind.isPlain with
    | true =>
      rw [pieces_cons_of_plain hm] at h
      obtain ⟨ps', hls, hjoin⟩ := of_join_eq_append hp h
      obtain ⟨a, l, b, rfl, rfl, hl, hb⟩ := ih hls
      exact ⟨m :: a, l, b, rfl, (pieces_cons_of_plain hm).trans hjoin, hl, hb⟩
    | false =>
      rw [pieces_cons hm] at h
      cases ps with
      | nil =>
        obtain ⟨hl, hb⟩ := List.cons.inj h
        exact ⟨[], m, ls, rfl, rfl, hl, hb⟩
      | cons q ps =>
        obtain ⟨rfl, hls⟩ := List.cons.inj h
        obtain ⟨a, l, b, rfl, rfl, hl, hb⟩ := ih hls
        exact ⟨m :: a, l, b, rfl, pieces_cons hm, hl, hb⟩

/-- A piece that is not joined is a leaf. -/
theorem exists_of_pieces_cons {p : Lexeme} {ps : List Lexeme} (hp : p.kind.isPlain = false)
    (h : pieces ls = p :: ps) :
  ∃ l b, ls = l :: b ∧ l.lexeme = p ∧ pieces b = ps
  := by
  rw [← List.nil_append (p :: ps)] at h
  obtain ⟨a, l, b, rfl, ha, hl, hb⟩ := exists_of_pieces_append hp h
  obtain rfl := eq_nil_of_pieces ha
  exact ⟨l, b, rfl, hl, hb⟩

/-- A piece that is joined consists of leaves of plain code. -/
theorem exists_plain_of_pieces_cons {p : Lexeme} {ps : List Lexeme} (hp : p.kind.isPlain = true)
    (h : pieces ls = p :: ps) :
  ∃ a b, ls = a ++ b ∧ (a ≠ [] ∧ ∀ l ∈ a, l.kind.isPlain = true) ∧ p = ⟨.token, chars a⟩
    ∧ pieces b = ps
  := by
  induction ls generalizing p with
  | nil => cases h
  | cons l ls ih =>
    cases hl : l.kind.isPlain with
    | false =>
      rw [pieces_cons hl] at h
      obtain ⟨rfl, -⟩ := List.cons.inj h
      cases hl.symm.trans hp
    | true =>
      have hone : ∀ m ∈ [l], m.kind.isPlain = true := by
        simpa using hl
      rw [pieces_cons_of_plain hl] at h
      cases hq : pieces ls with
      | nil =>
        rw [hq] at h
        obtain ⟨rfl, rfl⟩ := List.cons.inj h
        exact ⟨[l], ls, rfl, ⟨List.cons_ne_nil _ _, hone⟩, by simp, hq⟩
      | cons q qs =>
        rw [hq, join] at h
        split at h
        · rename_i hplain
          obtain ⟨rfl, rfl⟩ := List.cons.inj h
          obtain ⟨a, b, rfl, ⟨-, ha⟩, rfl, hb⟩ := ih hplain hq
          refine ⟨l :: a, b, rfl, ⟨List.cons_ne_nil _ _, ?_⟩, by simp, hb⟩
          exact List.forall_mem_cons.mpr ⟨hl, ha⟩
        · obtain ⟨rfl, rfl⟩ := List.cons.inj h
          exact ⟨[l], ls, rfl, ⟨List.cons_ne_nil _ _, hone⟩, by simp, hq⟩

end

/-- What is not plain code among the pieces is so among the leaves. -/
theorem filter_pieces {q : Lexeme → Bool} (hq : ∀ p : Lexeme, p.kind.isPlain = true → q p = false)
    (ls : List (Leaf NodeId)) :
  (pieces ls).filter q = (ls.map Leaf.lexeme).filter q
  := by
  have hjoin (s : List Char) (ps : List Lexeme) : (join s ps).filter q = ps.filter q := by
    have htoken (t : List Char) : ¬ q ⟨.token, t⟩ = true := by
      rw [hq _ rfl]
      decide
    cases ps with
    | nil => rw [join, List.filter_cons_of_neg (htoken s)]
    | cons p ps =>
      rw [join]
      split
      · rename_i hp
        have hnot : ¬ q p = true := by
          rw [hq p hp]
          decide
        rw [List.filter_cons_of_neg (htoken _), List.filter_cons_of_neg hnot]
      · rw [List.filter_cons_of_neg (htoken s)]
  induction ls with
  | nil => rfl
  | cons l ls ih =>
    cases hl : l.kind.isPlain with
    | true =>
      have hnot : ¬ q l.lexeme = true := by
        rw [hq l.lexeme hl]
        decide
      rw [pieces_cons_of_plain hl, hjoin, ih, List.map_cons, List.filter_cons_of_neg hnot]
    | false =>
      rw [pieces_cons hl, List.map_cons, List.filter_cons, List.filter_cons, ih]

/-- A leaf that is not joined is a piece. -/
theorem lexeme_mem_of_pieces {ls ms : List (Leaf NodeId)} (h : pieces ls = pieces ms)
    {l : Leaf NodeId} (hl : l ∈ ls) (hplain : l.kind.isPlain = false) :
  ∃ m ∈ ms, m.lexeme = l.lexeme
  := by
  have hfilter := congrArg (List.filter fun p => !p.kind.isPlain) h
  rw [filter_pieces (by simp), filter_pieces (by simp)] at hfilter
  have hmem : l.lexeme ∈ (ms.map Leaf.lexeme).filter fun p => !p.kind.isPlain := by
    rw [← hfilter, List.mem_filter]
    exact ⟨List.mem_map_of_mem hl, Bool.not_eq_true' _ ▸ hplain⟩
  obtain ⟨m, hm, heq⟩ := List.mem_map.mp (List.mem_filter.mp hmem).1
  exact ⟨m, hm, heq⟩

/-! ### Roles -/

/-- What the leaves next to it can see of a piece. -/
def Lexeme.role (p : Lexeme) : Kind × Bool :=
  (if p.kind.isPlain then .token else p.kind, p.kind == .whitespace && p.text.contains '\n')

theorem Lexeme.role_of_plain {p : Lexeme} (h : p.kind.isPlain = true) :
  p.role = (.token, false)
  := by
  have hspace : p.kind ≠ .whitespace := by
    intro hspace
    rw [hspace] at h
    cases h
  simp [Lexeme.role, h, hspace]

end Kotlin

open Kotlin

/-- What the leaves next to it can see of a leaf. -/
def Leaf.role (l : Leaf NodeId) : Kind × Bool :=
  l.lexeme.role

theorem Leaf.role_snd (l : Leaf NodeId) :
  l.role.2 = l.breaksLine
  := rfl

theorem Leaf.isInlineSpace_of_role {l l' : Leaf NodeId} (h : l.role = l'.role) :
  l.isInlineSpace = l'.isInlineSpace
  := by
  have hrole (m : Leaf NodeId) : m.isInlineSpace = (m.role.1 == .whitespace && !m.role.2) := by
    rw [Leaf.isInlineSpace, Leaf.role, Lexeme.role, Leaf.lexeme]
    cases m.kind <;> rfl
  rw [hrole, hrole, h]

theorem Leaf.isPlain_of_isInlineSpace {l : Leaf NodeId} (h : l.isInlineSpace = true) :
  l.kind.isPlain = false
  := by
  rw [(Leaf.isInlineSpace_iff.mp h).1]
  rfl

theorem Leaf.breaksLine_of_role {l l' : Leaf NodeId} (h : l.role = l'.role) :
  l.breaksLine = l'.breaksLine
  := congrArg Prod.snd h

/-- Leaves that play the same role are both of a kind that is not joined, or neither is. -/
theorem Leaf.kind_eq_iff_of_role {l l' : Leaf NodeId} (h : l.role = l'.role) {k : Kind}
    (hk : k.isPlain = false) :
  l.kind = k ↔ l'.kind = k
  := by
  have hrole (m : Leaf NodeId) : m.kind = k ↔ m.role.1 = k := by
    rw [Leaf.role, Lexeme.role, Leaf.lexeme]
    dsimp only
    split
    · rename_i hm
      constructor
      · rintro rfl
        cases hk.symm.trans hm
      · rintro rfl
        cases hk
    · rfl
  rw [hrole, hrole, h]

namespace Kotlin

theorem head?_role_pieces (ls : List (Leaf NodeId)) :
  (pieces ls).head?.map Lexeme.role = ls.head?.map Leaf.role
  := by
  cases ls with
  | nil => rfl
  | cons l ls =>
    cases hl : l.kind.isPlain with
    | false =>
      rw [pieces_cons hl]
      rfl
    | true =>
      have hjoin : ((join l.text.toList (pieces ls)).head?).map Lexeme.role
          = some (.token, false) := by
        cases pieces ls with
        | nil => rfl
        | cons p ps =>
          rw [join]
          split
          · rfl
          · rfl
      rw [pieces_cons_of_plain hl, hjoin, List.head?_cons, Option.map_some, Leaf.role,
        Lexeme.role_of_plain hl]

theorem getLast?_role_pieces (ls : List (Leaf NodeId)) :
  (pieces ls).getLast?.map Lexeme.role = ls.getLast?.map Leaf.role
  := by
  have hjoin (s : List Char) {ps : List Lexeme} (hps : ps ≠ []) :
      (join s ps).getLast?.map Lexeme.role = ps.getLast?.map Lexeme.role := by
    cases ps with
    | nil => exact absurd rfl hps
    | cons p ps =>
      rw [join]
      split
      · rename_i hp
        cases ps with
        | nil =>
          rw [List.getLast?_singleton, List.getLast?_singleton, Option.map_some, Option.map_some,
            Lexeme.role_of_plain hp, Lexeme.role_of_plain rfl]
        | cons q ps => rw [List.getLast?_cons_cons, List.getLast?_cons_cons]
      · rw [List.getLast?_cons_cons]
  induction ls with
  | nil => rfl
  | cons l ls ih =>
    cases ls with
    | nil =>
      cases hl : l.kind.isPlain with
      | true =>
        rw [pieces_cons_of_plain hl, List.getLast?_singleton, Option.map_some, Leaf.role,
          Lexeme.role_of_plain hl]
        rfl
      | false =>
        rw [pieces_cons hl]
        rfl
    | cons m ls =>
      have hne : pieces (m :: ls) ≠ [] := fun hnil => by cases eq_nil_of_pieces hnil
      rw [List.getLast?_cons_cons, ← ih]
      cases hl : l.kind.isPlain with
      | true => rw [pieces_cons_of_plain hl, hjoin _ hne]
      | false =>
        obtain ⟨p, ps, hps⟩ := List.exists_cons_of_ne_nil hne
        rw [pieces_cons hl, hps, List.getLast?_cons_cons]

section

variable {ls ms : List (Leaf NodeId)} (h : pieces ls = pieces ms)

include h

theorem head?_role_eq :
  ls.head?.map Leaf.role = ms.head?.map Leaf.role
  := by
  rw [← head?_role_pieces, ← head?_role_pieces, h]

theorem getLast?_role_eq :
  ls.getLast?.map Leaf.role = ms.getLast?.map Leaf.role
  := by
  rw [← getLast?_role_pieces, ← getLast?_role_pieces, h]

theorem isNone_head?_eq :
  ls.head?.isNone = ms.head?.isNone
  := by
  have hrole := congrArg Option.isNone (head?_role_eq h)
  rwa [Option.isNone_map, Option.isNone_map] at hrole

theorem neighbour?_role_eq :
  (CommentWrapping.neighbour? ls).map Leaf.role = (CommentWrapping.neighbour? ms).map Leaf.role
  := by
  have hhead := head?_role_eq h
  cases ls with
  | nil =>
    obtain rfl := eq_nil_of_pieces h.symm
    rfl
  | cons l ls =>
    cases ms with
    | nil => cases eq_nil_of_pieces h
    | cons m ms =>
      have hrole : l.role = m.role := Option.some.inj hhead
      rw [CommentWrapping.neighbour?_cons, CommentWrapping.neighbour?_cons,
        Leaf.isInlineSpace_of_role hrole]
      split
      · rename_i hm
        have hl := hm
        rw [← Leaf.isInlineSpace_of_role hrole] at hl
        rw [pieces_cons (Leaf.isPlain_of_isInlineSpace hl),
          pieces_cons (Leaf.isPlain_of_isInlineSpace hm)] at h
        apply head?_role_eq (List.cons.inj h).2
      · exact hhead

theorem neighbour?_reverse_role_eq :
  (CommentWrapping.neighbour? ls.reverse).map Leaf.role
    = (CommentWrapping.neighbour? ms.reverse).map Leaf.role
  := by
  have hlast := getLast?_role_eq h
  rcases List.eq_nil_or_concat' ls with rfl | ⟨a, l, rfl⟩
  · obtain rfl := eq_nil_of_pieces h.symm
    rfl
  · rcases List.eq_nil_or_concat' ms with rfl | ⟨b, m, rfl⟩
    · have hnil := eq_nil_of_pieces h
      simp at hnil
    · rw [List.getLast?_concat, List.getLast?_concat] at hlast
      have hrole : l.role = m.role := Option.some.inj hlast
      rw [List.reverse_concat, List.reverse_concat, CommentWrapping.neighbour?_cons,
        CommentWrapping.neighbour?_cons, Leaf.isInlineSpace_of_role hrole, List.head?_reverse,
        List.head?_reverse]
      split
      · rename_i hm
        have hl := hm
        rw [← Leaf.isInlineSpace_of_role hrole] at hl
        rw [pieces_append_cons (Leaf.isPlain_of_isInlineSpace hl),
          pieces_append_cons (Leaf.isPlain_of_isInlineSpace hm)] at h
        apply getLast?_role_eq (List.append_inj' h rfl).1
      · exact hlast

end

end Kotlin

end Fettle
