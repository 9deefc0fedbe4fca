import Fettle.Proofs.Text.Lines
import Mathlib.Data.List.TakeWhile

/-!
# Texts without trailing blanks

`Thinned s s'` says that `s'` is what is left of a text when some of its blanks are dropped, each
in front of a blank that stays or of the end.  The lines that are kept of a comment make such a
text (`thinned_commentKept`), and characters that are not blank are never dropped
(`Thinned.mem`).
-/

namespace Fettle

namespace Text

/-! ### Blanks at the end -/

theorem trimEnd_append_of_blank (s : List Char) {b : List Char}
    (hb : ∀ c ∈ b, isBlank c = true) :
  trimEnd (s ++ b) = trimEnd s
  := by
  rw [trimEnd, trimEnd, List.reverse_append, List.dropWhile_append_of_pos]
  simpa using hb

theorem trimEnd_trimEnd (s : List Char) :
  trimEnd (trimEnd s) = trimEnd s
  := by
  obtain ⟨b, hs, hb⟩ := exists_trimEnd_append s
  rw [← trimEnd_append_of_blank (trimEnd s) hb, ← hs]

/-- Nothing is dropped at the end of a text that does not end in a blank. -/
theorem trimEnd_append_of_nonblank (s : List Char) {c : Char} (hc : isBlank c = false) :
  trimEnd (s ++ [c]) = s ++ [c]
  := by
  rw [trimEnd, List.reverse_append, List.reverse_singleton, List.singleton_append,
    List.dropWhile_cons_of_neg (by simp [hc]), List.reverse_cons, List.reverse_reverse]

theorem trim_append_of_blank (s : List Char) {b : List Char} (hb : ∀ c ∈ b, isBlank c = true) :
  trim (s ++ b) = trim s
  := by
  rw [trim, trim, trimStart, trimStart, List.dropWhile_append]
  split
  · rename_i hs
    have hnil : b.dropWhile isBlank = [] := List.dropWhile_eq_nil_iff.mpr hb
    rw [List.isEmpty_iff] at hs
    rw [hs, hnil]
  · apply trimEnd_append_of_blank _ hb

/-- Nothing is dropped of a text in front, if it does not end in a blank. -/
theorem trimEnd_append_of_trimEnd_eq {s : List Char} (hs : trimEnd s = s) (u : List Char) :
  trimEnd (s ++ u) = s ++ trimEnd u
  := by
  obtain ⟨b, hu, hb⟩ := exists_trimEnd_append u
  rw [congrArg (s ++ ·) hu, ← List.append_assoc, trimEnd_append_of_blank _ hb]
  rcases (trimEnd u).eq_nil_or_concat with hnil | ⟨v, c, hv⟩
  · rw [hnil, List.append_nil, hs]
  · have hc : isBlank c = false := by
      have hlast : (u.reverse.dropWhile isBlank).head? = some c := by
        rw [← List.getLast?_reverse]
        change (trimEnd u).getLast? = some c
        rw [hv, List.concat_eq_append, List.getLast?_concat]
      have hnot := List.head?_dropWhile_not isBlank u.reverse
      rw [hlast] at hnot
      simpa using hnot
    rw [hv, List.concat_eq_append, ← List.append_assoc, trimEnd_append_of_nonblank _ hc]

/-- A text that does not begin with a blank keeps its first character. -/
theorem trim_cons_of_nonblank {c : Char} (hc : isBlank c = false) (s : List Char) :
  trim (c :: s) = c :: trimEnd s
  := by
  have hone : trimEnd [c] = [c] := trimEnd_append_of_nonblank [] hc
  rw [trim, trimStart, List.dropWhile_cons_of_neg (by simp [hc]), ← List.singleton_append,
    trimEnd_append_of_trimEnd_eq hone]
  rfl

/-! ### Dropping blanks -/

/-- A text is left of another when blanks are dropped in front of blanks and at the end. -/
inductive Thinned : List Char → List Char → Prop where
  | nil : Thinned [] []
  | keep {s s' : List Char} (c : Char) (rest : Thinned s s') : Thinned (c :: s) (c :: s')
  | drop {s s' : List Char} {c : Char} (blank : isBlank c = true)
      (front : s'.head?.all isBlank = true) (rest : Thinned s s') : Thinned (c :: s) s'

namespace Thinned

variable {s s' u u' : List Char}

theorem refl (s : List Char) :
  Thinned s s
  := by
  induction s with
  | nil => apply nil
  | cons c s ih => apply keep c ih

theorem append_left (s : List Char) (h : Thinned u u') :
  Thinned (s ++ u) (s ++ u')
  := by
  induction s with
  | nil => exact h
  | cons c s ih => apply keep c ih

/-- The blanks at the end of a line are dropped in front of its line break. -/
theorem trimEnd_append (s : List Char) (h : Thinned u u')
    (hfront : u'.head?.all isBlank = true) :
  Thinned (s ++ u) (trimEnd s ++ u')
  := by
  obtain ⟨b, hs, hb⟩ := exists_trimEnd_append s
  have hdrop : Thinned (b ++ u) u' := by
    clear hs
    induction b with
    | nil => exact h
    | cons c b ih =>
      apply drop (hb c List.mem_cons_self) hfront
      apply ih
      intro d hd
      apply hb d (List.mem_cons_of_mem _ hd)
  rw [congrArg (· ++ u) hs, List.append_assoc]
  apply append_left _ hdrop

/-- A character that is not blank stays. -/
theorem mem (h : Thinned s s') {c : Char} (hc : c ∈ s) (hblank : isBlank c = false) :
  c ∈ s'
  := by
  induction h with
  | nil => exact hc
  | keep d _ ih =>
    rw [List.mem_cons] at hc ⊢
    apply hc.imp_right ih
  | drop blank _ _ ih =>
    rcases List.mem_cons.mp hc with rfl | hc
    · rw [blank] at hblank
      cases hblank
    · apply ih hc

/-- A text either keeps its first character, or what is left begins with a blank, if with
anything. -/
theorem head? (h : Thinned s s') :
  s'.head? = s.head? ∨ s'.head?.all isBlank = true
  := by
  cases h with
  | nil => exact .inl rfl
  | keep c _ => exact .inl rfl
  | drop _ front _ => exact .inr front

/-- A character that is not blank stays at the front. -/
theorem exists_cons {c : Char} (h : Thinned (c :: s) s') (hc : isBlank c = false) :
  ∃ t, s' = c :: t ∧ Thinned s t
  := by
  cases h with
  | keep _ rest => exact ⟨_, rfl, rest⟩
  | drop blank _ _ =>
    rw [blank] at hc
    cases hc

theorem head?_eq_some_iff (h : Thinned s s') {c : Char} (hc : isBlank c = false) :
  s'.head? = some c ↔ s.head? = some c
  := by
  constructor
  · intro hs'
    rcases h.head? with heq | hblank
    · rwa [← heq]
    · rw [hs', Option.all_some, hc] at hblank
      cases hblank
  · intro hs
    obtain ⟨u, rfl⟩ := List.head?_eq_some_iff.mp hs
    obtain ⟨t, rfl, -⟩ := h.exists_cons hc
    rfl

/-- No character is new. -/
theorem mem_of_mem (h : Thinned s s') {c : Char} (hc : c ∈ s') :
  c ∈ s
  := by
  induction h with
  | nil => exact hc
  | keep d _ ih =>
    rw [List.mem_cons] at hc ⊢
    apply hc.imp_right ih
  | drop _ _ _ ih => apply List.mem_cons_of_mem _ (ih hc)

end Thinned

end Text

open Text

namespace NoTrailingSpaces

theorem head?_splitReturn_snd (line : List Char) (beforeFeed : Bool) :
  (splitReturn line beforeFeed).2 = [] ∨ (splitReturn line beforeFeed).2 = ['\r']
  := by
  rw [splitReturn]
  split
  · split
    · exact .inr rfl
    · exact .inl rfl
  · exact .inl rfl

/-- The lines that are kept of a comment are thinned. -/
theorem thinned_commentKept (feed : Bool) (ls : List (List Char)) :
  Thinned (unlines ls) (unlines (commentKept feed ls))
  := by
  have hline (line : List Char) (beforeFeed : Bool) {u u' : List Char} (hu : Thinned u u')
      (hfront : u'.head?.all isBlank = true) :
      Thinned (line ++ u)
        ((trimEnd (splitReturn line beforeFeed).1 ++ (splitReturn line beforeFeed).2) ++ u') := by
    have hsplit := splitReturn_append line beforeFeed
    rw [← congrArg (· ++ u) hsplit, List.append_assoc, List.append_assoc]
    apply Thinned.trimEnd_append
    · apply Thinned.append_left _ hu
    · rcases head?_splitReturn_snd line beforeFeed with hmark | hmark
      · rw [hmark]
        exact hfront
      · rw [hmark]
        rfl
  induction ls with
  | nil => apply Thinned.nil
  | cons l ls ih =>
    rw [commentKept]
    cases ls with
    | nil =>
      have h := hline l (feed || !([] : List (List Char)).isEmpty) Thinned.nil rfl
      rw [List.append_nil, List.append_nil] at h
      apply h
    | cons m ms =>
      rw [unlines]
      apply hline l _ (Thinned.keep '\n' ih) rfl

end NoTrailingSpaces

/-! ### White space -/

namespace Text

theorem mem_of_mem_unlines {ls : List (List Char)} {c : Char} (h : c ∈ unlines ls) :
  c = '\n' ∨ ∃ l ∈ ls, c ∈ l
  := by
  induction ls with
  | nil => cases h
  | cons l ls ih =>
    cases ls with
    | nil =>
      right
      use l, List.mem_cons_self, h
    | cons m ms =>
      rw [unlines, List.mem_append, List.mem_cons] at h
      rcases h with h | rfl | h
      · right
        use l, List.mem_cons_self, h
      · left
        rfl
      · rcases ih h with rfl | ⟨k, hk, hc⟩
        · left
          rfl
        · right
          use k, List.mem_cons_of_mem _ hk, hc

theorem mem_of_mem_lines {s l : List Char} {c : Char} (hl : l ∈ lines s) (hc : c ∈ l) :
  c ∈ s
  := by
  induction s generalizing l with
  | nil =>
    rw [lines, List.mem_singleton] at hl
    rwa [hl] at hc
  | cons d s ih =>
    rw [lines] at hl
    rw [List.mem_cons]
    split at hl
    · rcases List.mem_cons.mp hl with rfl | hl
      · cases hc
      · right
        apply ih hl hc
    · split at hl
      · rw [List.mem_singleton] at hl
        subst hl
        left
        apply List.mem_singleton.mp hc
      · rename_i m ms hm
        rcases List.mem_cons.mp hl with rfl | hl
        · rw [List.mem_cons] at hc
          apply hc.imp_right
          apply ih
          rw [hm]
          apply List.mem_cons_self
        · right
          apply ih _ hc
          rw [hm]
          apply List.mem_cons_of_mem _ hl

end Text

section

variable {s : List Char} (h : ∀ c ∈ s, isBlank c = true) (atEnd : Bool)

include h

/-- What is left of white space lines is white space. -/
theorem NoTrailingSpaces.isBlank_spaceKept :
  ∀ c ∈ unlines (spaceKept atEnd (lines s)), isBlank c = true
  := by
  have hkept {ls : List (List Char)} {l : List Char} {c : Char} (hl : l ∈ spaceKept atEnd ls)
      (hc : c ∈ l) : ∃ m ∈ ls, c ∈ m := by
    induction ls with
    | nil => cases hl
    | cons k ls ih =>
      cases ls with
      | nil =>
        rw [spaceKept, List.mem_singleton] at hl
        use k, List.mem_cons_self
        cases atEnd with
        | false => rwa [hl] at hc
        | true =>
          rw [hl] at hc
          cases hc
      | cons m ms =>
        rw [spaceKept_cons_cons, List.mem_cons] at hl
        rcases hl with rfl | hl
        · use k, List.mem_cons_self, mem_of_mem_splitReturn_snd hc
        · obtain ⟨j, hj, hmem⟩ := ih hl
          use j, List.mem_cons_of_mem _ hj, hmem
  intro c hc
  rcases mem_of_mem_unlines hc with rfl | ⟨l, hl, hmem⟩
  · rfl
  · obtain ⟨m, hm, hmem⟩ := hkept hl hmem
    apply h c (mem_of_mem_lines hm hmem)

/-- White space with fewer line breaks is white space. -/
theorem NoConsecutiveBlankLines.isBlank_collapsed :
  ∀ c ∈ collapsed atEnd s, isBlank c = true
  := by
  have hline {l : List Char} (hl : l ∈ lines s) : ∀ c ∈ l, isBlank c = true := by
    intro c hc
    apply h c (mem_of_mem_lines hl hc)
  have hfirst : ∀ c ∈ (lines s).head?.getD [], isBlank c = true := by
    cases hs : (lines s).head? with
    | none => simp
    | some l => apply hline (List.mem_of_head? hs)
  have hlast : ∀ c ∈ (lines s).getLast?.getD [], isBlank c = true := by
    cases hs : (lines s).getLast? with
    | none => simp
    | some l => apply hline (List.mem_of_getLast? hs)
  rw [← splitReturn_append ((lines s).head?.getD []) true] at hfirst
  intro c hc
  rw [collapsed, List.mem_append, List.mem_append, List.mem_flatten] at hc
  rcases hc with (hc | ⟨l, hl, hc⟩) | hc
  · apply hfirst c (List.mem_append_left _ hc)
  · obtain rfl := List.eq_of_mem_replicate hl
    rcases List.mem_append.mp hc with hc | hc
    · apply hfirst c (List.mem_append_right _ hc)
    · obtain rfl := List.mem_singleton.mp hc
      rfl
  · apply hlast c hc

end

end Fettle
