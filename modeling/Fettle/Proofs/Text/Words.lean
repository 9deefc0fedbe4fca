import Fettle.Proofs.Text.Thinned

/-!
# Words and trailing blanks

A text is `Separated` into words by white space in one way only (`Separated.words_eq`,
`separated_words`).  It has the same words when some of its blanks are dropped, each in front of a
blank that stays or of the end (`words_of_thinned`).  Such a text begins with a mark without
blanks if it did so before (`Thinned.of_append_left`, `Thinned.dropLead?_eq_none_iff`), and ends
with one if all but its last blanks did (`Thinned.exists_of_append_right`).
-/

namespace Fettle.Text

/-- A text is checked for blanks character by character. -/
theorem nonblank_of_all {s : List Char} (h : s.all (!isBlank ·) = true) :
  ∀ c ∈ s, isBlank c = false
  := by
  intro c hc
  simpa using List.all_eq_true.mp h c hc

/-! ### Words -/

theorem words_cons_of_blank {c : Char} (hc : isBlank c = true) (s : List Char) :
  words (c :: s) = words s
  := by
  rw [words.eq_def]
  exact if_pos hc

/-- A word of one character, or one more character of the first word. -/
theorem words_cons_of_nonblank {c : Char} (hc : isBlank c = false) (s : List Char) :
  words (c :: s) = if s.head?.all isBlank then [c] :: words s
    else (c :: (words s).head?.getD []) :: (words s).tail
  := by
  rw [words.eq_def]
  simp only [hc, Bool.false_eq_true, if_false]
  cases s with
  | nil => rfl
  | cons d s =>
    rw [List.head?_cons, Option.all_some]
    cases hd : isBlank d with
    | true => simp [hd]
    | false => cases hw : words (d :: s) <;> simp [hd]

/-- The first word ends where a blank comes. -/
theorem words_append {w : List Char} (hw : ∀ c ∈ w, isBlank c = false) (hne : w ≠ [])
    {s : List Char} (hs : s.head?.all isBlank = true) :
  words (w ++ s) = w :: words s
  := by
  induction w with
  | nil => exact absurd rfl hne
  | cons c w ih =>
    obtain ⟨hc, hw⟩ := List.forall_mem_cons.mp hw
    rw [List.cons_append, words_cons_of_nonblank hc]
    cases w with
    | nil => rw [List.nil_append, if_pos hs]
    | cons d w =>
      have hd : isBlank d = false := hw d List.mem_cons_self
      rw [ih hw (List.cons_ne_nil d w), if_neg (by simp [hd])]
      rfl

/-- A text that does not begin with a blank begins with a word. -/
theorem exists_first_word {s : List Char} (hne : s ≠ [])
    (hs : ∀ c, s.head? = some c → isBlank c = false) :
  ∃ w rest, s = w ++ rest ∧ w ≠ [] ∧ (∀ c ∈ w, isBlank c = false)
    ∧ rest.head?.all isBlank = true
  := by
  refine ⟨s.takeWhile (!isBlank ·), s.dropWhile (!isBlank ·), ?_, ?_, ?_, ?_⟩
  · rw [List.takeWhile_append_dropWhile]
  · obtain ⟨c, u, rfl⟩ := List.exists_cons_of_ne_nil hne
    rw [List.takeWhile_cons_of_pos (by simp [hs c rfl])]
    apply List.cons_ne_nil
  · intro c hc
    simpa using List.all_eq_true.mp List.all_takeWhile c hc
  · have hnot := List.head?_dropWhile_not (!isBlank ·) s
    cases hrest : (s.dropWhile (!isBlank ·)).head? with
    | none => rfl
    | some c =>
      rw [hrest] at hnot
      simpa using hnot

theorem words_trimStart (s : List Char) :
  words (trimStart s) = words s
  := by
  induction s with
  | nil => rfl
  | cons c s ih =>
    cases hc : isBlank c with
    | true => rw [trimStart, List.dropWhile_cons_of_pos hc, words_cons_of_blank hc, ← ih, trimStart]
    | false => rw [trimStart, List.dropWhile_cons_of_neg (by simp [hc])]

theorem words_append_of_blank {b : List Char} (hb : ∀ c ∈ b, isBlank c = true) (s : List Char) :
  words (b ++ s) = words s
  := by
  induction b with
  | nil => rfl
  | cons c b ih =>
    obtain ⟨hc, hb⟩ := List.forall_mem_cons.mp hb
    rw [List.cons_append, words_cons_of_blank hc, ih hb]

/-- White space and a word, for each of some words, and white space at the end.  White space in
front of a word is not empty. -/
inductive Separated : List (List Char) → List Char → Prop where
  | nil {b : List Char} (blank : ∀ c ∈ b, isBlank c = true) : Separated [] b
  | cons {gap w s : List Char} {ws : List (List Char)} (blank : ∀ c ∈ gap, isBlank c = true)
      (apart : gap ≠ []) (nonblank : ∀ c ∈ w, isBlank c = false) (word : w ≠ [])
      (rest : Separated ws s) : Separated (w :: ws) (gap ++ (w ++ s))

theorem Separated.all_head? {ws : List (List Char)} {s : List Char} (h : Separated ws s) :
  s.head?.all isBlank = true
  := by
  cases h with
  | nil blank =>
    cases s with
    | nil => rfl
    | cons c s => exact blank c List.mem_cons_self
  | @cons gap w s ws blank apart =>
    obtain ⟨c, gap, rfl⟩ := List.exists_cons_of_ne_nil apart
    exact blank c List.mem_cons_self

/-- The words are found again, whatever white space is between them. -/
theorem Separated.words_eq {ws : List (List Char)} {s : List Char} (h : Separated ws s) :
  words s = ws
  := by
  induction h with
  | @nil b blank =>
    rw [← List.append_nil b, words_append_of_blank blank]
    rfl
  | cons blank _ nonblank word rest ih =>
    rw [words_append_of_blank blank, words_append nonblank word rest.all_head?, ih]

/-- A text that begins with white space, if with anything, is its words and white space. -/
theorem separated_words {s : List Char} (h : s.head?.all isBlank = true) :
  Separated (words s) s
  := by
  induction hn : s.length using Nat.strong_induction_on generalizing s with
  | _ n ih =>
    subst hn
    have hgap : ∀ c ∈ s.takeWhile isBlank, isBlank c = true := by
      intro c hc
      exact List.all_eq_true.mp List.all_takeWhile c hc
    have hs : s.takeWhile isBlank ++ trimStart s = s := List.takeWhile_append_dropWhile
    by_cases hnil : trimStart s = []
    · rw [hnil, List.append_nil] at hs
      rw [← words_trimStart, hnil]
      apply Separated.nil
      rwa [hs] at hgap
    · have hapart : s.takeWhile isBlank ≠ [] := by
        cases s with
        | nil => exact absurd rfl hnil
        | cons c s =>
          rw [List.takeWhile_cons_of_pos (by simpa using h)]
          apply List.cons_ne_nil
      have hfront : ∀ c, (trimStart s).head? = some c → isBlank c = false := by
        intro c hc
        have hnot := List.head?_dropWhile_not isBlank s
        rw [trimStart] at hc
        rw [hc] at hnot
        exact hnot
      obtain ⟨w, rest, hsplit, hword, hnonblank, hrest⟩ := exists_first_word hnil hfront
      have hlength : rest.length < s.length := by
        have hpos := List.length_pos_iff.mpr hapart
        rw [← hs, hsplit, List.length_append, List.length_append]
        omega
      have hwords : words s = w :: words rest := by
        rw [← words_trimStart, hsplit, words_append hnonblank hword hrest]
      rw [hsplit] at hs
      rw [hwords, ← hs]
      apply Separated.cons hgap hapart hnonblank hword
      apply ih _ hlength hrest rfl

/-- The first word of a text and the others. -/
theorem words_eq_cons_iff {w s : List Char} {ws : List (List Char)} :
  words s = w :: ws
    ↔ w ≠ [] ∧ (∀ c ∈ w, isBlank c = false)
      ∧ ∃ lead tail, (∀ c ∈ lead, isBlank c = true) ∧ Separated ws tail ∧ s = lead ++ (w ++ tail)
  := by
  constructor
  · intro h
    have hseparated : Separated (w :: ws) (' ' :: s) := by
      rw [← h, ← words_cons_of_blank (c := ' ') (by decide)]
      apply separated_words rfl
    generalize hs : ' ' :: s = t at hseparated
    cases hseparated with
    | @cons gap _ tail _ blank apart nonblank word rest =>
      obtain ⟨c, lead, rfl⟩ := List.exists_cons_of_ne_nil apart
      use word, nonblank, lead, tail
      use fun c hc => blank c (List.mem_cons_of_mem _ hc), rest
      exact (List.cons.inj hs).2
  · rintro ⟨hword, hnonblank, lead, tail, hlead, htail, rfl⟩
    rw [words_append_of_blank hlead, words_append hnonblank hword htail.all_head?, htail.words_eq]

/-! ### Marks in a text without trailing blanks -/

namespace Thinned

variable {s s' u u' m : List Char}

theorem of_blank (h : ∀ c ∈ s, isBlank c = true) :
  Thinned s []
  := by
  induction s with
  | nil => apply nil
  | cons c s ih =>
    obtain ⟨hc, hs⟩ := List.forall_mem_cons.mp h
    apply drop hc rfl (ih hs)

theorem isBlank_of_nil (h : Thinned s []) :
  ∀ c ∈ s, isBlank c = true
  := by
  intro c hc
  by_contra hblank
  cases h.mem hc (eq_false_of_ne_true hblank)

theorem trimEnd (s : List Char) :
  Thinned s (trimEnd s)
  := by
  obtain ⟨b, hs, hb⟩ := exists_trimEnd_append s
  have h := append_left (Text.trimEnd s) (of_blank hb)
  rwa [← hs, List.append_nil] at h

/-- A text begins with a blank, if with anything, exactly if what is left of it does. -/
theorem all_head? (h : Thinned s s') :
  s'.head?.all isBlank = s.head?.all isBlank
  := by
  rcases h.head? with heq | hblank
  · rw [heq]
  · rw [hblank]
    cases s with
    | nil => rfl
    | cons c s =>
      cases hc : isBlank c with
      | true => simp [hc]
      | false =>
        obtain ⟨t, rfl, -⟩ := h.exists_cons hc
        simp [hc] at hblank

theorem trans (h : Thinned s u) (h' : Thinned u s') :
  Thinned s s'
  := by
  induction h generalizing s' with
  | nil => exact h'
  | keep c rest ih =>
    cases h' with
    | keep _ rest' => apply keep c (ih rest')
    | drop blank front rest' => apply drop blank front (ih rest')
  | drop blank front rest ih =>
    rw [← h'.all_head?] at front
    apply drop blank front (ih h')

/-- A mark without blanks at the front stays. -/
theorem of_append_left (hm : ∀ c ∈ m, isBlank c = false) (h : Thinned (m ++ u) s') :
  ∃ u', s' = m ++ u' ∧ Thinned u u'
  := by
  induction m generalizing s' with
  | nil => exact ⟨s', rfl, h⟩
  | cons c m ih =>
    obtain ⟨hc, hm⟩ := List.forall_mem_cons.mp hm
    obtain ⟨t, rfl, ht⟩ := h.exists_cons hc
    obtain ⟨u', rfl, hu⟩ := ih hm ht
    exact ⟨u', rfl, hu⟩

/-- No mark without blanks comes to the front. -/
theorem dropLead?_eq_none_iff (hm : ∀ c ∈ m, isBlank c = false) (h : Thinned s s') :
  dropLead? m s' = none ↔ dropLead? m s = none
  := by
  constructor
  · intro hnone
    by_contra hsome
    obtain ⟨u, hu⟩ := Option.ne_none_iff_exists'.mp hsome
    obtain rfl := dropLead?_eq_some_iff.mp hu
    obtain ⟨u', rfl, -⟩ := of_append_left hm h
    rw [dropLead?_eq_some_iff.mpr rfl] at hnone
    cases hnone
  · intro hnone
    induction m generalizing s s' with
    | nil => cases hnone
    | cons c m ih =>
      obtain ⟨hc, hm⟩ := List.forall_mem_cons.mp hm
      cases s' with
      | nil => rfl
      | cons d s' =>
        rw [dropLead?]
        split
        · rename_i heq
          obtain rfl := heq
          obtain ⟨t, rfl⟩ := List.head?_eq_some_iff.mp ((h.head?_eq_some_iff hc).mp rfl)
          obtain ⟨t', ht', ht⟩ := h.exists_cons hc
          obtain rfl := (List.cons.inj ht').2
          rw [dropLead?, if_pos rfl] at hnone
          apply ih hm ht hnone
        · rfl

/-- A mark without blanks at the end stays. -/
theorem exists_append_right (hm : ∀ c ∈ m, isBlank c = false) (h : Thinned (u ++ m) s') :
  ∃ u', s' = u' ++ m
  := by
  induction u generalizing s' with
  | nil =>
    rw [List.nil_append, ← List.append_nil m] at h
    obtain ⟨u', rfl, hu⟩ := of_append_left hm h
    cases hu
    exact ⟨[], List.append_nil m⟩
  | cons c u ih =>
    cases h with
    | keep _ rest =>
      obtain ⟨u', rfl⟩ := ih rest
      exact ⟨c :: u', rfl⟩
    | drop _ _ rest => apply ih rest

/-- What ends with a mark without blanks did so before, but for blanks at the end. -/
theorem exists_of_append_right (hm : ∀ c ∈ m, isBlank c = false) (hne : m ≠ [])
    (h : Thinned s (u' ++ m)) :
  ∃ u, Text.trimEnd s = u ++ m ∧ Thinned u u'
  := by
  have hsplit : ∃ u b, s = u ++ m ++ b ∧ (∀ c ∈ b, isBlank c = true) ∧ Thinned u u' := by
    generalize heq : u' ++ m = t at h
    induction h generalizing u' with
    | nil => exact absurd (List.append_eq_nil_iff.mp heq).2 hne
    | @keep s t c rest ih =>
      cases u' with
      | nil =>
        -- the mark itself is all that is left
        rw [List.nil_append] at heq
        have hkept : Thinned (c :: s) (m ++ []) := by
          rw [heq, List.append_nil]
          apply keep c rest
        have hmark {m t : List Char} (hm : ∀ c ∈ m, isBlank c = false)
            (h : Thinned t (m ++ [])) : ∃ b, t = m ++ b ∧ ∀ c ∈ b, isBlank c = true := by
          cases hlead : dropLead? m t with
          | none =>
            rw [← dropLead?_eq_none_iff hm h, dropLead?_eq_some_iff.mpr rfl] at hlead
            cases hlead
          | some b =>
            obtain rfl := dropLead?_eq_some_iff.mp hlead
            obtain ⟨v, hv, hb⟩ := of_append_left hm h
            obtain rfl := List.append_cancel_left hv
            exact ⟨b, rfl, hb.isBlank_of_nil⟩
        obtain ⟨b, hb, hblank⟩ := hmark hm hkept
        exact ⟨[], b, hb, hblank, nil⟩
      | cons d u' =>
        obtain ⟨rfl, ht⟩ := List.cons.inj heq
        obtain ⟨u, b, rfl, hblank, hu⟩ := ih ht
        exact ⟨d :: u, b, rfl, hblank, keep d hu⟩
    | @drop s t c blank front rest ih =>
      obtain ⟨u, b, rfl, hblank, hu⟩ := ih heq
      refine ⟨c :: u, b, rfl, hblank, drop blank ?_ hu⟩
      cases u' with
      | nil => rfl
      | cons d u' =>
        rw [← heq] at front
        exact front
  obtain ⟨u, b, rfl, hblank, hu⟩ := hsplit
  refine ⟨u, ?_, hu⟩
  obtain ⟨m, c, rfl⟩ := (List.eq_nil_or_concat m).resolve_left hne
  rw [trimEnd_append_of_blank _ hblank, List.concat_eq_append, ← List.append_assoc,
    trimEnd_append_of_nonblank]
  apply hm
  simp

end Thinned

/-- A text has the same words when blanks are dropped in front of blanks. -/
theorem words_of_thinned {s s' : List Char} (h : Thinned s s') :
  words s' = words s
  := by
  induction h with
  | nil => rfl
  | keep c rest ih =>
    cases hc : isBlank c with
    | true => rw [words_cons_of_blank hc, words_cons_of_blank hc, ih]
    | false => rw [words_cons_of_nonblank hc, words_cons_of_nonblank hc, ih, rest.all_head?]
  | drop blank _ _ ih => rw [words_cons_of_blank blank, ih]

/-- No blank is at the front of a trimmed text. -/
theorem isBlank_of_head?_trim {s : List Char} {c : Char} (h : (trim s).head? = some c) :
  isBlank c = false
  := by
  rw [trim] at h
  have hthinned := Thinned.trimEnd (trimStart s)
  cases hs : trimStart s with
  | nil =>
    rw [hs] at h
    cases h
  | cons d u =>
    have hd : isBlank d = false := by
      have hnot := List.head?_dropWhile_not isBlank s
      rw [trimStart] at hs
      rw [hs] at hnot
      exact hnot
    rw [hs] at h hthinned
    obtain ⟨t, ht, -⟩ := hthinned.exists_cons hd
    rw [ht] at h
    obtain rfl := Option.some.inj h
    exact hd

theorem words_trim (s : List Char) :
  words (trim s) = words s
  := by
  rw [trim, words_of_thinned (Thinned.trimEnd _), words_trimStart]

end Fettle.Text
