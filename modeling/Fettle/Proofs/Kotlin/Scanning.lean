import Fettle.Kotlin.Delimited
import Fettle.Proofs.Text.Thinned

/-!
# Scanning again

A scan looks at most three characters ahead, and at no character past its end but for one: after
the last of three quotes another quote would belong to the string.  So what a scan cuts off a
text, it cuts off again when something else follows (`scan_append`), and a comment whose lines
lose the blanks at their ends is still one comment (`scan_thinned`).

The reason is that every open context needs some `marks` to be closed: as long as more characters
are to come, a step sees them.
-/

namespace Fettle.Kotlin

/-- The fewest characters that close a context. -/
def Context.marks : Context → Nat
  | comment => 2
  | rawString => 3
  | line | string | character | name | code => 1

namespace Delimited

/-- The fewest characters that close some contexts. -/
def marks : List Context → Nat
  | [] => 0
  | k :: ks => k.marks + marks ks

theorem marks_append (ks ks' : List Context) :
  marks (ks ++ ks') = marks ks + marks ks'
  := by
  induction ks with
  | nil => rw [List.nil_append, marks, Nat.zero_add]
  | cons k ks ih => rw [List.cons_append, marks, marks, ih, Nat.add_assoc]

/-! ### Steps by cases -/

section

variable (c : Char) (s : List Char)

theorem step_comment :
  step .comment (c :: s)
    = if c = '*' ∧ s.head? = some '/' then (1, [])
      else if c = '/' ∧ s.head? = some '*' then (1, [.comment, .comment])
      else (0, [.comment])
  := by
  cases s <;> (rw [step.eq_def]; grind)

theorem step_line :
  step .line (c :: s) = if c = '\n' then (0, []) else (0, [.line])
  := by
  rw [step.eq_def]
  grind

theorem step_string :
  step .string (c :: s)
    = if c = '\\' ∧ s.isEmpty = false then (1, [.string])
      else if c = '$' ∧ s.head? = some '{' then (1, [.code, .string])
      else if c = '"' then (0, [])
      else (0, [.string])
  := by
  cases s <;> (rw [step.eq_def]; grind)

theorem step_rawString :
  step .rawString (c :: s)
    = if c = '"' ∧ s.take 3 = ['"', '"', '"'] then (0, [.rawString])
      else if c = '"' ∧ s.take 2 = ['"', '"'] then (2, [])
      else if c = '$' ∧ s.head? = some '{' then (1, [.code, .rawString])
      else (0, [.rawString])
  := by
  rcases s with _ | ⟨d, _ | ⟨e, _ | ⟨f, s⟩⟩⟩ <;> (rw [step.eq_def]; grind)

theorem step_character :
  step .character (c :: s)
    = if c = '\\' ∧ s.isEmpty = false then (1, [.character])
      else if c = '\'' then (0, [])
      else (0, [.character])
  := by
  cases s <;> (rw [step.eq_def]; grind)

theorem step_name :
  step .name (c :: s) = if c = '\x60' then (0, []) else (0, [.name])
  := by
  rw [step.eq_def]
  grind

theorem step_code :
  step .code (c :: s)
    = if c = '/' ∧ s.head? = some '*' then (1, [.comment, .code])
      else if c = '/' ∧ s.head? = some '/' then (1, [.line, .code])
      else if c = '"' ∧ s.take 2 = ['"', '"'] then (2, [.rawString, .code])
      else if c = '"' then (0, [.string, .code])
      else if c = '\'' then (0, [.character, .code])
      else if c = '\x60' then (0, [.name, .code])
      else if c = '{' then (0, [.code, .code])
      else if c = '}' then (0, [])
      else (0, [.code])
  := by
  by_cases hc : c = '/' ∨ c = '"'
  · rcases s with _ | ⟨d, _ | ⟨e, s⟩⟩ <;> (rw [step.eq_def]; grind)
  · rw [not_or] at hc
    simp only [hc.1, hc.2, false_and, if_false]
    rw [step.eq_def]
    grind

end

/-! ### What a step consumes -/

section

variable (k : Context) (c : Char) (s : List Char)

/-- A step consumes characters that are there, and they are at least as many as the step closes
contexts with. -/
theorem step_consumes :
  (step k (c :: s)).1 ≤ s.length
    ∧ k.marks ≤ 1 + (step k (c :: s)).1 + marks (step k (c :: s)).2
  := by
  cases k with
  | comment =>
    rw [step_comment]
    cases s <;> grind [marks, Context.marks]
  | line =>
    rw [step_line]
    grind [marks, Context.marks]
  | string =>
    rw [step_string]
    cases s <;> grind [marks, Context.marks]
  | rawString =>
    rw [step_rawString]
    rcases s with _ | ⟨d, _ | ⟨e, s⟩⟩ <;> grind [marks, Context.marks]
  | character =>
    rw [step_character]
    cases s <;> grind [marks, Context.marks]
  | name =>
    rw [step_name]
    grind [marks, Context.marks]
  | code =>
    rw [step_code]
    rcases s with _ | ⟨d, _ | ⟨e, s⟩⟩ <;> grind [marks, Context.marks]

end

/-- A scan cuts off at least the characters that close what is open. -/
theorem marks_le_of_scan {opened : List Context} {s : List Char} {r : List Char × List Char}
    (h : scan opened s = some r) :
  marks opened ≤ r.1.length
  := by
  induction opened, s using scan.induct generalizing r with
  | case1 s =>
    rw [scan] at h
    obtain rfl := Option.some.inj h
    apply Nat.le_refl
  | case2 =>
    rw [scan] at h
    cases h
  | case3 k outer c s more contexts heq ih =>
    have hstep := step_consumes k c s
    rw [heq] at hstep
    rw [scan, heq] at h
    obtain ⟨q, hq, rfl⟩ := Option.map_eq_some_iff.mp h
    have hrest := ih hq
    rw [marks_append] at hrest
    simp only at hstep
    rw [marks, List.length_append, List.length_cons, List.length_take]
    omega

/-! ### What a step looks at -/

section

variable {c : Char} {s r r' : List Char} (hr : r'.head? = some '"' → r.head? = some '"')
  (k : Context)
  (h : (step k (c :: (s ++ r))).1 + marks (step k (c :: (s ++ r))).2 ≤ s.length)

include hr h

/-- A step that leaves enough characters to close what is open does not look further. -/
theorem step_append :
  step k (c :: (s ++ r')) = step k (c :: (s ++ r))
  := by
  cases k with
  | comment =>
    rw [step_comment] at h
    rw [step_comment, step_comment]
    cases s with
    | nil => grind [marks, Context.marks]
    | cons d s => rfl
  | line => rw [step_line, step_line]
  | string =>
    rw [step_string] at h
    rw [step_string, step_string]
    cases s with
    | nil => grind [marks, Context.marks]
    | cons d s => rfl
  | rawString =>
    rw [step_rawString] at h
    rw [step_rawString, step_rawString]
    rcases s with _ | ⟨d, _ | ⟨e, _ | ⟨f, s⟩⟩⟩
    · grind [marks, Context.marks]
    · grind [marks, Context.marks]
    · -- only three quotes that none follows close the string
      by_cases hfour : c = '"' ∧ ([d, e] ++ r).take 3 = ['"', '"', '"']
      · rw [if_pos hfour] at h
        simp [marks, Context.marks] at h
      · by_cases hthree : c = '"' ∧ ([d, e] ++ r).take 2 = ['"', '"']
        · have hother : ¬ (c = '"' ∧ ([d, e] ++ r').take 3 = ['"', '"', '"']) := by
            rintro ⟨hc, hquotes⟩
            have hquote : r'.head? = some '"' := by
              cases r' with
              | nil => simp at hquotes
              | cons f r' => simp_all
            obtain ⟨u, rfl⟩ := List.head?_eq_some_iff.mp (hr hquote)
            apply hfour
            simp_all
          rw [if_neg hfour, if_pos hthree, if_neg hother]
          apply if_pos hthree
        · rw [if_neg hfour, if_neg hthree] at h
          split at h <;> simp [marks, Context.marks] at h
    · rfl
  | character =>
    rw [step_character] at h
    rw [step_character, step_character]
    cases s with
    | nil => grind [marks, Context.marks]
    | cons d s => rfl
  | name => rw [step_name, step_name]
  | code =>
    rw [step_code] at h
    rw [step_code, step_code]
    rcases s with _ | ⟨d, _ | ⟨e, s⟩⟩
    · have hc : c = '}' := by
        by_contra hc
        split_ifs at h <;> simp [marks, Context.marks] at h
      simp [hc]
    · have hc : c ≠ '"' := by
        rintro rfl
        split_ifs at h <;> simp_all [marks, Context.marks]
      simp only [hc, false_and, if_false]
      rfl
    · rfl

end

/-! ### Scans -/

theorem ne_nil_of_scan {k : Context} {outer : List Context} {s : List Char}
    {r : List Char × List Char} (h : scan (k :: outer) s = some r) :
  r.1 ≠ []
  := by
  have hle := marks_le_of_scan h
  have hpos : 0 < k.marks := by
    cases k <;> decide
  rintro hnil
  rw [hnil, marks, List.length_nil] at hle
  omega

/-- The step of a scan that cuts a text off, and the scan of what is left of the text. -/
theorem scan_cons {k : Context} {outer : List Context} {c : Char} {s r : List Char}
    (h : scan (k :: outer) (c :: (s ++ r)) = some (c :: s, r)) :
  (step k (c :: (s ++ r))).1 + marks (step k (c :: (s ++ r))).2 ≤ s.length
    ∧ scan ((step k (c :: (s ++ r))).2 ++ outer) (s.drop (step k (c :: (s ++ r))).1 ++ r)
      = some (s.drop (step k (c :: (s ++ r))).1, r)
  := by
  have hmore := (step_consumes k c (s ++ r)).1
  rcases hstep : step k (c :: (s ++ r)) with ⟨more, contexts⟩
  rw [hstep] at hmore
  rw [scan, hstep] at h
  obtain ⟨q, hq, heq⟩ := Option.map_eq_some_iff.mp h
  obtain ⟨hfirst, hrest⟩ := Prod.mk.inj heq
  rw [List.cons_append] at hfirst
  have hcut := (List.cons.inj hfirst).2
  have hmarks := marks_le_of_scan hq
  have hlength := congrArg List.length hcut
  rw [List.length_append, List.length_take] at hlength
  rw [marks_append] at hmarks
  simp only at hmore
  have hle : more ≤ s.length := by omega
  have hlast : q = (s.drop more, r) := by
    rw [List.take_append_of_le_length hle] at hcut
    have hboth := hcut.trans (List.take_append_drop more s).symm
    exact Prod.ext (List.append_cancel_left hboth) hrest
  rw [hlast, List.drop_append_of_le_length hle] at hq
  constructor
  · simp only
    omega
  · exact hq

/-- What a scan cuts off, it cuts off again when other text follows. -/
theorem scan_append {opened : List Context} {x r r' : List Char}
    (hr : r'.head? = some '"' → r.head? = some '"') (h : scan opened (x ++ r) = some (x, r)) :
  scan opened (x ++ r') = some (x, r')
  := by
  induction hn : x.length using Nat.strongRecOn generalizing opened x with
  | _ n ih =>
    cases opened with
    | nil =>
      rw [scan] at h
      obtain ⟨rfl, -⟩ := Prod.mk.inj (Option.some.inj h)
      rw [scan]
      rfl
    | cons k outer =>
      cases x with
      | nil => exact absurd rfl (ne_nil_of_scan h)
      | cons c s =>
        obtain ⟨hfits, hrest⟩ := scan_cons h
        have hstep := step_append hr k hfits
        have hless : (s.drop (step k (c :: (s ++ r))).1).length < n := by
          rw [← hn, List.length_drop, List.length_cons]
          omega
        have hagain := ih _ hless hrest rfl
        have hle : (step k (c :: (s ++ r))).1 ≤ s.length := by omega
        rw [List.cons_append, scan, hstep]
        simp only
        rw [List.drop_append_of_le_length hle, hagain]
        simp [List.take_append_of_le_length hle]

/-- A character that does not begin a mark of a comment is passed over, also when blanks after it
have gone. -/
theorem step_comment_thinned {c : Char} {s s' r : List Char} (ht : Text.Thinned s s')
    (hs' : s' ≠ []) (hclose : ¬ (c = '*' ∧ (s ++ r).head? = some '/'))
    (hopen : ¬ (c = '/' ∧ (s ++ r).head? = some '*')) :
  step .comment (c :: (s' ++ r)) = (0, [.comment])
  := by
  obtain ⟨d, u, rfl⟩ := List.exists_cons_of_ne_nil hs'
  have hhead : (s ++ r).head? = some d ∨ Text.isBlank d = true := by
    rcases ht.head? with heq | hblank
    · left
      rw [List.head?_append, ← heq]
      rfl
    · right
      exact hblank
  rw [step_comment, if_neg, if_neg]
  · rintro ⟨rfl, hd⟩
    obtain rfl := Option.some.inj hd
    exact hopen ⟨rfl, hhead.resolve_right (by decide)⟩
  · rintro ⟨rfl, hd⟩
    obtain rfl := Option.some.inj hd
    exact hclose ⟨rfl, hhead.resolve_right (by decide)⟩

/-- A comment is closed at the same place when blanks have gone from the ends of its lines. -/
theorem scan_thinned {opened : List Context} (hopened : ∀ k ∈ opened, k = .comment)
    {s s' r : List Char} (ht : Text.Thinned s s') (h : scan opened (s ++ r) = some (s, r)) :
  scan opened (s' ++ r) = some (s', r)
  := by
  induction hn : s.length using Nat.strongRecOn generalizing opened s s' with
  | _ n ih =>
    cases opened with
    | nil =>
      rw [scan] at h
      obtain ⟨rfl, -⟩ := Prod.mk.inj (Option.some.inj h)
      cases ht
      rw [scan]
      rfl
    | cons k outer =>
      obtain rfl := hopened k List.mem_cons_self
      have houter : ∀ k ∈ outer, k = .comment := by
        intro k hk
        apply hopened k (List.mem_cons_of_mem _ hk)
      cases s with
      | nil => exact absurd rfl (ne_nil_of_scan h)
      | cons c u =>
        obtain ⟨hfits, hrest⟩ := scan_cons h
        rw [step_comment] at hfits hrest
        rw [List.length_cons] at hn
        -- the two characters of a mark are not blank, so both are still there
        have hmark {d : Char} {contexts : List Context}
            (hd : (u ++ r).head? = some d) (hlength : 0 < u.length)
            (hc : Text.isBlank c = false) (hblank : Text.isBlank d = false)
            (hstep : ∀ v, step .comment (c :: d :: v) = (1, contexts))
            (hcomments : ∀ k ∈ contexts, k = .comment)
            (hrest : scan (contexts ++ outer) (u.drop 1 ++ r) = some (u.drop 1, r)) :
            scan (.comment :: outer) (s' ++ r) = some (s', r) := by
          obtain ⟨e, v, rfl⟩ := List.exists_cons_of_length_pos hlength
          obtain rfl := Option.some.inj hd
          obtain ⟨u', rfl, hu⟩ := ht.exists_cons hc
          obtain ⟨v', rfl, hv⟩ := hu.exists_cons hblank
          have hboth : ∀ k ∈ contexts ++ outer, k = .comment := by
            intro k hk
            rcases List.mem_append.mp hk with hk | hk
            · apply hcomments k hk
            · apply houter k hk
          rw [List.length_cons] at hn
          have hagain := ih v.length (by omega) hboth hv hrest rfl
          rw [List.cons_append, List.cons_append, scan, hstep]
          simp only [List.drop_succ_cons, List.drop_zero]
          rw [hagain]
          rfl
        split at hrest
        · rename_i hclose
          rw [if_pos hclose] at hfits
          obtain ⟨rfl, hd⟩ := hclose
          apply hmark hd (Nat.lt_of_lt_of_le Nat.one_pos hfits) rfl rfl _ _ hrest
          · intro v
            rfl
          · simp
        · split at hrest
          · rename_i hclose hopen
            rw [if_neg hclose, if_pos hopen] at hfits
            obtain ⟨rfl, hd⟩ := hopen
            apply hmark hd (Nat.lt_of_lt_of_le (by decide) hfits) rfl rfl _ _ hrest
            · intro v
              rfl
            · simp
          · rename_i hclose hopen
            cases ht with
            | keep _ ht =>
              have hagain := ih u.length (by omega) hopened ht hrest rfl
              have hstep := step_comment_thinned ht (ne_nil_of_scan hagain) hclose hopen
              rw [List.cons_append, scan, hstep]
              simp only [List.drop_zero, List.singleton_append]
              rw [hagain]
              rfl
            | drop _ _ ht => apply ih u.length (by omega) hopened ht hrest rfl

end Delimited

end Fettle.Kotlin
