import Fettle.Kotlin.Lexeme
import Fettle.Proofs.Kotlin.Scanning

/-!
# Which lexemes stand where

`Cut l r` says that the lexeme `l` is cut off in front of the text `r`, with one case for each
form of lexeme; `next?_eq_some_iff` says that these are the lexemes that `next?` yields.  What is
cut off in front of a text is cut off in front of others that begin alike (`Cut.follow`), and
code and block comments also in front of blanks and at the end.
-/

namespace Fettle.Kotlin

open Text

/-- A lexeme is cut off in front of a text. -/
inductive Cut : Lexeme → List Char → Prop where
  | line {s r : List Char} (feed : '\n' ∉ s) (stop : r.head?.all (· == '\n') = true) :
      Cut ⟨.eolComment, '/' :: '/' :: s⟩ r
  | block {s r : List Char} (closed : Delimited.scan [.comment] (s ++ r) = some (s, r)) :
      Cut ⟨blockKind ('/' :: '*' :: s), '/' :: '*' :: s⟩ r
  | rawString {s r : List Char} (closed : Delimited.scan [.rawString] (s ++ r) = some (s, r)) :
      Cut ⟨.token, '"' :: '"' :: '"' :: s⟩ r
  | space {c : Char} {s r : List Char} (blank : ∀ d ∈ c :: s, isBlank d = true)
      (stop : r.head?.any isBlank = false) : Cut ⟨.whitespace, c :: s⟩ r
  | word {c : Char} {s r : List Char} (name : ∀ d ∈ c :: s, isNameChar d = true)
      (stop : r.head?.any isNameChar = false) : Cut ⟨.identifier, c :: s⟩ r
  | string {s r : List Char} (closed : Delimited.scan [.string] (s ++ r) = some (s, r))
      (single : (s ++ r).take 2 ≠ ['"', '"']) : Cut ⟨.token, '"' :: s⟩ r
  | character {s r : List Char} (closed : Delimited.scan [.character] (s ++ r) = some (s, r)) :
      Cut ⟨.token, '\'' :: s⟩ r
  | name {s r : List Char} (closed : Delimited.scan [.name] (s ++ r) = some (s, r)) :
      Cut ⟨.identifier, '\x60' :: s⟩ r
  | single {c : Char} {r : List Char} (blank : isBlank c = false) (name : isNameChar c = false)
      (quote : c ≠ '"' ∧ c ≠ '\'' ∧ c ≠ '\x60')
      (slash : c = '/' → r.head? ≠ some '/' ∧ r.head? ≠ some '*') : Cut ⟨charKind c, [c]⟩ r

/-! ### The cuts of the lexer -/

/-- The characters of names are not blank. -/
theorem isBlank_of_isNameChar {c : Char} (h : isNameChar c = true) :
  isBlank c = false
  := by
  rw [isNameChar, Bool.or_eq_true, Bool.or_eq_true, Bool.and_eq_true, Bool.not_eq_true',
    beq_iff_eq] at h
  rcases h with (h | rfl) | ⟨-, h⟩
  · have hrange : 48 ≤ c.toNat ∧ c.toNat ≤ 122 := by
      change (decide (c.val ≥ 'A'.val ∧ c.val ≤ 'Z'.val)
        || (decide (c.val ≥ 'a'.val) && decide (c.val ≤ 'z'.val))
        || (decide (c.val ≥ '0'.val) && decide (c.val ≤ '9'.val))) = true at h
      simp only [Bool.or_eq_true, Bool.and_eq_true, decide_eq_true_eq, ge_iff_le,
        UInt32.le_iff_toNat_le] at h
      change 48 ≤ c.val.toNat ∧ c.val.toNat ≤ 122
      rcases h with (⟨h, h'⟩ | ⟨h, h'⟩) | ⟨h, h'⟩
      · have hlow : 65 ≤ c.val.toNat := h
        have hhigh : c.val.toNat ≤ 90 := h'
        omega
      · have hlow : 97 ≤ c.val.toNat := h
        have hhigh : c.val.toNat ≤ 122 := h'
        omega
      · have hlow : 48 ≤ c.val.toNat := h
        have hhigh : c.val.toNat ≤ 57 := h'
        omega
    simp [isBlank]
    omega
  · rfl
  · exact h

/-- What begins with no mark of two or three characters. -/
theorem next?_cons {c : Char} {s : List Char}
    (hslash : c = '/' → s.head? ≠ some '/' ∧ s.head? ≠ some '*')
    (hquote : c = '"' → s.take 2 ≠ ['"', '"']) :
  next? (c :: s)
    = if isBlank c then some (run .whitespace isBlank (c :: s))
      else if isNameChar c then some (run .identifier isNameChar (c :: s))
      else if c = '"' then delimited (fun _ => .token) [c] .string s
      else if c = '\'' then delimited (fun _ => .token) [c] .character s
      else if c = '\x60' then delimited (fun _ => .identifier) [c] .name s
      else some (⟨charKind c, [c]⟩, s)
  := by
  rw [next?.eq_def]
  split
  · simp_all
  · simp_all
  · simp_all
  · simp_all
  · rename_i heq
    obtain ⟨rfl, rfl⟩ := List.cons.inj heq
    rfl

/-- The longest piece whose characters have a property ends where one does not have it. -/
theorem run_append {kind : Kind} {p : Char → Bool} {x r : List Char} (hx : ∀ c ∈ x, p c = true)
    (hr : r.head?.any p = false) :
  run kind p (x ++ r) = (⟨kind, x⟩, r)
  := by
  have hstop : r.takeWhile p = [] ∧ r.dropWhile p = r := by
    cases r with
    | nil => exact ⟨rfl, rfl⟩
    | cons c r =>
      have hc : ¬ p c = true := by
        simpa using hr
      rw [List.takeWhile_cons_of_neg hc, List.dropWhile_cons_of_neg hc]
      exact ⟨rfl, rfl⟩
  rw [run, List.takeWhile_append_of_pos hx, List.dropWhile_append_of_pos hx, hstop.1, hstop.2,
    List.append_nil]

theorem of_run {kind : Kind} {p : Char → Bool} {s : List Char} {l : Lexeme} {r : List Char}
    (h : run kind p s = (l, r)) :
  l.kind = kind ∧ s = l.text ++ r ∧ (∀ c ∈ l.text, p c = true) ∧ r.head?.any p = false
  := by
  have happend := append_of_run h
  obtain ⟨rfl, rfl⟩ := Prod.mk.inj h
  refine ⟨rfl, happend.symm, ?_, ?_⟩
  · intro c hc
    exact List.all_eq_true.mp List.all_takeWhile c hc
  · have hnot := List.head?_dropWhile_not p s
    cases hs : (s.dropWhile p).head? with
    | none => rfl
    | some d =>
      rw [hs] at hnot
      simpa using hnot

theorem of_delimited {kindOf : List Char → Kind} {mark : List Char} {context : Context}
    {s : List Char} {l : Lexeme} {r : List Char}
    (h : delimited kindOf mark context s = some (l, r)) :
  ∃ x, l = ⟨kindOf (mark ++ x), mark ++ x⟩ ∧ s = x ++ r
    ∧ Delimited.scan [context] (x ++ r) = some (x, r)
  := by
  obtain ⟨⟨x, r'⟩, hq, heq⟩ := Option.map_eq_some_iff.mp h
  obtain ⟨rfl, rfl⟩ := Prod.mk.inj heq
  have happend := Delimited.append_of_scan hq
  use x, rfl, happend.symm
  rwa [happend]

/-- The first character has the property, so the piece begins with it. -/
theorem exists_cons_of_append {p : Char → Bool} {c : Char} {s x r : List Char}
    (hs : c :: s = x ++ r) (hc : p c = true) (hr : r.head?.any p = false) :
  ∃ y, x = c :: y
  := by
  cases x with
  | nil =>
    rw [← List.nil_append r, ← hs, List.head?_cons, Option.any_some, hc] at hr
    cases hr
  | cons d y =>
    obtain ⟨rfl, -⟩ := List.cons.inj hs
    exact ⟨y, rfl⟩

/-- What `next?` yields is cut off. -/
theorem cut_of_next? {s : List Char} {l : Lexeme} {r : List Char} (h : next? s = some (l, r)) :
  Cut l r
  := by
  obtain ⟨kind, x⟩ := l
  rw [next?.eq_def] at h
  split at h
  · cases h
  · rename_i u
    obtain ⟨rfl, hs, hx, hr⟩ := of_run (Option.some.inj h)
    obtain ⟨z, rfl⟩ := exists_cons_of_append hs (by decide) hr
    obtain ⟨y, rfl⟩ := exists_cons_of_append (List.cons.inj hs).2 (by decide) hr
    apply Cut.line
    · intro hmem
      simpa using hx _ (List.mem_cons_of_mem _ (List.mem_cons_of_mem _ hmem))
    · cases r with
      | nil => rfl
      | cons d r => simpa using hr
  · obtain ⟨y, heq, rfl, hscan⟩ := of_delimited h
    obtain ⟨rfl, rfl⟩ := Lexeme.mk.inj heq
    apply Cut.block hscan
  · obtain ⟨y, heq, rfl, hscan⟩ := of_delimited h
    obtain ⟨rfl, rfl⟩ := Lexeme.mk.inj heq
    apply Cut.rawString hscan
  · rename_i c u hline hblock hraw
    have hslash : c = '/' → u.head? ≠ some '/' ∧ u.head? ≠ some '*' := by
      rintro rfl
      constructor
      · intro hu
        obtain ⟨v, rfl⟩ := List.head?_eq_some_iff.mp hu
        exact hline v rfl rfl
      · intro hu
        obtain ⟨v, rfl⟩ := List.head?_eq_some_iff.mp hu
        exact hblock v rfl rfl
    have hquote : c = '"' → u.take 2 ≠ ['"', '"'] := by
      rintro rfl hu
      rcases u with _ | ⟨d, _ | ⟨e, v⟩⟩
      · cases hu
      · cases hu
      · simp only [List.take_succ_cons, List.take_zero, List.cons.injEq, and_true] at hu
        obtain ⟨rfl, rfl⟩ := hu
        exact hraw v rfl rfl
    split at h
    · rename_i hc
      obtain ⟨rfl, hs, hx, hr⟩ := of_run (Option.some.inj h)
      obtain ⟨y, rfl⟩ := exists_cons_of_append hs hc hr
      apply Cut.space hx hr
    · rename_i hblank
      split at h
      · rename_i hc
        obtain ⟨rfl, hs, hx, hr⟩ := of_run (Option.some.inj h)
        obtain ⟨y, rfl⟩ := exists_cons_of_append hs hc hr
        apply Cut.word hx hr
      · rename_i hname
        rw [Bool.not_eq_true] at hblank hname
        split at h
        · rename_i hc
          subst hc
          obtain ⟨y, heq, rfl, hscan⟩ := of_delimited h
          obtain ⟨rfl, rfl⟩ := Lexeme.mk.inj heq
          apply Cut.string hscan (hquote rfl)
        · rename_i hnot
          split at h
          · rename_i hc
            subst hc
            obtain ⟨y, heq, rfl, hscan⟩ := of_delimited h
            obtain ⟨rfl, rfl⟩ := Lexeme.mk.inj heq
            apply Cut.character hscan
          · rename_i hnot'
            split at h
            · rename_i hc
              subst hc
              obtain ⟨y, heq, rfl, hscan⟩ := of_delimited h
              obtain ⟨rfl, rfl⟩ := Lexeme.mk.inj heq
              apply Cut.name hscan
            · rename_i hnot''
              obtain ⟨heq, rfl⟩ := Prod.mk.inj (Option.some.inj h)
              obtain ⟨rfl, rfl⟩ := Lexeme.mk.inj heq
              apply Cut.single hblank hname ⟨hnot, hnot', hnot''⟩ hslash

/-- What is cut off in front of a text is what `next?` yields. -/
theorem next?_of_cut {l : Lexeme} {r : List Char} (h : Cut l r) :
  next? (l.text ++ r) = some (l, r)
  := by
  have hdelimited (kindOf : List Char → Kind) (mark : List Char) {context : Context}
      {s : List Char} (hs : Delimited.scan [context] (s ++ r) = some (s, r)) :
      delimited kindOf mark context (s ++ r) = some (⟨kindOf (mark ++ s), mark ++ s⟩, r) := by
    rw [delimited, hs]
    rfl
  cases h with
  | @line s _ feed stop =>
    have hrun : run .eolComment (· ≠ '\n') ('/' :: '/' :: s ++ r)
        = (⟨.eolComment, '/' :: '/' :: s⟩, r) := by
      apply run_append
      · intro c hc
        rw [decide_eq_true_eq]
        rintro rfl
        apply feed
        simpa using hc
      · cases r with
        | nil => rfl
        | cons d r => simpa using stop
    rw [next?.eq_def]
    exact congrArg some hrun
  | @block s _ closed =>
    rw [next?.eq_def]
    exact hdelimited blockKind ['/', '*'] closed
  | @rawString s _ closed =>
    rw [next?.eq_def]
    exact hdelimited (fun _ => .token) ['"', '"', '"'] closed
  | @space c s _ blank stop =>
    have hc := blank c List.mem_cons_self
    rw [List.cons_append, next?_cons, if_pos hc, ← List.cons_append, run_append blank stop]
    · rintro rfl
      cases hc
    · rintro rfl
      cases hc
  | @word c s _ name stop =>
    have hc := name c List.mem_cons_self
    rw [List.cons_append, next?_cons, isBlank_of_isNameChar hc, if_neg (by decide), if_pos hc,
      ← List.cons_append, run_append name stop]
    · rintro rfl
      cases hc
    · rintro rfl
      cases hc
  | @string s _ closed single =>
    rw [List.cons_append, next?_cons (by simp) fun _ => single, if_neg (by decide),
      if_neg (by decide), if_pos rfl]
    apply hdelimited _ ['"'] closed
  | @character s _ closed =>
    rw [List.cons_append, next?_cons (by simp) (by simp), if_neg (by decide),
      if_neg (by decide), if_neg (by decide), if_pos rfl]
    apply hdelimited _ ['\''] closed
  | @name s _ closed =>
    rw [List.cons_append, next?_cons (by simp) (by simp), if_neg (by decide),
      if_neg (by decide), if_neg (by decide), if_neg (by decide), if_pos rfl]
    apply hdelimited _ ['\x60'] closed
  | @single c _ blank name quote slash =>
    rw [List.singleton_append, next?_cons slash fun hc => absurd hc quote.1, blank, name,
      if_neg (by decide), if_neg (by decide), if_neg quote.1, if_neg quote.2.1,
      if_neg quote.2.2]

theorem next?_eq_some_iff {s : List Char} {l : Lexeme} {r : List Char} :
  next? s = some (l, r) ↔ s = l.text ++ r ∧ Cut l r
  := by
  constructor
  · intro h
    exact ⟨(append_of_next? h).symm, cut_of_next? h⟩
  · rintro ⟨rfl, h⟩
    apply next?_of_cut h

/-! ### Other text behind a lexeme -/

theorem blockKind_eq (s : List Char) :
  blockKind ('/' :: '*' :: s)
    = if s.head? = some '*' ∧ 2 < s.length then .kdoc else .blockComment
  := by
  rw [blockKind.eq_def]
  split
  · rename_i heq
    obtain ⟨-, heq⟩ := List.cons.inj heq
    obtain ⟨-, rfl⟩ := List.cons.inj heq
    apply if_congr _ rfl rfl
    rw [List.head?_cons, List.length_cons]
    simp only [true_and]
    omega
  · rename_i hnot
    rw [if_neg]
    rintro ⟨hhead, -⟩
    obtain ⟨u, rfl⟩ := List.head?_eq_some_iff.mp hhead
    apply hnot u rfl

/-- Block comments are of two kinds. -/
theorem blockKind_cases (s : List Char) :
  blockKind s = .blockComment ∨ blockKind s = .kdoc
  := by
  rw [blockKind.eq_def]
  split
  · split
    · exact .inr rfl
    · exact .inl rfl
  · exact .inl rfl

/-- A character on its own is neither white space nor a comment. -/
theorem charKind_ne (c : Char) {k : Kind} (hk : k = .whitespace ∨ k.isComment = true) :
  charKind c ≠ k
  := by
  rw [charKind.eq_def]
  split <;> rintro rfl <;> rcases hk with hk | hk <;> cases hk

namespace Cut

variable {l : Lexeme} {r r' : List Char}

/-- A string does not become a raw one when no quote comes behind it that was not there. -/
theorem string_append {s : List Char} (hquote : r'.head? = some '"' → r.head? = some '"')
    (closed : Delimited.scan [.string] (s ++ r) = some (s, r))
    (single : (s ++ r).take 2 ≠ ['"', '"']) :
  Cut ⟨.token, '"' :: s⟩ r'
  := by
  apply string (Delimited.scan_append hquote closed)
  rcases s with _ | ⟨d, _ | ⟨e, u⟩⟩
  · exact absurd rfl (Delimited.ne_nil_of_scan closed)
  · intro htwo
    apply single
    cases r' with
    | nil => cases htwo
    | cons c r' =>
      simp only [List.singleton_append, List.take_succ_cons, List.take_zero, List.cons.injEq,
        and_true] at htwo
      obtain ⟨rfl, rfl⟩ := htwo
      obtain ⟨v, rfl⟩ := List.head?_eq_some_iff.mp (hquote rfl)
      rfl
  · exact single

/-- Only the first character behind a lexeme matters. -/
theorem follow (h : Cut l r) (hr : r'.head? = r.head?) :
  Cut l r'
  := by
  have hquote : r'.head? = some '"' → r.head? = some '"' := by
    rw [hr]
    exact id
  cases h with
  | line feed stop =>
    apply line feed
    rwa [hr]
  | block closed => apply block (Delimited.scan_append hquote closed)
  | rawString closed => apply rawString (Delimited.scan_append hquote closed)
  | space blank stop =>
    apply space blank
    rwa [hr]
  | word name stop =>
    apply word name
    rwa [hr]
  | string closed single => apply string_append hquote closed single
  | character closed => apply character (Delimited.scan_append hquote closed)
  | name closed => apply name (Delimited.scan_append hquote closed)
  | single blank name quote slash =>
    apply single blank name quote
    rwa [hr]

/-- Blanks, or nothing, can come behind code and block comments. -/
theorem before_blank (h : Cut l r) (hspace : l.kind ≠ .whitespace) (hline : l.kind ≠ .eolComment)
    (hr : r'.head?.all isBlank = true) :
  Cut l r'
  := by
  have hnot {c : Char} (hc : isBlank c = false) : r'.head? ≠ some c := by
    intro hhead
    rw [hhead, Option.all_some, hc] at hr
    cases hr
  have hquote : r'.head? = some '"' → r.head? = some '"' := by
    intro hhead
    exact absurd hhead (hnot (by decide))
  cases h with
  | line _ _ => exact absurd rfl hline
  | block closed => apply block (Delimited.scan_append hquote closed)
  | rawString closed => apply rawString (Delimited.scan_append hquote closed)
  | space _ _ => exact absurd rfl hspace
  | word name _ =>
    apply word name
    cases hhead : r'.head? with
    | none => rfl
    | some c =>
      rw [Option.any_some, ← Bool.not_eq_true]
      intro hc
      exact hnot (isBlank_of_isNameChar hc) hhead
  | string closed single => apply string_append hquote closed single
  | character closed => apply character (Delimited.scan_append hquote closed)
  | name closed => apply name (Delimited.scan_append hquote closed)
  | single blank name quote _ =>
    apply single blank name quote
    intro _
    exact ⟨hnot (by decide), hnot (by decide)⟩

/-! ### The forms of lexemes -/

theorem of_whitespace (h : Cut l r) (hkind : l.kind = .whitespace) :
  l.text ≠ [] ∧ (∀ c ∈ l.text, isBlank c = true) ∧ r.head?.any isBlank = false
  := by
  cases h with
  | space blank stop => exact ⟨List.cons_ne_nil _ _, blank, stop⟩
  | @block s _ _ =>
    rcases blockKind_cases ('/' :: '*' :: s) with hk | hk <;> cases hk.symm.trans hkind
  | single _ _ _ _ => exact absurd hkind (charKind_ne _ (.inl rfl))
  | line _ _ | rawString _ | word _ _ | string _ _ | character _ | name _ => cases hkind

theorem of_eolComment (h : Cut l r) (hkind : l.kind = .eolComment) :
  ['/', '/'] <+: l.text ∧ '\n' ∉ l.text ∧ r.head?.all (· == '\n') = true
  := by
  cases h with
  | line feed stop =>
    refine ⟨List.prefix_append ['/', '/'] _, ?_, stop⟩
    simpa using feed
  | @block s _ _ =>
    rcases blockKind_cases ('/' :: '*' :: s) with hk | hk <;> cases hk.symm.trans hkind
  | single _ _ _ _ => exact absurd hkind (charKind_ne _ (.inr rfl))
  | space _ _ | rawString _ | word _ _ | string _ _ | character _ | name _ => cases hkind

theorem of_block (h : Cut l r) (hkind : l.kind = .blockComment ∨ l.kind = .kdoc) :
  ∃ s, l = ⟨blockKind ('/' :: '*' :: s), '/' :: '*' :: s⟩
    ∧ Delimited.scan [.comment] (s ++ r) = some (s, r)
  := by
  cases h with
  | block closed => exact ⟨_, rfl, closed⟩
  | single _ _ _ _ =>
    rcases hkind with hkind | hkind
    · exact absurd hkind (charKind_ne _ (.inr rfl))
    · exact absurd hkind (charKind_ne _ (.inr rfl))
  | line _ _ | space _ _ | rawString _ | word _ _ | string _ _ | character _ | name _ =>
    rcases hkind with hkind | hkind <;> cases hkind

/-- Only white space begins with a blank. -/
theorem exists_nonblank (h : Cut l r) (hkind : l.kind ≠ .whitespace) :
  ∃ c s, l.text = c :: s ∧ isBlank c = false
  := by
  cases h with
  | space _ _ => exact absurd rfl hkind
  | word name _ => exact ⟨_, _, rfl, isBlank_of_isNameChar (name _ List.mem_cons_self)⟩
  | single blank _ _ _ => exact ⟨_, _, rfl, blank⟩
  | line _ _ | block _ | rawString _ | string _ _ | character _ | name _ =>
    exact ⟨_, _, rfl, by decide⟩

/-! ### Comments with fewer blanks -/

/-- A block comment whose text begins with a star is longer than an empty one exactly if no mark
closes it at once. -/
theorem two_lt_length_iff {s : List Char}
    (h : Delimited.scan [.comment] ('*' :: (s ++ r)) = some ('*' :: s, r)) :
  2 < ('*' :: s).length ↔ s.head? ≠ some '/'
  := by
  obtain ⟨-, hrest⟩ := Delimited.scan_cons h
  have hmarks := Delimited.marks_le_of_scan h
  cases s with
  | nil => cases Nat.le_of_succ_le_succ hmarks
  | cons c u =>
    rw [Delimited.step_comment] at hrest
    by_cases hc : c = '/'
    · subst hc
      rw [if_pos ⟨rfl, rfl⟩, List.nil_append, Delimited.scan] at hrest
      obtain ⟨hnil, -⟩ := Prod.mk.inj (Option.some.inj hrest)
      obtain rfl : [] = u := hnil
      simp
    · have hnot : ¬ ('*' = '*' ∧ (c :: u ++ r).head? = some '/') := by
        rintro ⟨-, hhead⟩
        exact hc (Option.some.inj hhead)
      have hnot' : ¬ ('*' = '/' ∧ (c :: u ++ r).head? = some '*') := by
        rintro ⟨hstar, -⟩
        cases hstar
      rw [if_neg hnot, if_neg hnot'] at hrest
      have hlong : 2 ≤ (c :: u).length := Delimited.marks_le_of_scan hrest
      simp only [List.length_cons] at hlong ⊢
      simp only [List.head?_cons, ne_eq, Option.some.injEq, hc, not_false_iff, iff_true]
      omega

/-- A block comment that loses blanks at the ends of its lines is one of the same kind. -/
theorem thinned {s t : List Char} (closed : Delimited.scan [.comment] (s ++ r) = some (s, r))
    (ht : Thinned s t) :
  Cut ⟨blockKind ('/' :: '*' :: s), '/' :: '*' :: t⟩ r
  := by
  have hclosed : Delimited.scan [.comment] (t ++ r) = some (t, r) := by
    apply Delimited.scan_thinned _ ht closed
    intro k hk
    apply List.mem_singleton.mp hk
  have hkind : blockKind ('/' :: '*' :: s) = blockKind ('/' :: '*' :: t) := by
    rw [blockKind_eq, blockKind_eq]
    congr 1
    by_cases hs : s.head? = some '*'
    · obtain ⟨u, rfl⟩ := List.head?_eq_some_iff.mp hs
      obtain ⟨v, rfl, hv⟩ := ht.exists_cons rfl
      rw [List.head?_cons, List.head?_cons, two_lt_length_iff closed,
        two_lt_length_iff hclosed, ne_eq, ne_eq, hv.head?_eq_some_iff rfl]
    · have hother : t.head? ≠ some '*' := by
        rwa [ne_eq, ht.head?_eq_some_iff rfl]
      simp only [hs, hother, false_and]
  rw [hkind]
  apply block hclosed

end Cut

/-- The lexemes of a text begin with the one that is cut off. -/
theorem lexemes?_append {l : Lexeme} {r : List Char} (h : Cut l r) :
  lexemes? (l.text ++ r) = (lexemes? r).map (l :: ·)
  := by
  have hnext := next?_of_cut h
  cases hs : l.text ++ r with
  | nil =>
    rw [hs] at hnext
    cases hnext
  | cons c s =>
    rw [hs] at hnext
    rw [lexemes?]
    split
    · rename_i hnone
      rw [hnext] at hnone
      cases hnone
    · rename_i q hq
      rw [hnext] at hq
      obtain rfl := Option.some.inj hq
      rfl

end Fettle.Kotlin
