import Fettle.Proofs.Kotlin.Reread
import Fettle.Proofs.Text.Returns

/-!
# Line breaks with carriage returns

The rules of the minimal preset only trim leaves (`trim_of_fix`), and what `Trim` preserves in
sound trees, runs with them preserve (`minimal_invariant`).

In a text that has a carriage return directly before every line feed, trimming leaves them where
they are, also where a leaf ends in the carriage return of a line break and the next one begins
with its line feed (`Trim.allReturned`).  There is one exception: white space that begins with
the line feed of such a line break, and in which there are blank lines too many, comes to begin
with two line feeds.  `crlf_formatTimed` says that the second of them is the only one that has no
carriage return in a text that has been formatted, and when there are none.
-/

namespace Fettle

open Kotlin Text

/-! ### Runs with the rules of the minimal preset -/

/-- The rules of the minimal preset in execution order. -/
def minimalOrder : List Registered :=
  [⟨⟨"standard:no-trailing-spaces"⟩, NoTrailingSpaces.rule, [], [], false⟩,
    ⟨⟨"standard:no-consecutive-blank-lines"⟩, NoConsecutiveBlankLines.rule, [], [], true⟩]

/-- The engine of the minimal preset can be made, whatever the configuration. -/
theorem minimalEngine_eq (c : Config) :
  Kotlin.presetEngine .minimal c = .ok ⟨minimalOrder, max c.maxPasses 1, c.timeout⟩
  := by
  obtain ⟨m, timeout, properties, overrides⟩ := c
  cases timeout with
  | none => rfl
  | some limit => rfl

/-- A fix of a rule of the minimal preset at a node of a sound tree trims a leaf, or the tree is
the same. -/
theorem trim_of_fix {r : Registered} (hr : r ∈ minimalOrder) {s : Site} {t : Tree}
    (h : s.tree.Sound) (hn : s.tree.isAttached s.node = true) (he : r.rule.fix s = .ok t) :
  t = s.tree ∨ t.Sound ∧ Trim s.tree.leaves t.leaves
  := by
  simp only [minimalOrder, List.mem_cons, List.not_mem_nil, or_false] at hr
  rcases hr with rfl | rfl
  · apply (NoTrailingSpaces.trim_of_fix h hn he).imp_left And.left
  · apply (NoConsecutiveBlankLines.trim_of_fix h hn he).imp_left And.left

/-- Runs with the rules of the minimal preset preserve soundness and what `Trim` preserves in
sound trees. -/
theorem minimal_invariant {e : Engine} (he : e.rules = minimalOrder) {scope : Scope}
    {P : List (Leaf NodeId) → Prop}
    (hP : ∀ t t' : Tree, t.Sound → t'.Sound → Trim t.leaves t'.leaves → P t.leaves →
      P t'.leaves)
    (clock : Clock) {t : Tree} (h : t.Sound) (ht : P t.leaves) :
  (e.formatTimed clock t scope).2.Sound ∧ P (e.formatTimed clock t scope).2.leaves
  := by
  apply formatTimed_invariant (P := fun t => t.Sound ∧ P t.leaves) _ clock ⟨h, ht⟩
  rintro a ha u n u' ⟨hu, hPu⟩ hn hfix
  have hrule : a.rule ∈ minimalOrder := he ▸ Engine.rule_mem_of_mem_activate ha
  rcases trim_of_fix hrule (s := a.site u n) hu hn hfix with rfl | ⟨hu', htrim⟩
  · exact ⟨hu, hPu⟩
  · use hu'
    apply hP u u' hu hu' htrim hPu

/-! ### Leaves that have their carriage returns -/

variable {a b ls ls' : List (Leaf NodeId)} {l : Leaf NodeId}

/-- A leaf that comes after a carriage return or not and has all of its own, but that white space
after one may begin with two line feeds, if `torn`. -/
def LeafReturned (torn : Prop) (after : Bool) (l : Leaf NodeId) : Prop :=
  returned after l.text.toList = true
    ∨ torn ∧ l.kind = .whitespace ∧ after = true ∧ Doubled l.text.toList

/-- Leaves that have their carriage returns, one after the other. -/
def AllReturned (torn : Prop) (after : Bool) : List (Leaf NodeId) → Prop
  | [] => True
  | l :: ls => LeafReturned torn after l ∧ AllReturned torn (endsInReturn after l.text.toList) ls

/-- White space that begins with a line feed and has more of them than may stay. -/
structure Leaf.IsTorn (w : Leaf NodeId) : Prop where
  kind : w.kind = .whitespace
  head : w.text.toList.head? = some '\n'
  many : 2 < w.text.toList.count '\n'

theorem allReturned_append {torn : Prop} {after : Bool} :
  AllReturned torn after (a ++ b)
    ↔ AllReturned torn after a ∧ AllReturned torn (endsInReturn after (chars a)) b
  := by
  induction a generalizing after with
  | nil => simp [AllReturned, endsInReturn]
  | cons l a ih =>
    rw [List.cons_append, AllReturned, AllReturned, ih, chars_cons, endsInReturn_append, and_assoc]

/-- The leaves of a text with carriage returns have theirs. -/
theorem allReturned_of_returned {torn : Prop} {after : Bool}
    (h : returned after (chars ls) = true) :
  AllReturned torn after ls
  := by
  induction ls generalizing after with
  | nil => trivial
  | cons l ls ih =>
    rw [chars_cons, returned_append, Bool.and_eq_true] at h
    exact ⟨.inl h.1, ih h.2⟩

theorem LeafReturned.of_feed {torn : Prop} {after : Bool} (h : LeafReturned torn after l)
    {p q : List Char} (hpq : l.text.toList = p ++ '\n' :: q) :
  endsInReturn after p = true
    ∨ torn ∧ l.kind = .whitespace ∧ Doubled l.text.toList ∧ p = ['\n']
  := by
  rcases h with h | ⟨htorn, hkind, hafter, hdoubled⟩
  · left
    apply returned_iff.mp h p q hpq
  · obtain ⟨last, hlast, htext⟩ := id hdoubled
    rw [htext] at hpq
    match p, hpq with
    | [], _ => exact .inl hafter
    | [c], hpq =>
      obtain ⟨rfl, -⟩ := List.cons.inj hpq
      exact .inr ⟨htorn, hkind, hdoubled, rfl⟩
    | c :: d :: p, hpq =>
      obtain ⟨-, hrest⟩ := List.cons.inj (List.cons.inj hpq).2
      rw [hrest] at hlast
      simp at hlast

/-- Every line feed of the text of leaves comes after a carriage return, or it is the second one
at the start of white space. -/
theorem AllReturned.of_feed {torn : Prop} {after : Bool} (h : AllReturned torn after ls)
    {p q : List Char} (hpq : chars ls = p ++ '\n' :: q) :
  endsInReturn after p = true
    ∨ torn ∧ ∃ a w b, ls = a ++ w :: b ∧ w.kind = .whitespace ∧ Doubled w.text.toList
      ∧ p = chars a ++ ['\n']
  := by
  induction ls generalizing after p with
  | nil => simp at hpq
  | cons l ls ih =>
    obtain ⟨hl, hls⟩ := h
    have hlater {p' : List Char} (hp' : chars ls = p' ++ '\n' :: q) :
        endsInReturn after (l.text.toList ++ p') = true
          ∨ torn ∧ ∃ a w b, l :: ls = a ++ w :: b ∧ w.kind = .whitespace
            ∧ Doubled w.text.toList ∧ l.text.toList ++ p' = chars a ++ ['\n'] := by
      rw [endsInReturn_append]
      apply (ih hls hp').imp_right
      rintro ⟨htorn, a, w, b, rfl, hkind, hdoubled, rfl⟩
      use htorn, l :: a, w, b, rfl, hkind, hdoubled
      rw [chars_cons, List.append_assoc]
    rw [chars_cons, List.append_eq_append_iff] at hpq
    rcases hpq with ⟨p', rfl, hp'⟩ | ⟨q', hq', hq⟩
    · apply hlater hp'
    · cases q' with
      | nil =>
        have hrest : chars ls = [] ++ '\n' :: q := hq.symm
        rw [List.append_nil] at hq'
        rw [← hq', ← List.append_nil l.text.toList]
        apply hlater hrest
      | cons c q' =>
        obtain ⟨rfl, -⟩ := List.cons.inj hq
        apply (hl.of_feed hq').imp_right
        rintro ⟨htorn, hkind, hdoubled, rfl⟩
        use htorn, [], l, ls, rfl, hkind, hdoubled
        rfl

/-- What comes before leaves matters only if they begin with a line feed. -/
theorem AllReturned.after {torn : Prop} {before after : Bool} (h : AllReturned torn before b)
    (hne : ∀ l ∈ b, l.text ≠ "")
    (hfeed : ∀ n rest, b = n :: rest → n.text.toList.head? = some '\n' → before = true →
      after = true) :
  AllReturned torn after b
  := by
  cases b with
  | nil => trivial
  | cons n rest =>
    obtain ⟨hn, hrest⟩ := h
    have hend : endsInReturn after n.text.toList = endsInReturn before n.text.toList := by
      apply endsInReturn_of_ne_nil
      simpa using hne n List.mem_cons_self
    constructor
    · rcases hn with hn | ⟨htorn, hkind, hbefore, hdoubled⟩
      · left
        apply returned_of_imp hn (hfeed n rest rfl)
      · right
        exact ⟨htorn, hkind, hfeed n rest rfl hdoubled.head? hbefore, hdoubled⟩
    · rwa [hend]

/-! ### Trimming -/

namespace Trimmed

variable {torn : Prop} {after : Bool} {x : List Char} (h : Trimmed a b l x)
  (hl : LeafReturned torn after l) (i : NodeId)

include h hl

/-- A leaf that is trimmed keeps its carriage returns, also the one at its end if the line feed
is in the next leaf, unless it is torn. -/
theorem leafReturned (htorn : b ≠ [] → l.IsTorn → torn) :
  LeafReturned torn after ⟨i, l.kind, String.ofList x⟩
    ∧ ∀ n rest, b = n :: rest → n.text.toList.head? = some '\n' →
      endsInReturn after l.text.toList = true → endsInReturn after x = true
  := by
  rw [LeafReturned, String.toList_ofList]
  have hlines : ∀ m ∈ lines l.text.toList, '\n' ∉ m := fun _ => feed_notMem_of_mem_lines
  cases h with
  | space kind marked =>
    rcases hl with hl | ⟨ht, -, hafter, hdoubled⟩
    · rw [← unlines_lines l.text.toList] at hl
      obtain ⟨hkept, hend⟩ := NoTrailingSpaces.returned_spaceKept hlines hl b.head?.isNone
      use .inl hkept
      rintro n rest rfl -
      rw [hend rfl, unlines_lines]
      exact id
    · obtain ⟨hkept, hsame⟩ := hdoubled.spaceKept b.head?.isNone
      use .inr ⟨ht, kind, hafter, hkept⟩
      rintro n rest rfl -
      rw [hsame rfl]
      exact id
  | comment feed kind follows marked =>
    rcases hl with hl | ⟨-, hkind, -⟩
    · rw [← unlines_lines l.text.toList] at hl
      obtain ⟨hkept, hend⟩ := NoTrailingSpaces.returned_commentKept hlines hl feed
      use .inl hkept
      rintro n rest rfl hhead
      rw [unlines_lines] at hend
      apply hend
      rw [follows, List.head?_cons, Option.any_some, hhead]
      rfl
    · rw [hkind] at kind
      cases kind
  | collapsed kind before many =>
    rcases hl with hl | ⟨ht, -, rfl, hdoubled⟩
    · obtain ⟨hend, hkept⟩ := NoConsecutiveBlankLines.returned_collapsed many hl
      constructor
      · apply hkept.imp_right
        rintro ⟨hsome, hafter, hhead, hdoubled⟩
        have hb : b ≠ [] := by
          rintro rfl
          cases hsome
        rw [hsome] at many
        exact ⟨htorn hb ⟨kind, hhead, many⟩, kind, hafter, hdoubled⟩
      · intro _ _ _ _
        rw [hend]
        exact id
    · obtain ⟨hlast, hkept⟩ := hdoubled.returned_collapsed many
      use .inl hkept
      rintro n rest rfl
      cases hlast

/-- A leaf that is torn after it is trimmed was torn before. -/
theorem isTorn (hx : Leaf.IsTorn ⟨i, l.kind, String.ofList x⟩) :
  l.IsTorn
  := by
  obtain ⟨hkind, hhead, hmany⟩ := hx
  rw [String.toList_ofList] at hhead hmany
  cases h with
  | space kind marked =>
    rw [NoTrailingSpaces.count_unlines_spaceKept] at hmany
    apply Leaf.IsTorn.mk kind _ hmany
    rcases hl with hl | ⟨-, -, -, hdoubled⟩
    · have hlines : ∀ m ∈ lines l.text.toList, '\n' ∉ m := fun _ => feed_notMem_of_mem_lines
      rw [← unlines_lines l.text.toList] at hl ⊢
      apply NoTrailingSpaces.head?_spaceKept hlines hl hhead
    · apply hdoubled.head?
  | comment feed kind =>
    rw [hkind] at kind
    cases kind
  | collapsed kind before many =>
    rw [NoConsecutiveBlankLines.count_collapsed many] at hmany
    have hle := NoConsecutiveBlankLines.allowed_le b.head?.isNone
    omega

end Trimmed

theorem mem_dropLast_iff {w : Leaf NodeId} :
  w ∈ (a ++ l :: b).dropLast ↔ w ∈ a ∨ b ≠ [] ∧ (w = l ∨ w ∈ b.dropLast)
  := by
  rw [List.dropLast_append_cons, List.mem_append]
  cases b with
  | nil => simp
  | cons n rest => simp [List.dropLast_cons_of_ne_nil]

/-- White space goes only at the end. -/
theorem Trimmed.eq_nil (h : Trimmed a b l []) (hkind : l.kind = .whitespace) :
  b = []
  := by
  obtain ⟨x, hx⟩ : ∃ x, x = ([] : List Char) := ⟨_, rfl⟩
  rw [← hx] at h
  cases h with
  | space _ marked =>
    have hlast := (NoTrailingSpaces.atEnd_of_unlines_spaceKept_eq_nil marked hx).1
    simpa using hlast
  | comment feed kind =>
    rw [hkind] at kind
    cases kind
  | collapsed _ _ many => exact absurd hx (NoConsecutiveBlankLines.collapsed_ne_nil many)

namespace Trim

variable {torn : Prop} {after : Bool} (h : Trim ls ls') (hls : AllReturned torn after ls)

include h hls

/-- Leaves that are trimmed keep their carriage returns. -/
theorem allReturned (hne : ∀ l ∈ ls, l.text ≠ "")
    (htorn : (∃ w ∈ ls.dropLast, w.IsTorn) → torn) :
  AllReturned torn after ls'
  := by
  cases h with
  | @shorten a b l x i trimmed left =>
    rw [allReturned_append] at hls ⊢
    obtain ⟨ha, hl, hb⟩ := hls
    have hkept := trimmed.leafReturned hl i fun hne hl =>
      htorn ⟨l, mem_dropLast_iff.mpr (.inr ⟨hne, .inl rfl⟩), hl⟩
    use ha, hkept.1
    apply hb.after
    · intro n hn
      apply hne n (List.mem_append_right a (List.mem_cons_of_mem l hn))
    · rw [String.toList_ofList]
      exact hkept.2
  | @drop a b l kind trimmed =>
    rw [trimmed.eq_nil kind, List.append_nil]
    rw [allReturned_append] at hls
    exact hls.1

/-- White space that is torn, not the last of the leaves, was torn before. -/
theorem isTorn (hw : ∃ w ∈ ls'.dropLast, w.IsTorn) :
  ∃ w ∈ ls.dropLast, w.IsTorn
  := by
  obtain ⟨w, hmem, hw⟩ := hw
  cases h with
  | @shorten a b l x i trimmed left =>
    rw [allReturned_append] at hls
    simp only [mem_dropLast_iff] at hmem ⊢
    rcases hmem with hmem | ⟨hne, rfl | hmem⟩
    · use w, .inl hmem
    · use l, .inr ⟨hne, .inl rfl⟩
      apply trimmed.isTorn hls.2.1 i hw
    · use w, .inr ⟨hne, .inr hmem⟩
  | @drop a b l kind trimmed =>
    rw [trimmed.eq_nil kind, List.append_nil] at hmem
    use w, mem_dropLast_iff.mpr (.inl ((List.dropLast_sublist a).mem hmem))

end Trim

/-! ### Formatting -/

/-- After a text in which a carriage return is directly before every line feed has been formatted
with the minimal preset, one is before every line feed but the second of two at the start of white
space.  There are no such two if no white space, the last leaf aside, began with a line feed and
had more than two. -/
theorem crlf_formatTimed {t : Tree} (h : t.Sound) (hcrlf : Crlf t.text.toList) (c : Config)
    (scope : Scope) (clock : Clock) :
  ∃ e, Kotlin.presetEngine .minimal c = .ok e
    ∧ (∀ p q, (e.formatTimed clock t scope).2.text.toList = p ++ '\n' :: q →
      p.getLast? = some '\r'
        ∨ ∃ a w b, (e.formatTimed clock t scope).2.leaves = a ++ w :: b ∧ w.kind = .whitespace
          ∧ ['\n', '\n'] <+: w.text.toList ∧ p = chars a ++ ['\n'])
    ∧ ((∀ w ∈ t.leaves.dropLast, ¬ w.IsTorn) →
      Crlf (e.formatTimed clock t scope).2.text.toList)
  := by
  obtain ⟨e, he⟩ : ∃ e, e = Engine.mk minimalOrder (max c.maxPasses 1) c.timeout := ⟨_, rfl⟩
  have hrules : e.rules = minimalOrder := by
    rw [he]
  obtain ⟨torn, htorn⟩ : ∃ torn, torn = ∃ w ∈ t.leaves.dropLast, w.IsTorn := ⟨_, rfl⟩
  rw [← chars_leaves, crlf_iff] at hcrlf
  have hkept : AllReturned torn false (e.formatTimed clock t scope).2.leaves :=
    (minimal_invariant hrules
      (P := fun ls => AllReturned torn false ls ∧ ((∃ w ∈ ls.dropLast, w.IsTorn) → torn))
      (fun u u' hu _ htrim hP =>
        ⟨htrim.allReturned hP.1 hu.text_ne_empty hP.2, fun hw => hP.2 (htrim.isTorn hP.1 hw)⟩)
      clock h ⟨allReturned_of_returned hcrlf, htorn.mpr⟩).2.1
  use e, by rw [he, minimalEngine_eq]
  rw [← chars_leaves]
  constructor
  · intro p q hpq
    rw [← endsInReturn_eq_true_iff]
    apply (hkept.of_feed hpq).imp_right
    rintro ⟨-, a, w, b, hleaves, hkind, ⟨last, -, htext⟩, hp⟩
    use a, w, b, hleaves, hkind, ⟨last, htext.symm⟩
  · intro hnone p q hpq
    rw [← endsInReturn_eq_true_iff]
    rcases hkept.of_feed hpq with hend | ⟨hsome, -⟩
    · exact hend
    · obtain ⟨w, hw, hisTorn⟩ := htorn.mp hsome
      exact absurd hisTorn (hnone w hw)

/-- A comment with trailing spaces that ends in the carriage return of its line break, and blank
lines at the end of the document. -/
theorem crlf_formatTimed_split :
  let t : Tree := .ofRoot .file none (.leaf () .eolComment "// c  \r" (.leaf () .whitespace "\n"
    (.leaf () .identifier "y" (.leaf () .whitespace "  \r\n\r\n" .nil))))
  t.Sound ∧ Crlf t.text.toList ∧ (∀ w ∈ t.leaves.dropLast, ¬ w.IsTorn)
    ∧ ∃ e, Kotlin.presetEngine .minimal .empty = .ok e
      ∧ Crlf (e.formatTimed .stopped t .empty).2.text.toList
  := by
  intro t
  have ht : t.Sound := by
    apply Tree.Sound.ofRoot
    · rfl
    · decide
  have hcrlf : Crlf t.text.toList := by
    decide +kernel
  have hnone : ∀ w ∈ t.leaves.dropLast, ¬ w.IsTorn := by
    have hfew : ∀ w ∈ t.leaves.dropLast, w.text.toList.count '\n' ≤ 2 := by
      decide +kernel
    intro w hw hisTorn
    apply Nat.not_lt.mpr (hfew w hw) hisTorn.many
  obtain ⟨e, he, -, hkept⟩ := crlf_formatTimed ht hcrlf .empty .empty .stopped
  exact ⟨ht, hcrlf, hnone, e, he, hkept hnone⟩

/-- Not every text keeps its carriage returns: blank lines after such a comment lose one. -/
theorem exists_not_crlf_formatTimed :
  ¬ ∀ (t : Tree) (c : Config) (scope : Scope) (clock : Clock), t.Sound → Crlf t.text.toList →
    ∃ e, Kotlin.presetEngine .minimal c = .ok e
      ∧ Crlf (e.formatTimed clock t scope).2.text.toList
  := by
  intro h
  let t : Tree := .ofRoot .file none (.leaf () .eolComment "// c\r"
    (.leaf () .whitespace "\n\r\n\r\n" (.leaf () .identifier "y" .nil)))
  have ht : t.Sound := by
    apply Tree.Sound.ofRoot
    · rfl
    · decide
  obtain ⟨e, he, hcrlf⟩ := h t .empty .empty .stopped ht (by decide +kernel)
  rw [minimalEngine_eq] at he
  obtain rfl := Except.ok.inj he
  revert hcrlf
  decide +kernel

end Fettle
