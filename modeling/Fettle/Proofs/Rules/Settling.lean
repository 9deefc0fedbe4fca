import Fettle.Proofs.Engine.Reporting
import Fettle.Proofs.Rules.Standard
import Fettle.Proofs.Text.Lines
import Mathlib.Data.List.Nodup
import Mathlib.Data.Prod.Basic

/-!
# Fixing with the standard rules comes to an end

The `pressure` of a list of leaves counts its block comments, and once more those that no line
break follows at once; the `weight` is the length of the text, where line feeds count twice.
Each `Rewrite` lowers the pressure, or keeps it and lowers the weight, so no list can be rewritten
for ever.  A fix pass with something to correct rewrites the leaves at least once: the first of
its fixes is one of the rule that has found something there.  So there is a number of passes
after which nothing is left to correct, or a pass fails: `settled_formatTimed`.
-/

namespace Fettle

/-! ### The measure -/

section

variable {ι : Type}

/-- Whether some leaves begin with a line break. -/
def beginsWithBreak (ls : List (Leaf ι)) : Bool :=
  ls.head?.any Leaf.breaksLine

/-- The number of block comments, those that no line break follows at once counted twice. -/
def pressure : List (Leaf ι) → Nat
  | [] => 0
  | l :: ls =>
    (if l.kind = .blockComment then if beginsWithBreak ls then 1 else 2 else 0) + pressure ls

/-- The length of a text in bytes, line feeds counted twice. -/
def textWeight (s : List Char) : Nat :=
  s.count '\n' + Text.byteLength s

/-- The length of the text of some leaves in bytes, line feeds counted twice. -/
def weight : List (Leaf ι) → Nat
  | [] => 0
  | l :: ls => textWeight l.text.toList + weight ls

theorem beginsWithBreak_cons (l : Leaf ι) (ls : List (Leaf ι)) :
  beginsWithBreak (l :: ls) = l.breaksLine
  := rfl

theorem pressure_of_blockComment {l : Leaf ι} (h : l.kind = .blockComment)
    (ls : List (Leaf ι)) :
  pressure (l :: ls) = (if beginsWithBreak ls then 1 else 2) + pressure ls
  := by
  rw [pressure, if_pos h]

theorem pressure_of_other {l : Leaf ι} (h : l.kind ≠ .blockComment) (ls : List (Leaf ι)) :
  pressure (l :: ls) = pressure ls
  := by
  rw [pressure, if_neg h, Nat.zero_add]

theorem weight_append (a b : List (Leaf ι)) :
  weight (a ++ b) = weight a + weight b
  := by
  induction a with
  | nil => rw [List.nil_append, weight, Nat.zero_add]
  | cons l a ih => rw [List.cons_append, weight, weight, ih, ← Nat.add_assoc]

/-- What comes before some leaves adds the same pressure to all that begin alike. -/
theorem pressure_append (a : List (Leaf ι)) {ls ls' : List (Leaf ι)}
    (h : beginsWithBreak ls' = beginsWithBreak ls) :
  pressure (a ++ ls') + pressure ls = pressure (a ++ ls) + pressure ls'
  := by
  induction a with
  | nil => rw [List.nil_append, List.nil_append, Nat.add_comm]
  | cons l a ih =>
    have hbegin : beginsWithBreak (a ++ ls') = beginsWithBreak (a ++ ls) := by
      cases a with
      | nil => exact h
      | cons m a => rfl
    rw [List.cons_append, List.cons_append, pressure, pressure, hbegin, Nat.add_assoc, ih,
      Nat.add_assoc]

/-- Less pressure, or as much and less weight. -/
def Lighter (ls' ls : List (Leaf ι)) : Prop :=
  Prod.Lex (· < ·) (· < ·) (pressure ls', weight ls') (pressure ls, weight ls)

theorem wellFounded_lighter :
  WellFounded (Lighter (ι := ι))
  := by
  apply InvImage.wf fun ls => (pressure ls, weight ls)
  apply (Prod.lex Nat.lt_wfRel Nat.lt_wfRel).wf

theorem Lighter.trans {ls ls' ls'' : List (Leaf ι)} (h : Lighter ls' ls)
    (h' : Lighter ls'' ls') :
  Lighter ls'' ls
  := Prod.Lex.trans h' h

/-- Lower pressure after the same leaves is lower pressure. -/
theorem lighter_of_pressure (a : List (Leaf ι)) {ls ls' : List (Leaf ι)}
    (hbegin : beginsWithBreak ls' = beginsWithBreak ls) (h : pressure ls' < pressure ls) :
  Lighter (a ++ ls') (a ++ ls)
  := by
  apply Prod.Lex.left
  have happend := pressure_append a hbegin
  omega

/-- Lower weight after the same leaves and under the same pressure. -/
theorem lighter_of_weight (a : List (Leaf ι)) {ls ls' : List (Leaf ι)}
    (hbegin : beginsWithBreak ls' = beginsWithBreak ls) (hpressure : pressure ls' = pressure ls)
    (h : weight ls' < weight ls) :
  Lighter (a ++ ls') (a ++ ls)
  := by
  have happend := pressure_append a hbegin
  have heq : pressure (a ++ ls') = pressure (a ++ ls) := by omega
  rw [Lighter, heq]
  apply Prod.Lex.right
  rw [weight_append, weight_append]
  omega

end

/-! ### Rewriting lowers the measure -/

/-- A leaf of less weight that breaks the line if the other one does. -/
theorem lighter_of_leaf {a b : List (Leaf NodeId)} {l l' : Leaf NodeId}
    (hbreak : l'.breaksLine = l.breaksLine) (hkind : l'.kind = l.kind)
    (hweight : textWeight l'.text.toList < textWeight l.text.toList) :
  Lighter (a ++ l' :: b) (a ++ l :: b)
  := by
  apply lighter_of_weight
  · exact hbreak
  · rw [pressure, pressure, hkind]
  · rw [weight, weight]
    omega

/-- White space with another text breaks the line if it has line feeds exactly if it had. -/
theorem breaksLine_of_whitespace {i : NodeId} {s : String} {w : Leaf NodeId}
    (kind : w.kind = .whitespace) (hfeed : '\n' ∈ s.toList ↔ '\n' ∈ w.text.toList) :
  (⟨i, .whitespace, s⟩ : Leaf NodeId).breaksLine = w.breaksLine
  := by
  rw [Bool.eq_iff_iff, Leaf.breaksLine_iff, Leaf.breaksLine_iff]
  simp [kind, hfeed]

/-- An end-of-line comment presses less than a block comment. -/
theorem pressure_eolComment_lt {c : Leaf NodeId} (kind : c.kind = .blockComment) (i : NodeId)
    (s : String) (b : List (Leaf NodeId)) :
  pressure (⟨i, .eolComment, s⟩ :: b) < pressure (c :: b)
  := by
  have heol : (⟨i, .eolComment, s⟩ : Leaf NodeId).kind ≠ .blockComment := by
    simp
  rw [pressure_of_other heol, pressure_of_blockComment kind]
  split <;> omega

/-- White space does not press. -/
theorem pressure_whitespace {w : Leaf NodeId} (kind : w.kind = .whitespace)
    (ls : List (Leaf NodeId)) :
  pressure (w :: ls) = pressure ls
  := by
  apply pressure_of_other
  simp [kind]

theorem breaksLine_of_blockComment {c : Leaf NodeId} (kind : c.kind = .blockComment) :
  c.breaksLine = false
  := by
  apply Leaf.breaksLine_of_ne_whitespace
  simp [kind]

/-- A comment that goes over to the end of its line, after one space. -/
theorem lighter_attach {a old b : List (Leaf NodeId)} {c : Leaf NodeId} (i j : NodeId) (s : String)
    (kind : c.kind = .blockComment)
    (space : old = [] ∨ ∃ w : Leaf NodeId, w.isInlineSpace = true ∧ old = [w]) :
  Lighter (a ++ ⟨j, .whitespace, " "⟩ :: ⟨i, .eolComment, s⟩ :: b) (a ++ old ++ c :: b)
  := by
  have hlt := pressure_eolComment_lt kind i s b
  have hspace : (⟨j, .whitespace, " "⟩ : Leaf NodeId).breaksLine = false := by
    simp [Leaf.breaksLine]
  rw [List.append_assoc]
  rcases space with rfl | ⟨w, hw, rfl⟩
  · apply lighter_of_pressure
    · rw [List.nil_append, beginsWithBreak_cons, beginsWithBreak_cons, hspace,
        breaksLine_of_blockComment kind]
    · rwa [pressure_whitespace rfl, List.nil_append]
  · apply lighter_of_pressure
    · rw [List.singleton_append, beginsWithBreak_cons, beginsWithBreak_cons, hspace,
        Leaf.breaksLine_of_isInlineSpace hw]
    · rwa [pressure_whitespace rfl, List.singleton_append,
        pressure_whitespace (Leaf.isInlineSpace_iff.mp hw).1]

/-- What follows a comment goes over to the next line. -/
theorem lighter_separate {a gap b : List (Leaf NodeId)} {c n : Leaf NodeId} (j : NodeId)
    (kind : c.kind = .blockComment) (next : n.breaksLine = false)
    (space : gap = [] ∨ ∃ w : Leaf NodeId, w.isInlineSpace = true ∧ gap = [w]) :
  Lighter (a ++ c :: ⟨j, .whitespace, indentAfter a⟩ :: n :: b) (a ++ c :: (gap ++ n :: b))
  := by
  have hbreak : (⟨j, .whitespace, indentAfter a⟩ : Leaf NodeId).breaksLine = true := by
    apply Leaf.breaksLine_iff.mpr ⟨rfl, feed_mem_indentAfter a⟩
  apply lighter_of_pressure
  · rfl
  · -- the comment was not followed by a line break, and now it is
    rw [pressure_of_blockComment kind, pressure_of_blockComment kind, beginsWithBreak_cons,
      hbreak, pressure_whitespace rfl]
    rcases space with rfl | ⟨w, hw, rfl⟩
    · rw [List.nil_append, beginsWithBreak_cons, next]
      simp
    · rw [List.singleton_append, beginsWithBreak_cons, Leaf.breaksLine_of_isInlineSpace hw,
        pressure_whitespace (Leaf.isInlineSpace_iff.mp hw).1]
      simp

/-- Each rewriting lowers the measure. -/
theorem Rewrite.lighter {ls ls' : List (Leaf NodeId)} (h : Rewrite ls ls') :
  Lighter ls' ls
  := by
  cases h with
  | @convert a b c i kind _ _ _ _ =>
    apply lighter_of_pressure _ _ (pressure_eolComment_lt kind _ _ _)
    symm
    apply breaksLine_of_blockComment kind
  | @attach a old b c j i kind _ _ _ space =>
    apply lighter_attach i j _ kind (space.imp And.left id)
  | @separate a gap b c n j kind _ next space =>
    apply lighter_separate j kind next (space.imp And.left id)
  | @single a b w i space long _ _ =>
    rw [Leaf.isInlineSpace_iff] at space
    apply lighter_of_leaf
    · apply breaksLine_of_whitespace space.1
      simp [space.2]
    · exact space.1.symm
    · have hone : textWeight " ".toList = 1 := by decide
      rw [hone, textWeight, ← Text.utf8ByteSize_eq_byteLength]
      omega
  | @trimSpace a b w i kind marked _ =>
    have hcount := NoTrailingSpaces.count_unlines_spaceKept w.text.toList b.head?.isNone
    apply lighter_of_leaf
    · apply breaksLine_of_whitespace kind
      rw [String.toList_ofList, ← List.count_pos_iff, hcount, List.count_pos_iff]
    · exact kind.symm
    · rw [String.toList_ofList, textWeight, textWeight, hcount]
      apply Nat.add_lt_add_left (NoTrailingSpaces.byteLength_unlines_spaceKept_lt marked)
  | @dropSpace a b w kind marked left =>
    obtain ⟨hend, hfeed⟩ := NoTrailingSpaces.atEnd_of_unlines_spaceKept_eq_nil marked left
    rw [Option.isNone_iff_eq_none, List.head?_eq_none_iff] at hend
    have hlt := NoTrailingSpaces.byteLength_unlines_spaceKept_lt marked
    rw [left] at hlt
    subst hend
    apply lighter_of_weight
    · symm
      apply Leaf.breaksLine_of_isInlineSpace
      apply Leaf.isInlineSpace_iff.mpr ⟨kind, hfeed⟩
    · rw [pressure_whitespace kind]
    · rw [weight, weight, textWeight]
      omega
  | @trimComment a b c i feed kind _ marked =>
    have hbreak {l : Leaf NodeId} (hl : l.kind = c.kind) : l.breaksLine = false := by
      apply Leaf.breaksLine_of_ne_whitespace
      intro hspace
      rw [← hl, hspace] at kind
      cases kind
    have hcount := NoTrailingSpaces.count_unlines_commentKept c.text.toList feed
    apply lighter_of_leaf
    · rw [hbreak rfl]
      apply hbreak
      rfl
    · rfl
    · rw [String.toList_ofList, textWeight, textWeight, hcount]
      apply Nat.add_lt_add_left (NoTrailingSpaces.byteLength_unlines_commentKept_lt marked)
  | @collapse a b w i kind _ many =>
    apply lighter_of_leaf
    · apply breaksLine_of_whitespace kind
      rw [String.toList_ofList, ← List.count_pos_iff, ← List.count_pos_iff,
        NoConsecutiveBlankLines.count_collapsed many]
      have hpos := NoConsecutiveBlankLines.allowed_pos b.head?.isNone
      omega
    · exact kind.symm
    · rw [String.toList_ofList]
      apply NoConsecutiveBlankLines.weight_collapsed_lt many

/-! ### Passes come to an end -/

section

variable {e : Engine} {scope : Scope} (he : e.rules = standardOrder)

include he

/-- The first fix of a pass with something to correct rewrites the leaves. -/
theorem exists_first_fix {t : Tree} (h : t.Sound)
    (hsome : (detect (e.activate scope).1 t).correctable ≠ []) {t' : Tree}
    (ht' : correct (e.activate scope).1 (detect (e.activate scope).1 t) = .ok t') :
  ∃ u fixes, u.Sound ∧ Rewrite t.leaves u.leaves
    ∧ fixAll (e.activate scope).1 u fixes = .ok t'
  := by
  obtain ⟨p, ps, hp⟩ := List.exists_cons_of_ne_nil hsome
  have hmem : p ∈ (detect (e.activate scope).1 t).correctable := by
    rw [hp]
    apply List.mem_cons_self
  obtain ⟨hpending, hcorrectable⟩ := List.mem_filter.mp hmem
  obtain ⟨hatt, a, ha, hid, hfound⟩ := mem_pending hpending
  obtain ⟨fixes, hfixes⟩ : ∃ fixes, (detect (e.activate scope).1 t).fixes
      = (p.node, p.ruleId) :: fixes := by
    rw [Detection.fixes, hp, List.map_cons, firstOccurrences, if_neg (by simp)]
    exact ⟨_, rfl⟩
  have hone : fixOne (e.activate scope).1 t (p.node, p.ruleId)
      = (a.fix t p.node).mapError (⟨some p.ruleId, ·⟩) := by
    rw [fixOne, if_pos hatt, ← hid, find?_active he ha]
  have hall := fixAll_of_correct ht'
  rw [hfixes, fixAll, hone] at hall
  cases hfix : a.fix t p.node with
  | error fault =>
    rw [hfix] at hall
    cases hall
  | ok u =>
    rw [hfix] at hall
    obtain ⟨hu, hrewrite | ⟨-, hnone⟩⟩ := Active.fixSound he ha h hatt hfix
    · use u, fixes, hu, hrewrite
      apply hall
    · rw [Pending.correctable, hnone p.finding hfound] at hcorrectable
      cases hcorrectable

/-- A fix pass with something to correct lowers the measure. -/
theorem lighter_of_correct {t t' : Tree} (h : t.Sound)
    (hsome : (detect (e.activate scope).1 t).correctable ≠ [])
    (ht' : correct (e.activate scope).1 (detect (e.activate scope).1 t) = .ok t') :
  t'.Sound ∧ Lighter t'.leaves t.leaves
  := by
  obtain ⟨u, fixes, hu, hrewrite, hrest⟩ := exists_first_fix he h hsome ht'
  apply fixAll_invariant (P := fun v => v.Sound ∧ Lighter v.leaves t.leaves) _
    ⟨hu, hrewrite.lighter⟩ hrest
  rintro a ha v n v' ⟨hv, hlighter⟩ hn hfix
  obtain ⟨hv', hrewrite | ⟨rfl, -⟩⟩ := Active.fixSound he ha hv hn hfix
  · exact ⟨hv', hlighter.trans hrewrite.lighter⟩
  · exact ⟨hv', hlighter⟩

/-- There is a bound on the number of fix passes that can be made. -/
theorem exists_passes_le {t : Tree} (h : t.Sound) :
  ∃ n, ∀ k u, Passes (e.activate scope).1 t k u → k ≤ n
  := by
  obtain ⟨ls, hls⟩ : ∃ ls, t.leaves = ls := ⟨_, rfl⟩
  induction ls using wellFounded_lighter.induction generalizing t with
  | _ ls ih =>
    subst hls
    by_cases hsome : (detect (e.activate scope).1 t).correctable = []
    · use 0
      intro k u hu
      apply Passes.none.le_of_settled hsome hu
    · cases hcorrect : correct (e.activate scope).1 (detect (e.activate scope).1 t) with
      | error failure =>
        use 0
        intro k u hu
        apply Passes.none.le_of_failed hcorrect hu
      | ok t' =>
        obtain ⟨hsound, hlighter⟩ := lighter_of_correct he h hsome hcorrect
        obtain ⟨n, hn⟩ := ih _ hlighter hsound rfl
        use n + 1
        intro k u hu
        cases k with
        | zero => apply Nat.zero_le
        | succ k => apply Nat.succ_le_succ (hn k u (hu.tail hcorrect))

end

/-- For every tree that is built there is a number of passes that are enough: no run with the
standard rules that may make so many is left unsettled. -/
theorem settled_formatTimed {es : List Event} {t : Tree} (ht : Tree.ofEvents es = .ok t)
    (scope : Scope) :
  ∃ n, ∀ (c : Config) (clock : Clock), n ≤ c.maxPasses →
    ∃ e, Kotlin.standardEngine c = .ok e
      ∧ (e.formatTimed clock t scope).1.isUnstable = false
  := by
  obtain ⟨n, hn⟩ : ∃ n, ∀ k u,
      Passes (Engine.activate ⟨standardOrder, 1, none⟩ scope).1 t k u → k ≤ n :=
    exists_passes_le rfl (Tree.Sound.ofEvents ht)
  use n + 1
  intro c clock hc
  use ⟨standardOrder, max c.maxPasses 1, c.timeout⟩, standardEngine_eq c
  rw [Engine.isUnstable_format, ← Bool.not_eq_true]
  intro hu
  have hends := Engine.ends_outcome ⟨standardOrder, max c.maxPasses 1, c.timeout⟩ clock t scope
  have hle : max c.maxPasses 1 ≤ n := hn _ _ (hends.passes_of_unstable hu).1
  omega

/-- Two block comments on the line of an element, which are moved one after the other. -/
theorem settled_formatTimed_comments :
  let es : List Event := [.start .file none, .token .blockComment "/* a */",
    .token .blockComment "/* b */", .token .identifier "x", .finish]
  let t : Tree := .ofRoot .file none (.leaf () .blockComment "/* a */"
    (.leaf () .blockComment "/* b */" (.leaf () .identifier "x" .nil)))
  Tree.ofEvents es = .ok t
    ∧ ∃ n, ∀ (c : Config) (clock : Clock), n ≤ c.maxPasses →
      ∃ e, Kotlin.standardEngine c = .ok e
        ∧ (e.formatTimed clock t .empty).1.isUnstable = false
  := by
  intro es t
  have ht : Tree.ofEvents es = .ok t := by
    rfl
  use ht
  apply settled_formatTimed ht .empty

end Fettle
