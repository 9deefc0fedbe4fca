import Fettle.Proofs.Rules.Standard

/-!
# What the standard rules find

The standard rules look at leaves only and never give up, so a detection with some of them yields
what they find at the leaves from left to right, but for what directives suppress
(`pending_detect`).  The violations that are reported are determined by the text and by what is
pending, the nodes aside (`Detection.violations_congr`).
-/

namespace Fettle

/-- The standard rules never give up. -/
theorem failure_inspect {r : Rule} (hr : r ∈ Preset.standard.rules) (s : Site) :
  (r.inspect s).failure = none
  := by
  simp only [Preset.rules, List.mem_cons, List.not_mem_nil, or_false] at hr
  rcases hr with rfl | rfl | rfl | rfl
  · change (CommentWrapping.inspect s).failure = none
    rw [CommentWrapping.inspect]
    split <;> rfl
  · rfl
  · change (NoMultiSpaces.inspect s).failure = none
    rw [NoMultiSpaces.inspect]
    split <;> rfl
  · change (NoConsecutiveBlankLines.inspect s).failure = none
    rw [NoConsecutiveBlankLines.inspect]
    split <;> rfl

theorem CommentWrapping.findings_inspect_eq_nil {s : Site} (h : s.kind ≠ .blockComment) :
  (inspect s).findings = []
  := by
  rw [inspect, if_neg h]
  rfl

theorem NoMultiSpaces.findings_inspect_eq_nil {s : Site} (h : isLong s = false) :
  (inspect s).findings = []
  := by
  rw [inspect, h]
  rfl

theorem NoConsecutiveBlankLines.findings_inspect_eq_nil {s : Site} (h : s.kind ≠ .whitespace) :
  (inspect s).findings = []
  := by
  have hfew : isExcessive s = false := by
    simp [isExcessive, h]
  rw [inspect, hfew]
  rfl

/-- The standard rules find something only in white space and comments. -/
theorem findings_inspect_eq_nil {r : Rule} (hr : r ∈ Preset.standard.rules) {s : Site}
    (hspace : s.kind ≠ .whitespace) (hcomment : s.kind.isComment = false) :
  (r.inspect s).findings = []
  := by
  simp only [Preset.rules, List.mem_cons, List.not_mem_nil, or_false] at hr
  rcases hr with rfl | rfl | rfl | rfl
  · apply CommentWrapping.findings_inspect_eq_nil
    intro hkind
    rw [hkind] at hcomment
    cases hcomment
  · change (NoTrailingSpaces.inspect s).findings = []
    rw [NoTrailingSpaces.inspect, NoTrailingSpaces.marks, if_neg hspace, hcomment]
    rfl
  · apply NoMultiSpaces.findings_inspect_eq_nil
    simp [NoMultiSpaces.isLong, hspace]
  · apply NoConsecutiveBlankLines.findings_inspect_eq_nil hspace

/-- Only what is found at block comments may be beyond correction. -/
theorem correctable_of_mem_findings {r : Rule} (hr : r ∈ Preset.standard.rules) {s : Site}
    (hkind : s.kind ≠ .blockComment) {f : Finding} (hf : f ∈ (r.inspect s).findings) :
  f.correctable = true
  := by
  simp only [Preset.rules, List.mem_cons, List.not_mem_nil, or_false] at hr
  rcases hr with rfl | rfl | rfl | rfl
  · change f ∈ (CommentWrapping.inspect s).findings at hf
    rw [CommentWrapping.findings_inspect_eq_nil hkind] at hf
    cases hf
  · obtain ⟨delta, -, rfl⟩ := List.mem_map.mp hf
    rfl
  · change f ∈ (NoMultiSpaces.inspect s).findings at hf
    rw [NoMultiSpaces.inspect] at hf
    split at hf
    · rw [List.mem_singleton.mp hf]
      rfl
    · cases hf
  · change f ∈ (NoConsecutiveBlankLines.inspect s).findings at hf
    rw [NoConsecutiveBlankLines.inspect] at hf
    split at hf
    · rw [List.mem_singleton.mp hf]
      rfl
    · cases hf

/-! ### Detections -/

/-- A finding as if it were made at the root. -/
def Pending.atRoot (p : Pending) : Pending :=
  { p with node := Tree.root }

/-- What active rules find at a node, as if it were found at the root. -/
def lookedAt (active : List Active) (t : Tree) (n : NodeId) : List Pending :=
  active.flatMap fun a => (a.inspect t n).findings.map (⟨Tree.root, a.id, ·⟩)

/-- A sweep of rules none of which gives up. -/
theorem sweep_of_failure_eq_none {t : Tree} {vs : List (NodeId × Active)}
    (h : ∀ v ∈ vs, (v.2.inspect t v.1).failure = none) :
  sweep t [] vs
    = (vs.flatMap fun v => (v.2.inspect t v.1).findings.map (⟨v.1, v.2.id, ·⟩), [])
  := by
  induction vs with
  | nil => rfl
  | cons v vs ih =>
    have hrest := ih fun w hw => h w (List.mem_cons_of_mem _ hw)
    rw [sweep, hrest, List.flatMap_cons]
    simp only [h v List.mem_cons_self]
    rfl

/-- Entries that yield nothing can be left out. -/
theorem flatMap_of_sublist {α β : Type} {l m : List α} {g : α → List β} (h : l.Sublist m)
    (hm : m.Nodup) (hg : ∀ x ∈ m, x ∉ l → g x = []) :
  m.flatMap g = l.flatMap g
  := by
  induction h with
  | slnil => rfl
  | @cons l m a hsub ih =>
    obtain ⟨ha, hm⟩ := List.nodup_cons.mp hm
    have hnil : g a = [] := hg a List.mem_cons_self fun hmem => ha (hsub.mem hmem)
    rw [List.flatMap_cons, hnil, List.nil_append]
    apply ih hm
    intro x hx
    apply hg x (List.mem_cons_of_mem _ hx)
  | @cons_cons l m a hsub ih =>
    obtain ⟨ha, hm⟩ := List.nodup_cons.mp hm
    rw [List.flatMap_cons, List.flatMap_cons, ih hm]
    intro x hx hxl
    apply hg x (List.mem_cons_of_mem _ hx)
    intro hmem
    rcases List.mem_cons.mp hmem with rfl | hmem
    · exact ha hx
    · exact hxl hmem

section

variable {active : List Active} (hactive : ∀ a ∈ active, a.rule.rule ∈ Preset.standard.rules)
  {t : Tree} (h : t.Sound)

include hactive h

/-- The nodes other than leaves yield nothing. -/
theorem flatMap_preOrder :
  t.preOrder.flatMap (lookedAt active t) = t.leaves.flatMap fun l => lookedAt active t l.id
  := by
  have hsub : (t.leaves.map Leaf.id).Sublist t.preOrder := t.attached.sublist_ids_leaves
  rw [flatMap_of_sublist hsub h.nodup_attached, List.flatMap_map]
  intro n hn hnot
  rw [lookedAt, List.flatMap_eq_nil_iff]
  intro a ha
  rw [List.map_eq_nil_iff]
  have hkind : (a.site t n).kind.isComposite = true := by
    rw [← Bool.not_eq_false]
    intro hleaf
    obtain ⟨b, l, c, hl, hid⟩ := h.exists_leaf (Tree.isAttached_iff.mpr hn) hleaf
    apply hnot
    rw [hl, ← hid]
    simp
  apply findings_inspect_eq_nil (hactive a ha)
  · intro hspace
    rw [hspace] at hkind
    cases hkind
  · rw [← Bool.not_eq_true]
    intro hcomment
    rw [Kind.not_isComposite_of_isComment hcomment] at hkind
    cases hkind

/-- A detection yields what is found at the leaves from left to right and not suppressed. -/
theorem pending_detect :
  (detect active t).pending.map Pending.atRoot
    = (t.leaves.flatMap fun l => lookedAt active t l.id).filter
      fun p => !Suppression.isSuppressed (Suppression.spans t) p.offset p.ruleId
  := by
  have hvisits : ∀ v ∈ visits t active, (v.2.inspect t v.1).failure = none := by
    intro v hv
    obtain ⟨n, -, hv⟩ := List.mem_flatMap.mp hv
    obtain ⟨a, ha, rfl⟩ := List.mem_map.mp hv
    apply failure_inspect (hactive a ha)
  have hpending : (detect active t).pending
      = (sweep t [] (visits t active)).1.filter
        fun p => !Suppression.isSuppressed (Suppression.spans t) p.offset p.ruleId := rfl
  have hlooked : t.preOrder.flatMap (lookedAt active t)
      = ((visits t active).flatMap fun v => (v.2.inspect t v.1).findings.map
          fun f => (⟨v.1, v.2.id, f⟩ : Pending)).map Pending.atRoot := by
    rw [visits, List.flatMap_assoc, List.map_flatMap]
    congr 1
    funext n
    rw [List.flatMap_map, List.map_flatMap, lookedAt]
    congr 1
    funext a
    rw [List.map_map]
    rfl
  rw [hpending, sweep_of_failure_eq_none hvisits, ← flatMap_preOrder hactive h, hlooked,
    List.filter_map]
  rfl

end

/-! ### Reports -/

namespace Detection

/-- What is pending determines the violations, whatever the nodes. -/
theorem violations_congr {d d' : Detection} (htext : d.tree.text = d'.tree.text)
    (hpending : d.pending.map Pending.atRoot = d'.pending.map Pending.atRoot) (unstable : Bool) :
  d.violations unstable = d'.violations unstable
  := by
  have hviolations (c : Detection) : c.violations unstable
      = violationsOf c.tree.text unstable
        ((c.pending.map Pending.atRoot).mergeSort Pending.atOrBefore) := by
    have hsorted : c.sorted.map Pending.atRoot
        = (c.pending.map Pending.atRoot).mergeSort Pending.atOrBefore := by
      apply List.map_mergeSort
      intro p _ q _
      rfl
    rw [← hsorted, violationsOf, List.filterMap_map]
    rfl
  rw [hviolations d, hviolations d', htext, hpending]

/-- What is pending determines whether something can be corrected, whatever the nodes. -/
theorem correctable_eq_nil_iff {d : Detection} :
  d.correctable = [] ↔ ∀ p ∈ d.pending.map Pending.atRoot, p.correctable = false
  := by
  rw [correctable, List.filter_eq_nil_iff]
  constructor
  · intro h q hq
    obtain ⟨p, hp, rfl⟩ := List.mem_map.mp hq
    have hnot := h p hp
    rwa [Bool.not_eq_true] at hnot
  · intro h p hp
    rw [Bool.not_eq_true]
    apply h _ (List.mem_map_of_mem hp)

end Detection

end Fettle
