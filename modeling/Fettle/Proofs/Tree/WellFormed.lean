import Fettle.Proofs.Tree.Intact

/-!
# Well-formed nodes

A node `Fits` if it holds what its kind asks for: children if the kind is composite and otherwise
some text, which is blank if the kind is white space.  A new node is `WellFormed` if all nodes in
it fit, at any depth.  The fault of a new node is that of the first node in pre-order that does
not fit (`Node.fault?_eq_some_iff`), and there is none exactly if the new node is well formed
(`Node.fault?_eq_none_iff`).
-/

namespace Fettle

variable {ι : Type}

namespace Node

/-- A node holds what its kind asks for. -/
def Fits : Node ι → Prop
  | leaf _ k s =>
    k.isComposite = false ∧ s ≠ "" ∧ (k = .whitespace → ∀ c ∈ s.toList, Text.isBlank c = true)
  | branch _ k _ _ => k.isComposite = true

/-- A node does not hold what its kind asks for, and why. -/
inductive Misfits : Node ι → Fault → Prop where
  | compositeKindAsLeaf {i : ι} {k : Kind} {s : String} (hk : k.isComposite = true) :
    Misfits (leaf i k s) (.compositeKindAsLeaf k)
  | emptyLeaf {i : ι} {k : Kind} (hk : k.isComposite = false) :
    Misfits (leaf i k "") (.emptyLeaf k)
  | invalidWhitespace {i : ι} {s : String} {c : Char} (hc : c ∈ s.toList)
    (hblank : Text.isBlank c = false) : Misfits (leaf i .whitespace s) (.invalidWhitespace s)
  | leafKindAsComposite {i : ι} {k : Kind} {l : Option String} {cs : Forest ι}
    (hk : k.isComposite = false) : Misfits (branch i k l cs) (.leafKindAsComposite k)

/-- All nodes of a tree hold what their kinds ask for. -/
def WellFormed (n : Node ι) : Prop :=
  ∀ m ∈ n.toForest.nodes, m.Fits

/-- The first node of a tree, in pre-order, that does not hold what its kind asks for, and why. -/
def FirstMisfits (n : Node ι) (fault : Fault) : Prop :=
  ∃ before m after, n.toForest.nodes = before ++ m :: after ∧ (∀ m' ∈ before, m'.Fits)
    ∧ m.Misfits fault

/-- What is wrong with a node by itself, whatever is inside it. -/
def ownFault? : Node ι → Option Fault
  | leaf _ k s => leafFault? k s
  | branch _ k _ _ => branchFault? k

theorem ownFault?_eq_none_iff {n : Node ι} :
  n.ownFault? = none ↔ n.Fits
  := by
  cases n with
  | leaf i k s => rw [ownFault?, Fits, leafFault?_eq_none_iff, List.all_eq_true]
  | branch i k l cs => rw [ownFault?, Fits, branchFault?_eq_none_iff]

theorem ownFault?_eq_some_iff {n : Node ι} {fault : Fault} :
  n.ownFault? = some fault ↔ n.Misfits fault
  := by
  constructor
  · intro h
    cases n with
    | leaf i k s =>
      rw [ownFault?, leafFault?] at h
      split at h
      · rename_i hk
        obtain rfl := Option.some.inj h
        exact .compositeKindAsLeaf hk
      · rename_i hk
        rw [Bool.not_eq_true] at hk
        split at h
        · rename_i hs
          obtain rfl := Option.some.inj h
          subst hs
          exact .emptyLeaf hk
        · split at h
          · rename_i hspace
            obtain rfl := Option.some.inj h
            obtain ⟨rfl, hall⟩ := hspace
            rw [List.all_eq_true] at hall
            push Not at hall
            obtain ⟨c, hc, hblank⟩ := hall
            exact .invalidWhitespace hc (Bool.not_eq_true _ ▸ hblank)
          · cases h
    | branch i k l cs =>
      rw [ownFault?, branchFault?] at h
      split at h
      · cases h
      · rename_i hk
        obtain rfl := Option.some.inj h
        exact .leafKindAsComposite (Bool.not_eq_true _ ▸ hk)
  · intro h
    cases h with
    | compositeKindAsLeaf hk => simp [ownFault?, leafFault?, hk]
    | emptyLeaf hk => simp [ownFault?, leafFault?, hk]
    | @invalidWhitespace i s c hc hblank =>
      have hs : s ≠ "" := by
        rintro rfl
        cases hc
      have hall : ¬ s.toList.all Text.isBlank = true := by
        intro hall
        rw [List.all_eq_true.mp hall c hc] at hblank
        cases hblank
      rw [ownFault?, leafFault?, if_neg (by decide), if_neg hs, if_pos ⟨rfl, hall⟩]
    | leafKindAsComposite hk => simp [ownFault?, branchFault?, hk]

end Node

/-- The fault of a forest is that of the first node, in pre-order, that has one by itself. -/
theorem Forest.fault?_eq_findSome? (f : Forest ι) :
  f.fault? = f.nodes.findSome? Node.ownFault?
  := by
  induction f with
  | nil => rfl
  | leaf i k s rest ih =>
    rw [fault?, nodes, List.findSome?_cons, ih, Node.ownFault?]
    cases leafFault? k s <;> rfl
  | branch i k l cs rest ihc ih =>
    rw [fault?, nodes, List.findSome?_cons, List.findSome?_append, ihc, ih, Node.ownFault?]
    cases branchFault? k <;> rfl

namespace Node

/-- Nothing is wrong with a tree exactly if it is well formed. -/
theorem fault?_eq_none_iff {n : Node ι} :
  n.fault? = none ↔ n.WellFormed
  := by
  rw [fault?, Forest.fault?_eq_findSome?, List.findSome?_eq_none_iff, WellFormed]
  simp only [ownFault?_eq_none_iff]

/-- The fault of a tree is that of its first node that does not hold what its kind asks for. -/
theorem fault?_eq_some_iff {n : Node ι} {fault : Fault} :
  n.fault? = some fault ↔ n.FirstMisfits fault
  := by
  rw [fault?, Forest.fault?_eq_findSome?, List.findSome?_eq_some_iff, FirstMisfits]
  simp only [ownFault?_eq_none_iff, ownFault?_eq_some_iff]
  constructor
  · rintro ⟨before, m, after, hnodes, hm, hbefore⟩
    exact ⟨before, m, after, hnodes, hbefore, hm⟩
  · rintro ⟨before, m, after, hnodes, hbefore, hm⟩
    exact ⟨before, m, after, hnodes, hm, hbefore⟩

end Node

end Fettle
