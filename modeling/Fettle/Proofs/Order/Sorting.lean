import Mathlib.Data.List.Nodup
import Mathlib.Tactic.Use

/-!
# Stable sorting

`StableSort le l m` says that `m` is `l` in ascending order, where entries that stand equal in the
order are left in the order in which they stand in `l`.  There is exactly one such list
(`stableSort_mergeSort`, `StableSort.unique`).  Sorting commutes with leaving entries out
(`filter_mergeSort`) and with a partial map that keeps the order (`StableSort.filterMap`).
-/

namespace Fettle

variable {α β : Type}

/-- Whether two entries stand equal in an order. -/
def tied (le : α → α → Bool) (x a : α) : Bool :=
  le a x && le x a

/-- A list in ascending order, in which entries that stand equal are in the order of another. -/
structure StableSort (le : α → α → Bool) (l m : List α) : Prop where
  perm : m.Perm l
  ascending : m.Pairwise fun a b => le a b = true
  stable (x : α) : m.filter (tied le x) = l.filter (tied le x)

/-- An order in which two entries can always be compared. -/
structure IsTotalPreorder (le : α → α → Bool) : Prop where
  trans (a b c : α) : le a b = true → le b c = true → le a c = true
  total (a b : α) : (le a b || le b a) = true

section

variable {le : α → α → Bool} {l m m' : List α}

theorem tied_self (hle : IsTotalPreorder le) (a : α) :
  tied le a a = true
  := by
  have h := hle.total a a
  rw [Bool.or_self] at h
  simp [tied, h]

theorem tied_comm (a b : α) :
  tied le a b = tied le b a
  := Bool.and_comm ..

theorem tied_trans (hle : IsTotalPreorder le) {a b c : α} (hab : tied le a b = true)
    (hbc : tied le b c = true) :
  tied le a c = true
  := by
  simp only [tied, Bool.and_eq_true] at hab hbc ⊢
  exact ⟨hle.trans c b a hbc.1 hab.1, hle.trans a b c hab.2 hbc.2⟩

/-- The entries that stand equal to one of those entries. -/
theorem tied_congr (hle : IsTotalPreorder le) {a b : α} (hab : tied le a b = true) :
  tied le b = tied le a
  := by
  funext c
  rw [Bool.eq_iff_iff]
  constructor
  · intro hbc
    exact tied_trans hle hab hbc
  · intro hac
    rw [tied_comm] at hab
    exact tied_trans hle hab hac

/-- Merge sort is stable. -/
theorem stableSort_mergeSort (hle : IsTotalPreorder le) (l : List α) :
  StableSort le l (l.mergeSort le)
  where
  perm := List.mergeSort_perm l le
  ascending := List.pairwise_mergeSort hle.trans hle.total l
  stable x := by
    have hascending : (l.filter (tied le x)).Pairwise fun a b => le a b = true := by
      apply List.pairwise_of_forall_mem_list
      intro a ha b hb
      have hax := (List.mem_filter.mp ha).2
      have hbx := (List.mem_filter.mp hb).2
      simp only [tied, Bool.and_eq_true] at hax hbx
      exact hle.trans a x b hax.1 hbx.2
    have hsub := List.sublist_mergeSort hle.trans hle.total hascending List.filter_sublist
    have hsub' := hsub.filter (tied le x)
    rw [List.filter_filter] at hsub'
    simp only [Bool.and_self] at hsub'
    apply Eq.symm
    apply hsub'.eq_of_length
    apply List.Perm.length_eq
    apply ((List.mergeSort_perm l le).filter _).symm

namespace StableSort

theorem unique (hle : IsTotalPreorder le) (h : StableSort le l m) (h' : StableSort le l m') :
  m = m'
  := by
  have hstable (x : α) : m.filter (tied le x) = m'.filter (tied le x) :=
    (h.stable x).trans (h'.stable x).symm
  have hperm := h.perm.trans h'.perm.symm
  have hm := h.ascending
  have hm' := h'.ascending
  clear h h'
  induction m generalizing m' with
  | nil => exact (List.nil_perm.mp hperm).symm
  | cons a m ih =>
    cases m' with
    | nil => exact List.perm_nil.mp hperm
    | cons b m' =>
      obtain ⟨ha, hrest⟩ := List.pairwise_cons.mp hm
      obtain ⟨hb, hrest'⟩ := List.pairwise_cons.mp hm'
      have hself := tied_self hle a
      -- The first entries stand equal, as each is among the others, so they are both the first
      -- of those that stand equal to them.
      have hab : tied le a b = true := by
        rcases List.mem_cons.mp (hperm.mem_iff.mpr List.mem_cons_self) with rfl | hbm
        · exact hself
        · rcases List.mem_cons.mp (hperm.mem_iff.mp List.mem_cons_self) with rfl | ham
          · exact hself
          · simp [tied, ha b hbm, hb a ham]
      have hfirst := hstable a
      rw [List.filter_cons_of_pos hself, List.filter_cons_of_pos hab] at hfirst
      obtain ⟨rfl, -⟩ := List.cons.inj hfirst
      rw [List.cons.injEq]
      refine ⟨rfl, ih (fun x => ?_) hperm.cons_inv hrest hrest'⟩
      have hx := hstable x
      rw [List.filter_cons, List.filter_cons] at hx
      split at hx
      · exact (List.cons.inj hx).2
      · exact hx

theorem filter (h : StableSort le l m) (p : α → Bool) :
  StableSort le (l.filter p) (m.filter p)
  where
  perm := h.perm.filter p
  ascending := h.ascending.filter p
  stable x := by
    rw [List.filter_comm, h.stable x, List.filter_comm]

/-- Sorting commutes with a partial map under which the order of those entries that it is defined
for stays what it is. -/
theorem filterMap {le' : β → β → Bool} (hle' : IsTotalPreorder le') {f : α → Option β}
    (hf : ∀ a b x y, f a = some x → f b = some y → le' x y = le a b) (h : StableSort le l m) :
  StableSort le' (l.filterMap f) (m.filterMap f)
  where
  perm := h.perm.filterMap f
  ascending := by
    apply h.ascending.filterMap f
    intro a b hab x hx y hy
    rw [hf a b x y hx hy]
    exact hab
  stable x := by
    -- What is mapped to something that stands equal to `x` is what stands equal to one entry that
    -- is mapped so, if there is any.
    by_cases hex : ∃ a ∈ l, ∃ y, f a = some y ∧ tied le' x y = true
    · obtain ⟨a, -, y, hy, hxy⟩ := hex
      have hclass (k : List α) :
          (k.filterMap f).filter (tied le' x) = (k.filter (tied le a)).filterMap f := by
        rw [List.filter_filterMap, List.filterMap_filter]
        congr 1
        funext b
        cases hb : f b with
        | none => simp
        | some z =>
          have hyz : tied le' y z = tied le a b := by
            rw [tied, tied, hf b a z y hb hy, hf a b y z hy hb]
          rw [← tied_congr hle' hxy, Option.filter_some, hyz]
      rw [hclass, hclass, h.stable]
    · have hnone (k : List α) (hk : ∀ a ∈ k, a ∈ l) :
          (k.filterMap f).filter (tied le' x) = [] := by
        rw [List.filter_eq_nil_iff]
        intro y hy hxy
        obtain ⟨a, ha, hay⟩ := List.mem_filterMap.mp hy
        exact hex ⟨a, hk a ha, y, hay, hxy⟩
      rw [hnone l fun _ ha => ha, hnone m fun a ha => h.perm.mem_iff.mp ha]

end StableSort

/-- Entries can be left out before sorting or after it. -/
theorem filter_mergeSort (hle : IsTotalPreorder le) (p : α → Bool) (l : List α) :
  (l.mergeSort le).filter p = (l.filter p).mergeSort le
  := by
  have hfilter := (stableSort_mergeSort hle l).filter p
  exact hfilter.unique hle (stableSort_mergeSort hle _)

end

end Fettle
