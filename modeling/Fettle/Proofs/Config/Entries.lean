import Fettle.Config.Settings
import Mathlib.Data.List.Induction
import Mathlib.Data.List.Sort
import Mathlib.Data.String.Basic

/-!
# Entries in ascending order of names

Tables and settings are lists of entries in ascending order of names.  Both are made by putting in
one entry after the other, each in its place (`insertEntry`).  Such a list is determined by what is
found in it under each name: `Ascending.eq_of_lookup_eq`.
-/

namespace Fettle

variable {α : Type} {e : String × α} {l l' : List (String × α)}

/-- The names of entries are in ascending order, each once. -/
def Ascending (l : List (String × α)) : Prop :=
  l.Pairwise fun e e' => e.1 < e'.1

instance (l : List (String × α)) : Decidable (Ascending l) :=
  inferInstanceAs (Decidable (l.Pairwise fun e e' => e.1 < e'.1))

theorem ascending_cons :
  Ascending (e :: l) ↔ (∀ e' ∈ l, e.1 < e'.1) ∧ Ascending l
  := List.pairwise_cons

/-! ### What is found under a name -/

theorem lookup_cons_eq (e : String × α) (l : List (String × α)) (name : String) :
  (e :: l).lookup name = if name = e.1 then some e.2 else l.lookup name
  := by
  obtain ⟨n, v⟩ := e
  rw [List.lookup_cons]
  by_cases h : name = n
  · simp [h]
  · simp [h, beq_eq_false_iff_ne.mpr h]

theorem mem_of_lookup {name : String} {v : α} (h : l.lookup name = some v) :
  (name, v) ∈ l
  := by
  obtain ⟨before, after, rfl, -⟩ := List.lookup_eq_some_iff.mp h
  simp

namespace Ascending

theorem lookup_of_mem (hl : Ascending l) (he : e ∈ l) :
  l.lookup e.1 = some e.2
  := by
  induction l with
  | nil => cases he
  | cons e' l ih =>
    obtain ⟨hfirst, hl⟩ := ascending_cons.mp hl
    rw [lookup_cons_eq]
    rcases List.mem_cons.mp he with rfl | he
    · rw [if_pos rfl]
    · rw [if_neg (hfirst e he).ne', ih hl he]

/-- Entries in ascending order are determined by what is found under each name. -/
theorem eq_of_lookup_eq (hl : Ascending l) (hl' : Ascending l')
    (h : ∀ name, l.lookup name = l'.lookup name) :
  l = l'
  := by
  have : Std.Asymm fun e e' : String × α => e.1 < e'.1 := ⟨fun _ _ => lt_asymm⟩
  apply List.Pairwise.eq_of_mem_iff hl hl'
  intro e
  constructor
  · intro he
    apply mem_of_lookup
    rw [← h, hl.lookup_of_mem he]
  · intro he
    apply mem_of_lookup
    rw [h, hl'.lookup_of_mem he]

end Ascending

/-! ### One more entry -/

/-- A list of entries in ascending order with one more in its place; it takes the place of an entry
of the same name. -/
def insertEntry (e : String × α) : List (String × α) → List (String × α)
  | [] => [e]
  | e' :: l =>
    if e.1 < e'.1 then e :: e' :: l
    else if e.1 = e'.1 then e :: l
    else e' :: insertEntry e l

theorem lookup_insertEntry (e : String × α) (l : List (String × α)) (name : String) :
  (insertEntry e l).lookup name = (e :: l).lookup name
  := by
  induction l with
  | nil => rfl
  | cons t l ih =>
    rw [insertEntry]
    split
    · rfl
    · split
      · rename_i heq
        simp only [lookup_cons_eq, heq]
        split <;> rfl
      · rename_i hne
        rw [lookup_cons_eq, ih, lookup_cons_eq, lookup_cons_eq, lookup_cons_eq]
        by_cases ht : name = t.1
        · rw [if_pos ht, if_neg fun he => hne (he.symm.trans ht), if_pos ht]
        · rw [if_neg ht, if_neg ht]

theorem mem_of_mem_insertEntry {e' : String × α} (h : e' ∈ insertEntry e l) :
  e' = e ∨ e' ∈ l
  := by
  induction l with
  | nil => exact .inl (List.mem_singleton.mp h)
  | cons t l ih =>
    rw [insertEntry] at h
    split at h
    · exact List.mem_cons.mp h
    · split at h
      · exact (List.mem_cons.mp h).imp_right (List.mem_cons_of_mem t)
      · rcases List.mem_cons.mp h with rfl | h
        · exact .inr List.mem_cons_self
        · exact (ih h).imp_right (List.mem_cons_of_mem t)

theorem Ascending.insertEntry (h : Ascending l) :
  Ascending (insertEntry e l)
  := by
  induction l with
  | nil => apply List.pairwise_singleton
  | cons t l ih =>
    obtain ⟨hfirst, hl⟩ := ascending_cons.mp h
    rw [Fettle.insertEntry]
    split
    · rename_i hlt
      apply ascending_cons.mpr ⟨_, h⟩
      intro e' he'
      rcases List.mem_cons.mp he' with rfl | he'
      · exact hlt
      · exact lt_trans hlt (hfirst e' he')
    · rename_i hnot
      split
      · rename_i heq
        apply ascending_cons.mpr ⟨_, hl⟩
        rwa [heq]
      · rename_i hne
        apply ascending_cons.mpr ⟨_, ih hl⟩
        intro e' he'
        rcases mem_of_mem_insertEntry he' with rfl | he'
        · exact lt_of_le_of_ne (not_lt.mp hnot) (Ne.symm hne)
        · exact hfirst e' he'

/-! ### Tables -/

theorem Table.insert_eq (key : String) (v : Value) (t : Table) :
  Table.insert key v t = insertEntry (key, v) t
  := by
  induction t with
  | nil => rfl
  | cons e t ih => rw [Table.insert, insertEntry, ih]

theorem Table.mem_of_mem_ofList {es : List (String × Value)} {e : String × Value}
    (h : e ∈ Table.ofList es) :
  e ∈ es
  := by
  induction es using List.reverseRecOn with
  | nil => cases h
  | append_singleton es e' ih =>
    rw [Table.ofList, List.foldl_concat, Table.insert_eq] at h
    rw [List.mem_append, List.mem_singleton]
    exact (mem_of_mem_insertEntry h).symm.imp_left ih

theorem Table.ascending_ofList (es : List (String × Value)) :
  Ascending (Table.ofList es)
  := by
  induction es using List.reverseRecOn with
  | nil => apply List.Pairwise.nil
  | append_singleton es e ih =>
    rw [Table.ofList, List.foldl_concat, Table.insert_eq]
    apply ih.insertEntry

/-! ### Settings -/

namespace Settings

theorem insertValue_eq (e : String × PropertyValue) (l : List (String × PropertyValue)) :
  insertValue e l = insertEntry e l
  := by
  induction l with
  | nil => rfl
  | cons e' l ih => rw [insertValue, insertEntry, ih]

theorem lookup_ofList (vs : List (String × PropertyValue)) (name : String) :
  (ofList vs).values.lookup name = vs.lookup name
  := by
  induction vs with
  | nil => rfl
  | cons e vs ih =>
    change (insertValue e (ofList vs).values).lookup name = _
    rw [insertValue_eq, lookup_insertEntry, lookup_cons_eq, lookup_cons_eq, ih]

theorem ascending_ofList (vs : List (String × PropertyValue)) :
  Ascending (ofList vs).values
  := by
  induction vs with
  | nil => apply List.Pairwise.nil
  | cons e vs ih =>
    change Ascending (insertValue e (ofList vs).values)
    rw [insertValue_eq]
    apply ih.insertEntry

end Settings

end Fettle
