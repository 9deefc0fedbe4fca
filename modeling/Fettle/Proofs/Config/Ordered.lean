import Fettle.Config.Basic
import Fettle.Proofs.Config.Entries

/-!
# Configurations that are read

All tables of a configuration that has been read are in ascending order (`Config.ordered_of_parse`),
as are those inside the values of its properties (`Value.Ordered`).  For a document that holds since
every item of it stands for such values (`Toml.Item.Ordered.toValue`), which is so at the start and
stays so with every line.
-/

namespace Fettle

/-- All tables in a value are in ascending order. -/
inductive Value.Ordered : Value → Prop where
  | string (s : String) : Ordered (.string s)
  | integer (i : Int64) : Ordered (.integer i)
  | float (f : Float) : Ordered (.float f)
  | boolean (b : Bool) : Ordered (.boolean b)
  | datetime (d : Datetime) : Ordered (.datetime d)
  | array {items : List Value} (ordered : ∀ v ∈ items, v.Ordered) : Ordered (.array items)
  | table {es : List (String × Value)} (ascending : Ascending es)
      (ordered : ∀ e ∈ es, e.2.Ordered) : Ordered (.table es)

namespace Toml

/-- All tables in the values of an item are in ascending order. -/
inductive Item.Ordered : Item → Prop where
  | value {v : Value} (ordered : v.Ordered) : Ordered (.value v)
  | table {origin : Origin} {es : Entries} (ordered : ∀ e ∈ es, e.2.Ordered) :
    Ordered (.table origin es)
  | tables {ts : List Entries} (ordered : ∀ es ∈ ts, ∀ e ∈ es, e.2.Ordered) :
    Ordered (.tables ts)

/-- All tables in the values of the entries of a table are in ascending order. -/
def Entries.Ordered (es : Entries) : Prop :=
  ∀ e ∈ es, e.2.Ordered

/-! ### Items as values -/

theorem entryValues_eq_map (es : Entries) :
  entryValues es = es.map fun e => (e.1, e.2.toValue)
  := by
  induction es with
  | nil => rfl
  | cons e es ih => rw [entryValues, ih, List.map_cons]

theorem tableValues_eq_map (ts : List Entries) :
  tableValues ts = ts.map fun es => .table (Table.ofList (entryValues es))
  := by
  induction ts with
  | nil => rfl
  | cons es ts ih => rw [tableValues, ih, List.map_cons]

/-- Entries make a table in ascending order. -/
theorem ordered_ofList {es : Entries} (h : ∀ e ∈ es, e.2.toValue.Ordered) :
  Value.Ordered (.table (Table.ofList (entryValues es)))
  := by
  apply Value.Ordered.table (Table.ascending_ofList _)
  intro e he
  have hmem := Table.mem_of_mem_ofList he
  rw [entryValues_eq_map] at hmem
  obtain ⟨e', he', rfl⟩ := List.mem_map.mp hmem
  apply h e' he'

theorem Item.Ordered.toValue {i : Item} (h : i.Ordered) :
  i.toValue.Ordered
  := by
  induction h with
  | value ordered =>
    rw [Item.toValue]
    exact ordered
  | table _ ih =>
    rw [Item.toValue]
    apply ordered_ofList ih
  | tables _ ih =>
    rw [Item.toValue, tableValues_eq_map]
    apply Value.Ordered.array
    intro v hv
    obtain ⟨es, hes, rfl⟩ := List.mem_map.mp (List.mem_reverse.mp hv)
    apply ordered_ofList (ih es hes)

namespace Entries.Ordered

theorem toTable {es : Entries} (h : es.Ordered) :
  Value.Ordered (.table (Table.ofList (entryValues es)))
  := by
  apply ordered_ofList
  intro e he
  apply (h e he).toValue

/-! ### Changing entries -/

theorem nil :
  Entries.Ordered []
  := by
  intro e he
  cases he

theorem cons {k : String} {i : Item} {es : Entries} (hi : i.Ordered) (h : es.Ordered) :
  Entries.Ordered ((k, i) :: es)
  := List.forall_mem_cons.mpr ⟨hi, h⟩

theorem of_lookup {k : String} {i : Item} {es : Entries} (h : es.Ordered)
    (hi : es.lookup k = some i) :
  i.Ordered
  := h (k, i) (mem_of_lookup hi)

theorem set {k : String} {i : Item} {es : Entries} (hi : i.Ordered) (h : es.Ordered) :
  (es.set k i).Ordered
  := by
  induction es with
  | nil => apply cons hi nil
  | cons e es ih =>
    obtain ⟨he, hes⟩ := List.forall_mem_cons.mp h
    rw [Entries.set]
    split
    · apply cons hi hes
    · apply cons he (ih hes)

/-- A change that leaves the table at a path ordered leaves the whole table ordered. -/
theorem atPath {made : Origin} {f : Origin → Entries → Option Entries}
    (hf : ∀ origin es es', es.Ordered → f origin es = some es' → es'.Ordered)
    {path : List String} {origin : Origin} {es es' : Entries} (hes : es.Ordered)
    (h : Toml.atPath made f path origin es = some es') :
  es'.Ordered
  := by
  induction path generalizing origin es es' with
  | nil => exact hf origin es es' hes h
  | cons k path ih =>
    rw [Toml.atPath] at h
    split at h
    · obtain ⟨sub, hsub, rfl⟩ := Option.map_eq_some_iff.mp h
      apply set _ hes
      apply Item.Ordered.table (ih nil hsub)
    · cases h
    · rename_i hitem
      cases of_lookup hes hitem with
      | table ordered =>
        split at h
        · cases h
        · obtain ⟨sub, hsub, rfl⟩ := Option.map_eq_some_iff.mp h
          apply set _ hes
          apply Item.Ordered.table (ih ordered hsub)
    · cases h
    · rename_i hitem
      cases of_lookup hes hitem with
      | tables ordered =>
        obtain ⟨hlatest, hearlier⟩ := List.forall_mem_cons.mp ordered
        obtain ⟨sub, hsub, rfl⟩ := Option.map_eq_some_iff.mp h
        apply set _ hes
        apply Item.Ordered.tables
        exact List.forall_mem_cons.mpr ⟨ih hlatest hsub, hearlier⟩

variable {es es' : Entries} {key : String} {v : Value}

theorem setDotted {path : List String} (hes : es.Ordered) (hv : v.Ordered)
    (h : Toml.setDotted path key v es = some es') :
  es'.Ordered
  := by
  apply atPath _ hes h
  intro origin es es' hes h
  split at h
  · cases h
  · split at h
    · obtain rfl := Option.some.inj h
      apply set (Item.Ordered.value hv) hes
    · cases h

theorem setUnder {header path : List String} (hes : es.Ordered) (hv : v.Ordered)
    (h : Toml.setUnder header path key v es = some es') :
  es'.Ordered
  := by
  apply atPath _ hes h
  intro origin es es' hes h
  apply setDotted hes hv h

theorem openTable {path : List String} (hes : es.Ordered)
    (h : Toml.openTable path key es = some es') :
  es'.Ordered
  := by
  apply atPath _ hes h
  intro origin es es' hes h
  split at h
  · obtain rfl := Option.some.inj h
    apply set (Item.Ordered.table nil) hes
  · rename_i hitem
    obtain rfl := Option.some.inj h
    cases of_lookup hes hitem with
    | table ordered => apply set (Item.Ordered.table ordered) hes
  · cases h

theorem openArrayTable {path : List String} (hes : es.Ordered)
    (h : Toml.openArrayTable path key es = some es') :
  es'.Ordered
  := by
  apply atPath _ hes h
  intro origin es es' hes h
  split at h
  · obtain rfl := Option.some.inj h
    apply set _ hes
    apply Item.Ordered.tables
    exact List.forall_mem_singleton.mpr nil
  · rename_i hitem
    obtain rfl := Option.some.inj h
    cases of_lookup hes hitem with
    | tables ordered =>
      apply set _ hes
      apply Item.Ordered.tables
      exact List.forall_mem_cons.mpr ⟨nil, ordered⟩
  · cases h

end Entries.Ordered

/-! ### Reading values -/

theorem ordered_of_integerIn {base : Nat} {isDigit : Char → Bool} {s rest : List Char} {v : Value}
    (h : integerIn base isDigit s = some (v, rest)) :
  v.Ordered
  := by
  obtain ⟨⟨ds, rest'⟩, -, h⟩ := Option.bind_eq_some_iff.mp h
  obtain ⟨i, -, h⟩ := Option.bind_eq_some_iff.mp h
  cases h
  apply Value.Ordered.integer

theorem ordered_of_decimal {negative : Bool} {s rest : List Char} {v : Value}
    (h : decimal negative s = some (v, rest)) :
  v.Ordered
  := by
  obtain ⟨⟨whole, rest₁⟩, -, h⟩ := Option.bind_eq_some_iff.mp h
  obtain ⟨⟨fraction, rest₂⟩, -, h⟩ := Option.bind_eq_some_iff.mp h
  obtain ⟨⟨exponent, rest₃⟩, -, h⟩ := Option.bind_eq_some_iff.mp h
  dsimp only at h
  split at h
  · obtain ⟨i, -, h⟩ := Option.bind_eq_some_iff.mp h
    cases h
    apply Value.Ordered.integer
  · obtain ⟨w, hw, h⟩ := Option.bind_eq_some_iff.mp h
    cases h
    rw [finite?] at hw
    split at hw
    · cases hw
    · obtain rfl := Option.some.inj hw
      apply Value.Ordered.float

theorem ordered_of_number {s rest : List Char} {v : Value} (h : number s = some (v, rest)) :
  v.Ordered
  := by
  rw [number.eq_def] at h
  split at h
  · apply ordered_of_integerIn h
  · apply ordered_of_integerIn h
  · apply ordered_of_integerIn h
  · rcases Option.or_eq_some_iff.mp h with h | ⟨-, h⟩
    · rw [special.eq_def] at h
      split at h
      · cases h
        apply Value.Ordered.float
      · cases h
        apply Value.Ordered.float
      · cases h
    · apply ordered_of_decimal h

/-- What is read in some number of steps is ordered. -/
structure ReadsOrdered (n : Nat) : Prop where
  value : ∀ {depth s v rest}, Toml.value n depth s = some (v, rest) → v.Ordered
  arrayItems : ∀ {depth s vs rest}, Toml.arrayItems n depth s = some (vs, rest) →
    ∀ v ∈ vs, v.Ordered
  inlinePairs : ∀ {depth es s es' rest}, es.Ordered →
    Toml.inlinePairs n depth es s = some (es', rest) → es'.Ordered

namespace ReadsOrdered

variable {n depth : Nat} {s rest : List Char}

theorem value_succ (hn : ReadsOrdered n) {v : Value}
    (h : Toml.value (n + 1) depth s = some (v, rest)) :
  v.Ordered
  := by
  cases s with
  | nil => cases h
  | cons c s =>
    rw [Toml.value] at h
    split at h
    · -- a string
      obtain ⟨r, -, h⟩ := Option.map_eq_some_iff.mp h
      cases h
      apply Value.Ordered.string
    split at h
    · -- an array
      split at h
      · obtain ⟨r, hr, h⟩ := Option.map_eq_some_iff.mp h
        cases h
        apply Value.Ordered.array (hn.arrayItems hr)
      · cases h
    split at h
    · -- a table between braces, which may be empty
      split at h
      · split at h
        · cases h
          apply Value.Ordered.table List.Pairwise.nil
          intro e he
          cases he
        · obtain ⟨r, hr, h⟩ := Option.map_eq_some_iff.mp h
          cases h
          apply (hn.inlinePairs Entries.Ordered.nil hr).toTable
      · cases h
    split at h
    · cases h
      apply Value.Ordered.boolean
    · cases h
      apply Value.Ordered.boolean
    · split at h
      · cases h
        apply Value.Ordered.datetime
      · apply ordered_of_number h

theorem arrayItems_succ (hn : ReadsOrdered n) {vs : List Value}
    (h : Toml.arrayItems (n + 1) depth s = some (vs, rest)) :
  ∀ v ∈ vs, v.Ordered
  := by
  cases s with
  | nil => cases h
  | cons c s =>
    rw [Toml.arrayItems] at h
    split at h
    · cases h
      intro v hv
      cases hv
    · obtain ⟨⟨v, rest'⟩, hread, h⟩ := Option.bind_eq_some_iff.mp h
      have hv : v.Ordered := hn.value hread
      dsimp only at h
      split at h
      · obtain ⟨⟨vs', rest''⟩, hvs, h⟩ := Option.bind_eq_some_iff.mp h
        cases h
        exact List.forall_mem_cons.mpr ⟨hv, hn.arrayItems hvs⟩
      · cases h
        exact List.forall_mem_singleton.mpr hv
      · cases h

theorem inlinePairs_succ (hn : ReadsOrdered n) {es es' : Entries} (hes : es.Ordered)
    (h : Toml.inlinePairs (n + 1) depth es s = some (es', rest)) :
  es'.Ordered
  := by
  rw [Toml.inlinePairs] at h
  obtain ⟨⟨⟨path, last⟩, rest₁⟩, -, h⟩ := Option.bind_eq_some_iff.mp h
  obtain ⟨rest₂, -, h⟩ := Option.bind_eq_some_iff.mp h
  obtain ⟨⟨v, rest₃⟩, hv, h⟩ := Option.bind_eq_some_iff.mp h
  obtain ⟨es₁, hset, h⟩ := Option.bind_eq_some_iff.mp h
  have hes₁ : Entries.Ordered es₁ := hes.setDotted (hn.value hv) hset
  split at h
  · apply hn.inlinePairs hes₁ h
  · cases h
    exact hes₁
  · cases h

end ReadsOrdered

theorem readsOrdered (n : Nat) :
  ReadsOrdered n
  := by
  induction n with
  | zero =>
    constructor
    · intro depth s v rest h
      cases h
    · intro depth s vs rest h
      cases h
    · intro depth es s es' rest hes h
      cases h
  | succ n ih =>
    exact {
      value := ih.value_succ
      arrayItems := ih.arrayItems_succ
      inlinePairs := ih.inlinePairs_succ }

/-! ### Reading documents -/

theorem ordered_of_line {p p' : Progress} {s rest : List Char} (hp : p.entries.Ordered)
    (h : line p s = some (p', rest)) :
  p'.entries.Ordered
  := by
  rw [line.eq_def] at h
  split at h
  · cases h
  · obtain ⟨r, -, h⟩ := Option.map_eq_some_iff.mp h
    cases h
    exact hp
  · cases h
    exact hp
  · cases h
    exact hp
  · obtain ⟨⟨⟨path, last⟩, rest₁⟩, -, h⟩ := Option.bind_eq_some_iff.mp h
    obtain ⟨rest₂, -, h⟩ := Option.bind_eq_some_iff.mp h
    obtain ⟨rest₃, -, h⟩ := Option.bind_eq_some_iff.mp h
    obtain ⟨rest₄, -, h⟩ := Option.bind_eq_some_iff.mp h
    obtain ⟨es, hes, h⟩ := Option.bind_eq_some_iff.mp h
    cases h
    apply hp.openArrayTable hes
  · obtain ⟨⟨⟨path, last⟩, rest₁⟩, -, h⟩ := Option.bind_eq_some_iff.mp h
    obtain ⟨rest₂, -, h⟩ := Option.bind_eq_some_iff.mp h
    obtain ⟨rest₃, -, h⟩ := Option.bind_eq_some_iff.mp h
    obtain ⟨es, hes, h⟩ := Option.bind_eq_some_iff.mp h
    cases h
    apply hp.openTable hes
  · obtain ⟨⟨⟨path, last⟩, rest₁⟩, -, h⟩ := Option.bind_eq_some_iff.mp h
    obtain ⟨rest₂, -, h⟩ := Option.bind_eq_some_iff.mp h
    obtain ⟨⟨v, rest₃⟩, hv, h⟩ := Option.bind_eq_some_iff.mp h
    obtain ⟨rest₄, -, h⟩ := Option.bind_eq_some_iff.mp h
    obtain ⟨es, hes, h⟩ := Option.bind_eq_some_iff.mp h
    cases h
    apply hp.setUnder ((readsOrdered _).value hv) hes

theorem ordered_of_documentLines {n : Nat} {p : Progress} {s : List Char} {es : Entries}
    (hp : p.entries.Ordered) (h : documentLines n p s = some es) :
  es.Ordered
  := by
  induction n generalizing p s with
  | zero =>
    rw [documentLines] at h
    split at h
    · obtain rfl := Option.some.inj h
      exact hp
    · cases h
  | succ n ih =>
    rw [documentLines] at h
    split at h
    · obtain rfl := Option.some.inj h
      exact hp
    · dsimp only at h
      split at h
      · cases h
      · rename_i hline
        apply ih (ordered_of_line hp hline) h

/-- The table of a document is ordered. -/
theorem ordered_of_parse? {text : String} {t : Table} (h : parse? text = some t) :
  Value.Ordered (.table t)
  := by
  obtain ⟨es, hes, rfl⟩ := Option.map_eq_some_iff.mp h
  apply Entries.Ordered.toTable
  apply ordered_of_documentLines _ hes
  apply Entries.Ordered.nil

end Toml

/-! ### Configurations -/

namespace Config

/-- All tables of a configuration are in ascending order. -/
structure Ordered (c : Config) : Prop where
  properties : Ascending c.properties
  overrides : ∀ o ∈ c.overrides, Ascending o.properties

variable {v : Value} {members : Table} {name : String}

theorem ascending_of_entries? {t : Table} (hv : v.Ordered) (h : entries? v = some t) :
  Ascending t
  := by
  cases hv with
  | table ascending => exact Option.some.inj h ▸ ascending
  | datetime d =>
    obtain rfl := Option.some.inj h
    apply List.pairwise_singleton
  | _ => cases h

/-- The members of a record are ordered, whichever way it is written. -/
theorem ordered_of_members? {fields : List String} (hv : v.Ordered)
    (h : members? fields v = some members) :
  ∀ e ∈ members, e.2.Ordered
  := by
  cases hv with
  | array ordered =>
    obtain rfl := Option.some.inj h
    intro e he
    apply ordered e.2 (List.of_mem_zip he).2
  | table _ ordered => exact Option.some.inj h ▸ ordered
  | datetime d =>
    obtain rfl := Option.some.inj h
    exact List.forall_mem_singleton.mpr (Value.Ordered.string _)
  | _ => cases h

/-- What is read from an ordered field, or its default, has a property if what is read from ordered
values has. -/
theorem of_field? {α : Type} {P : α → Prop} {read : Value → Option α} {default a : α}
    (hread : ∀ v a, v.Ordered → read v = some a → P a) (hdefault : P default)
    (hmembers : ∀ e ∈ members, e.2.Ordered) (h : field? read default members name = some a) :
  P a
  := by
  rw [field?] at h
  split at h
  · obtain rfl := Option.some.inj h
    exact hdefault
  · rename_i v hv
    apply hread v a _ h
    apply hmembers _ (mem_of_lookup hv)

theorem of_list? {α : Type} {P : α → Prop} {read : Value → Option α} {as : List α}
    (hread : ∀ v a, v.Ordered → read v = some a → P a) (hv : v.Ordered)
    (h : list? read v = some as) :
  ∀ a ∈ as, P a
  := by
  cases hv with
  | @array items ordered =>
    rw [list?] at h
    induction items generalizing as with
    | nil =>
      rw [List.mapM_nil] at h
      obtain rfl := Option.some.inj h
      intro a ha
      cases ha
    | cons v items ih =>
      obtain ⟨hv, hitems⟩ := List.forall_mem_cons.mp ordered
      rw [List.mapM_cons] at h
      obtain ⟨a, ha, h⟩ := Option.bind_eq_some_iff.mp h
      obtain ⟨as', has, h⟩ := Option.bind_eq_some_iff.mp h
      obtain rfl := Option.some.inj h
      apply List.forall_mem_cons.mpr ⟨hread v a hv ha, ih hitems has⟩
  | _ => cases h

theorem ascending_of_override? {o : Override} (hv : v.Ordered) (h : override? v = some o) :
  Ascending o.properties
  := by
  obtain ⟨ms, hms, h⟩ := Option.bind_eq_some_iff.mp h
  obtain ⟨files, -, h⟩ := Option.bind_eq_some_iff.mp h
  obtain ⟨properties, hproperties, h⟩ := Option.bind_eq_some_iff.mp h
  obtain rfl := Option.some.inj h
  apply of_field? _ List.Pairwise.nil (ordered_of_members? hv hms) hproperties
  intro v t
  apply ascending_of_entries?

theorem ordered_of_ofTable? {defaultPasses : Nat} {t : Table} {c : Config}
    (ht : Value.Ordered (.table t)) (h : ofTable? defaultPasses t = some c) :
  c.Ordered
  := by
  cases ht with
  | table _ ordered =>
    obtain ⟨⟨maxPasses, timeout⟩, -, h⟩ := Option.bind_eq_some_iff.mp h
    obtain ⟨properties, hproperties, h⟩ := Option.bind_eq_some_iff.mp h
    obtain ⟨overrides, hoverrides, h⟩ := Option.bind_eq_some_iff.mp h
    obtain rfl := Option.some.inj h
    have hread (v : Value) (os : List Override) (hv : v.Ordered)
        (hos : list? override? v = some os) : ∀ o ∈ os, Ascending o.properties := by
      exact of_list? (fun _ _ => ascending_of_override?) hv hos
    constructor
    · apply of_field? _ List.Pairwise.nil ordered hproperties
      intro v t
      apply ascending_of_entries?
    · apply of_field? hread _ ordered hoverrides
      intro o ho
      cases ho

/-- A configuration that has been read is in ascending order. -/
theorem ordered_of_parse {text : String} {c : Config} (h : parse text = .ok c) :
  c.Ordered
  := by
  rw [parse] at h
  split at h
  · cases h
  · rename_i hc
    obtain ⟨t, ht, hc⟩ := Option.bind_eq_some_iff.mp hc
    split at h
    · cases h
    · obtain rfl := Except.ok.inj h
      apply ordered_of_ofTable? (Toml.ordered_of_parse? ht) hc

end Config

end Fettle
