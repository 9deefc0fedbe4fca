import Fettle.Kotlin.Conversion
import Fettle.Proofs.Text.Boundaries

/-!
# Constructs in place, and kinds of leaves

A grammar is `Lawful` if its constructs lie in order and inside one another, at places where the
source can be cut, and if every construct that is taken apart begins with its first token: white
space in front of a token belongs neither to the token nor to a construct that the token begins.
Whether the outline of a source is so can be decided, and the grammar `lexical` always is
(`lexical_lawful`).

The kind of a leaf `Describes` its text if white space, and nothing else, is called white space,
and if a comment is called what it begins as.  The kinds of constructs do (`describes_leafKind`).
-/

namespace Fettle

open Text

/-! ### Kinds and texts -/

/-- The kind of a leaf fits its text: white space is what is called so, and a comment is
documentation, a block or the rest of a line by how it begins. -/
structure Kind.Describes (kind : Kind) (text : String) : Prop where
  whitespace : kind = .whitespace ↔ ∀ x ∈ text.toList, isBlank x = true
  kdoc : kind.isComment = true →
    (kind = .kdoc ↔ ['/', '*', '*'] <+: text.toList ∧ 4 < text.utf8ByteSize)
  blockComment : kind.isComment = true →
    (kind = .blockComment
      ↔ ['/', '*'] <+: text.toList ∧ ¬ (['/', '*', '*'] <+: text.toList ∧ 4 < text.utf8ByteSize))
  eolComment : kind.isComment = true → (kind = .eolComment ↔ ['/', '/'] <+: text.toList)

namespace Kotlin

theorem describes_whitespace {s : List Char} (hs : ∀ x ∈ s, isBlank x = true) :
  Kind.whitespace.Describes (String.ofList s)
  := by
  constructor
  · simpa using hs
  · exact nofun
  · exact nofun
  · exact nofun

/-- A kind that is neither white space nor a comment fits every text that is not blank. -/
theorem describes_of_other {k : Kind} {s : List Char} (hs : s.all isBlank = false)
    (hk : k ≠ .whitespace) (hcomment : k.isComment = false) :
  k.Describes (String.ofList s)
  := by
  rw [List.all_eq_false] at hs
  obtain ⟨x, hx, hblank⟩ := hs
  constructor
  · refine ⟨fun h => absurd h hk, fun h => ?_⟩
    rw [String.toList_ofList] at h
    exact absurd (h x hx) hblank
  · simp [hcomment]
  · simp [hcomment]
  · simp [hcomment]

theorem commentKind_cases (s : List Char) :
  commentKind s = .kdoc ∧ ['/', '*', '*'] <+: s ∧ 4 < byteLength s
  ∨ commentKind s = .blockComment ∧ ['/', '*'] <+: s
    ∧ ¬ (['/', '*', '*'] <+: s ∧ 4 < byteLength s)
  ∨ commentKind s = .eolComment ∧ ['/', '/'] <+: s
  ∨ commentKind s = .token
  := by
  rw [commentKind]
  split
  · rename_i h
    rw [Bool.and_eq_true, List.isPrefixOf_iff_prefix, decide_eq_true_eq] at h
    exact .inl ⟨rfl, h⟩
  · rename_i h
    rw [Bool.and_eq_true, List.isPrefixOf_iff_prefix, decide_eq_true_eq] at h
    split
    · rename_i hblock
      exact .inr (.inl ⟨rfl, List.isPrefixOf_iff_prefix.mp hblock, h⟩)
    · split
      · rename_i hline
        exact .inr (.inr (.inl ⟨rfl, List.isPrefixOf_iff_prefix.mp hline⟩))
      · exact .inr (.inr (.inr rfl))

theorem describes_commentKind {s : List Char} (hs : s.all isBlank = false) :
  (commentKind s).Describes (String.ofList s)
  := by
  have hwhitespace {k : Kind} (hk : k ≠ .whitespace) :
      k = .whitespace ↔ ∀ x ∈ (String.ofList s).toList, isBlank x = true := by
    rw [String.toList_ofList, ← List.all_eq_true, hs]
    simp [hk]
  have hsize : (String.ofList s).utf8ByteSize = byteLength s := utf8ByteSize_ofList s
  rcases commentKind_cases s with ⟨hk, hmark, hlong⟩ | ⟨hk, hmark, hshort⟩ | ⟨hk, hmark⟩ | hk
  · rw [hk]
    refine ⟨hwhitespace (by decide), ?_, ?_, ?_⟩
    · simp [hsize, hmark, hlong]
    · simp [hsize, hmark, hlong]
    · obtain ⟨u, rfl⟩ := hmark
      simp
  · rw [hk]
    refine ⟨hwhitespace (by decide), ?_, ?_, ?_⟩
    · rw [String.toList_ofList, hsize]
      exact fun _ => ⟨nofun, fun h => absurd h hshort⟩
    · simp [hsize, hmark, hshort]
    · obtain ⟨u, rfl⟩ := hmark
      simp
  · rw [hk]
    obtain ⟨u, rfl⟩ := hmark
    refine ⟨hwhitespace (by decide), ?_, ?_, ?_⟩
    · simp
    · simp
    · simp
  · rw [hk]
    apply describes_of_other hs (by decide) (by decide)

theorem leafKind_cases (name : String) (s : List Char) :
  leafKind name s = commentKind s
  ∨ leafKind name s ≠ .whitespace ∧ (leafKind name s).isComment = false
    ∧ (leafKind name s).isComposite = false
  := by
  rw [leafKind.eq_def]
  split
  · exact .inl rfl
  · right
    split
    · decide
    · decide
    · decide
    · decide
    · decide
    · decide
    · split <;> decide

/-- The kind of the leaf of a construct fits its text. -/
theorem describes_leafKind (name : String) {s : List Char} (hs : s.all isBlank = false) :
  (leafKind name s).Describes (String.ofList s)
  := by
  rcases leafKind_cases name s with h | ⟨hk, hcomment, -⟩
  · rw [h]
    apply describes_commentKind hs
  · apply describes_of_other hs hk hcomment

theorem isComposite_leafKind (name : String) (s : List Char) :
  (leafKind name s).isComposite = false
  := by
  rcases leafKind_cases name s with h | ⟨-, -, h⟩
  · rw [h]
    rcases commentKind_cases s with ⟨hk, -⟩ | ⟨hk, -⟩ | ⟨hk, -⟩ | hk <;> rw [hk] <;> rfl
  · exact h

/-! ### Where constructs are -/

instance (s : List Char) (o : Nat) : Decidable (Boundary s o) :=
  decidable_of_iff ((cut? s o).isSome = true) (by
    rw [Option.isSome_iff_exists]
    constructor
    · rintro ⟨⟨u, v⟩, h⟩
      exact ⟨u, v, cut?_eq_some_iff.mp h⟩
    · rintro ⟨u, v, h⟩
      exact ⟨(u, v), cut?_eq_some_iff.mpr h⟩)

/-- A text begins with something that is not white space. -/
def Solid (s : List Char) : Prop :=
  ∃ x u, s = x :: u ∧ isBlank x = false

instance (s : List Char) : Decidable (Solid s) :=
  match s with
  | [] => .isFalse nofun
  | x :: u =>
    decidable_of_iff (isBlank x = false)
      ⟨fun hx => ⟨x, u, rfl, hx⟩, fun ⟨_, _, hs, hx⟩ => (List.cons.inj hs).1 ▸ hx⟩

/-- What comes first at an offset is a leaf that is not blank.  Constructs that are over by then
are passed over. -/
def Constructs.StartsWithToken (source : List Char) (o : Nat) : Constructs → Prop
  | .nil => False
  | .cons k inside rest =>
    if k.stop ≤ o then rest.StartsWithToken source o
    else if k.isLeaf inside then k.start = o ∧ (slice o k.stop source).all isBlank = false
    else k.start = o ∧ inside.StartsWithToken source o

/-- Whether a token comes first is decided construct by construct. -/
def Constructs.decideStartsWithToken (source : List Char) (o : Nat) :
    (f : Constructs) → Decidable (f.StartsWithToken source o)
  | .nil => .isFalse id
  | .cons k inside rest =>
    have := inside.decideStartsWithToken source o
    have := rest.decideStartsWithToken source o
    inferInstanceAs (Decidable (if k.stop ≤ o then rest.StartsWithToken source o
      else if k.isLeaf inside then k.start = o ∧ (slice o k.stop source).all isBlank = false
      else k.start = o ∧ inside.StartsWithToken source o))

instance (source : List Char) (o : Nat) (f : Constructs) :
    Decidable (f.StartsWithToken source o) :=
  f.decideStartsWithToken source o

/-- Constructs lie between two offsets in order, at boundaries of characters.  One that is taken
apart begins with a token, and those inside it lie in order in it. -/
def Constructs.Placed (source : List Char) (start stop : Nat) : Constructs → Prop
  | .nil => start ≤ stop
  | .cons k inside rest =>
    start ≤ k.start ∧ k.start ≤ k.stop ∧ Boundary source k.start ∧ Boundary source k.stop
    ∧ (k.isLeaf inside = false →
      inside.Placed source k.start k.stop
      ∧ (Solid (slice k.start (byteLength source) source)
        ∨ inside.StartsWithToken source k.start))
    ∧ rest.Placed source k.stop stop

/-- Whether constructs are in place is decided construct by construct. -/
def Constructs.decidePlaced (source : List Char) (start stop : Nat) :
    (f : Constructs) → Decidable (f.Placed source start stop)
  | .nil => inferInstanceAs (Decidable (start ≤ stop))
  | .cons k inside rest =>
    have := inside.decidePlaced source k.start k.stop
    have := rest.decidePlaced source k.stop stop
    inferInstanceAs (Decidable (_ ∧ _ ∧ _ ∧ _ ∧ (_ → _ ∧ (_ ∨ _)) ∧ _))

/-- The constructs of an outline are in place. -/
def Outline.Placed (o : Outline) (source : List Char) : Prop :=
  o.inside.Placed source 0 (byteLength source)

instance (o : Outline) (source : List Char) : Decidable (o.Placed source) :=
  o.inside.decidePlaced source 0 (byteLength source)

/-- A grammar puts constructs in place whenever it sees no error. -/
def Grammar.Lawful (g : Grammar) : Prop :=
  ∀ source o, g.outline? source = some o → o.hasError = false → o.Placed source.toList

/-! ### Lexemes as constructs -/

/-- The constructs of lexemes are in place from where the lexemes start. -/
theorem placed_constructs {source : List Char} (done : List Char) {ls : List Lexeme}
    (h : done ++ ls.flatMap Lexeme.text = source) {start : Nat} (hstart : start ≤ byteLength done) :
  (constructs (byteLength done) ls).Placed source start (byteLength source)
  := by
  induction ls generalizing done start with
  | nil =>
    rw [← h]
    simpa [constructs, Constructs.Placed] using hstart
  | cons l ls ih =>
    rw [List.flatMap_cons, ← List.append_assoc] at h
    rw [constructs, ← byteLength_append]
    have hle : byteLength done ≤ byteLength (done ++ l.text) := by
      rw [byteLength_append]
      apply Nat.le_add_right
    split
    · apply ih (done ++ l.text) h (Nat.le_trans hstart hle)
    · refine ⟨hstart, hle, ?_, ?_, nofun, ih (done ++ l.text) h (Nat.le_refl _)⟩
      · exact ⟨done, l.text ++ ls.flatMap Lexeme.text, by rw [← h, List.append_assoc], rfl⟩
      · exact ⟨done ++ l.text, ls.flatMap Lexeme.text, h.symm, rfl⟩

/-- The grammar that knows lexemes and brackets only is lawful. -/
theorem lexical_lawful :
  lexical.Lawful
  := by
  intro source o ho hok
  obtain rfl := Option.some.inj ho
  rw [lexicalOutline] at hok ⊢
  split at hok
  · cases hok
  · rename_i ls hls
    split at hok
    · rename_i hbalanced
      rw [if_pos hbalanced]
      apply placed_constructs [] (flatMap_text_of_lexemes? hls) (Nat.le_refl 0)
    · cases hok

end Kotlin

end Fettle
