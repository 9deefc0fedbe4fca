import Fettle.Tree.Kind

/-!
# Forests

A `Forest ι` is a list of trees in document order whose nodes carry labels of type `ι`:
a forest is empty, or it is a first tree, a leaf or a branch, followed by the rest of the
forest.  With numbers as labels a forest is the content of a syntax tree, with trivial
labels it is the plan of one, a `Draft`.

The views of a forest are its labels in pre-order (`ids`), its leaves from left to right
(`leaves`), and its text (`text`), which is the text of its leaves.
-/

namespace Fettle

/-- A list of trees.  A leaf holds text; a branch holds a name for its construct, if it
has one, and a forest of children. -/
inductive Forest (ι : Type) where
  | nil
  | leaf (id : ι) (kind : Kind) (text : String) (rest : Forest ι)
  | branch (id : ι) (kind : Kind) (label : Option String) (children rest : Forest ι)
  deriving DecidableEq, Repr

/-- A leaf on its own. -/
structure Leaf (ι : Type) where
  id : ι
  kind : Kind
  text : String
  deriving DecidableEq, Repr

/-- One tree: a leaf, or a branch with its children. -/
inductive Node (ι : Type) where
  | leaf (id : ι) (kind : Kind) (text : String)
  | branch (id : ι) (kind : Kind) (label : Option String) (children : Forest ι)
  deriving DecidableEq, Repr

namespace Forest

variable {ι : Type}

/-- The trees of one forest followed by those of another. -/
def append : Forest ι → Forest ι → Forest ι
  | nil, g => g
  | leaf i k s rest, g => leaf i k s (rest.append g)
  | branch i k l cs rest, g => branch i k l cs (rest.append g)

instance : Append (Forest ι) := ⟨append⟩

@[simp]
theorem nil_append (g : Forest ι) :
  nil ++ g = g
  := rfl

@[simp]
theorem leaf_append (i : ι) (k : Kind) (s : String) (f g : Forest ι) :
  leaf i k s f ++ g = leaf i k s (f ++ g)
  := rfl

@[simp]
theorem branch_append (i : ι) (k : Kind) (l : Option String) (cs f g : Forest ι) :
  branch i k l cs f ++ g = branch i k l cs (f ++ g)
  := rfl

@[simp]
theorem append_nil (f : Forest ι) :
  f ++ nil = f
  := by
  induction f with
  | nil => rfl
  | leaf i k s rest ih => rw [leaf_append, ih]
  | branch i k l cs rest _ ih => rw [branch_append, ih]

theorem append_assoc (f g h : Forest ι) :
  f ++ g ++ h = f ++ (g ++ h)
  := by
  induction f with
  | nil => rfl
  | leaf i k s rest ih => simp only [leaf_append, ih]
  | branch i k l cs rest _ ih => simp only [branch_append, ih]

/-- The number of nodes. -/
def size : Forest ι → Nat
  | nil => 0
  | leaf _ _ _ rest => rest.size + 1
  | branch _ _ _ cs rest => cs.size + rest.size + 1

@[simp]
theorem size_append (f g : Forest ι) :
  (f ++ g).size = f.size + g.size
  := by
  induction f with
  | nil => simp [size]
  | leaf i k s rest ih => simp only [leaf_append, size, ih]; omega
  | branch i k l cs rest _ ih => simp only [branch_append, size, ih]; omega

/-- The labels of the trees, not of the nodes inside them. -/
def roots : Forest ι → List ι
  | nil => []
  | leaf i _ _ rest => i :: rest.roots
  | branch i _ _ _ rest => i :: rest.roots

@[simp]
theorem roots_append (f g : Forest ι) :
  (f ++ g).roots = f.roots ++ g.roots
  := by
  induction f with
  | nil => rfl
  | leaf i k s rest ih => simp [roots, ih]
  | branch i k l cs rest _ ih => simp [roots, ih]

/-- The labels of all nodes, a branch before its children. -/
def ids : Forest ι → List ι
  | nil => []
  | leaf i _ _ rest => i :: rest.ids
  | branch i _ _ cs rest => i :: (cs.ids ++ rest.ids)

@[simp]
theorem ids_append (f g : Forest ι) :
  (f ++ g).ids = f.ids ++ g.ids
  := by
  induction f with
  | nil => rfl
  | leaf i k s rest ih => simp [ids, ih]
  | branch i k l cs rest _ ih => simp [ids, ih]

theorem length_ids (f : Forest ι) :
  f.ids.length = f.size
  := by
  induction f with
  | nil => rfl
  | leaf i k s rest ih => simp [ids, size, ih]
  | branch i k l cs rest ihc ih => simp [ids, size, ihc, ih]

/-- The leaves from left to right. -/
def leaves : Forest ι → List (Leaf ι)
  | nil => []
  | leaf i k s rest => ⟨i, k, s⟩ :: rest.leaves
  | branch _ _ _ cs rest => cs.leaves ++ rest.leaves

@[simp]
theorem leaves_append (f g : Forest ι) :
  (f ++ g).leaves = f.leaves ++ g.leaves
  := by
  induction f with
  | nil => rfl
  | leaf i k s rest ih => simp [leaves, ih]
  | branch i k l cs rest _ ih => simp [leaves, ih]

/-- The text of the leaves from left to right. -/
def text : Forest ι → String
  | nil => ""
  | leaf _ _ s rest => s ++ rest.text
  | branch _ _ _ cs rest => cs.text ++ rest.text

@[simp]
theorem text_append (f g : Forest ι) :
  (f ++ g).text = f.text ++ g.text
  := by
  induction f with
  | nil => simp [text]
  | leaf i k s rest ih => simp [text, ih, String.append_assoc]
  | branch i k l cs rest _ ih => simp [text, ih, String.append_assoc]

/-- The text is that of the leaves. -/
theorem text_eq_join_leaves (f : Forest ι) :
  f.text = String.join (f.leaves.map Leaf.text)
  := by
  apply String.toList_injective
  induction f with
  | nil => rfl
  | leaf i k s rest ih => simp_all [text, leaves]
  | branch i k l cs rest ihc ih => simp_all [text, leaves]

/-- The length of the text in bytes. -/
def textLength : Forest ι → Nat
  | nil => 0
  | leaf _ _ s rest => s.utf8ByteSize + rest.textLength
  | branch _ _ _ cs rest => cs.textLength + rest.textLength

theorem textLength_eq_utf8ByteSize (f : Forest ι) :
  f.textLength = f.text.utf8ByteSize
  := by
  induction f with
  | nil => rfl
  | leaf i k s rest ih => rw [textLength, text, String.utf8ByteSize_append, ih]
  | branch i k l cs rest ihc ih => rw [textLength, text, String.utf8ByteSize_append, ihc, ih]

/-- Whether a character occurs in the text. -/
def contains (c : Char) : Forest ι → Bool
  | nil => false
  | leaf _ _ s rest => s.toList.contains c || rest.contains c
  | branch _ _ _ cs rest => cs.contains c || rest.contains c

theorem contains_eq (c : Char) (f : Forest ι) :
  f.contains c = f.text.toList.contains c
  := by
  induction f with
  | nil => simp [contains, text]
  | leaf i k s rest ih =>
    rw [contains, text, String.toList_append, ih]
    simp only [List.contains_eq_any_beq, List.any_append]
  | branch i k l cs rest ihc ih =>
    rw [contains, text, String.toList_append, ihc, ih]
    simp only [List.contains_eq_any_beq, List.any_append]

end Forest

namespace Node

variable {ι : Type}

/-- The forest of one tree. -/
def toForest : Node ι → Forest ι
  | leaf i k s => .leaf i k s .nil
  | branch i k l cs => .branch i k l cs .nil

/-- The label of the tree's root. -/
def id : Node ι → ι
  | leaf i _ _ => i
  | branch i _ _ _ => i

/-- The kind of the tree's root. -/
def kind : Node ι → Kind
  | leaf _ k _ => k
  | branch _ k _ _ => k

/-- The construct that a branch stands for. -/
def label : Node ι → Option String
  | leaf _ _ _ => none
  | branch _ _ l _ => l

/-- The children of a branch. -/
def children : Node ι → Forest ι
  | leaf _ _ _ => .nil
  | branch _ _ _ cs => cs

/-- The text of a leaf. -/
def leafText? : Node ι → Option String
  | leaf _ _ s => some s
  | branch _ _ _ _ => none

end Node

/-- The plan of a forest, whose nodes are not numbered yet. -/
abbrev Draft := Forest Unit

/-- The plan of one tree. -/
abbrev NewNode := Node Unit

namespace NewNode

/-- A leaf to be. -/
abbrev ofLeaf (kind : Kind) (text : String) : NewNode :=
  .leaf () kind text

/-- A whitespace leaf to be. -/
abbrev whitespace (text : String) : NewNode :=
  .leaf () .whitespace text

end NewNode

end Fettle
