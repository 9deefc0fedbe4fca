import Fettle.Tree.Fault

/-!
# Syntax trees

A `Tree` is a numbered tree together with the trees that were cut out of it.  The root,
number `0`, is a branch that is never removed; its content is the forest `children`.
The forest `removed` holds what edits have taken out, so that a removed node can still be
read; `size` is the number of nodes made so far, and the number of the next one.

A node is *attached* if it is the root or inside `children`.  `node?` finds the tree of
an attached or removed node, and the other look-ups read their answer off it.
-/

namespace Fettle

namespace Forest

variable {ι : Type} [DecidableEq ι]

/-- The tree whose root has a given label. -/
def find? (id : ι) : Forest ι → Option (Node ι)
  | nil => none
  | leaf i k s rest => if i = id then some (.leaf i k s) else rest.find? id
  | branch i k l cs rest =>
    if i = id then some (.branch i k l cs) else (cs.find? id).or (rest.find? id)

/-- A tree is found exactly for the labels of nodes. -/
theorem isSome_find?_iff {id : ι} {f : Forest ι} :
  (f.find? id).isSome = true ↔ id ∈ f.ids
  := by
  induction f with
  | nil => simp [find?, ids]
  | leaf i k s rest ih =>
    rw [find?, ids]
    split
    · rename_i h
      simp [h]
    · rename_i h
      simp [ih, Ne.symm h]
  | branch i k l cs rest ihc ih =>
    rw [find?, ids]
    split
    · rename_i h
      simp [h]
    · rename_i h
      simp [← ihc, ← ih, Ne.symm h, Option.isSome_or]

theorem id_of_find? {id : ι} {f : Forest ι} {n : Node ι} (h : f.find? id = some n) :
  n.id = id
  := by
  induction f with
  | nil => simp [find?] at h
  | leaf i k s rest ih =>
    rw [find?] at h
    split at h
    · simp_all [Node.id, ← Option.some.inj h]
    · exact ih h
  | branch i k l cs rest ihc ih =>
    rw [find?] at h
    split at h
    · simp_all [Node.id, ← Option.some.inj h]
    · rcases Option.or_eq_some_iff.mp h with h | ⟨_, h⟩
      · exact ihc h
      · exact ih h

/-- The label of the branch that holds the node of a given label, where `parent` is the
label of the branch that holds the forest. -/
def parentIn? (id : ι) (parent : ι) : Forest ι → Option ι
  | nil => none
  | leaf i _ _ rest => if i = id then some parent else rest.parentIn? id parent
  | branch i _ _ cs rest =>
    if i = id then some parent else (cs.parentIn? id i).or (rest.parentIn? id parent)

end Forest

/-- A tree of numbered nodes, and what was cut out of it. -/
structure Tree where
  rootKind : Kind
  rootLabel : Option String
  children : Forest NodeId
  removed : Forest NodeId
  size : Nat
  deriving DecidableEq, Repr

namespace Tree

/-- The number of the root. -/
def root : NodeId := 0

/-- The tree itself, as a forest of one tree. -/
def attached (t : Tree) : Forest NodeId :=
  .branch root t.rootKind t.rootLabel t.children .nil

/-- The attached nodes, each before the nodes inside it. -/
def preOrder (t : Tree) : List NodeId :=
  t.attached.ids

/-- The attached leaves from left to right. -/
def leaves (t : Tree) : List (Leaf NodeId) :=
  t.attached.leaves

/-- The document. -/
def text (t : Tree) : String :=
  t.attached.text

/-- The length of the document in bytes. -/
def textLength (t : Tree) : Nat :=
  t.attached.textLength

@[simp]
theorem leaves_eq (t : Tree) :
  t.leaves = t.children.leaves
  := by
  simp [leaves, attached, Forest.leaves]

@[simp]
theorem text_eq (t : Tree) :
  t.text = t.children.text
  := by
  simp [text, attached, Forest.text]

/-! ### Looking at one node -/

/-- Whether a node is part of the tree. -/
def isAttached (t : Tree) (id : NodeId) : Bool :=
  (t.attached.find? id).isSome

/-- The tree under a node, be the node attached or removed. -/
def node? (t : Tree) (id : NodeId) : Option (Node NodeId) :=
  (t.attached.find? id).or (t.removed.find? id)

theorem isAttached_iff {t : Tree} {id : NodeId} :
  t.isAttached id = true ↔ id ∈ t.preOrder
  := Forest.isSome_find?_iff

theorem isAttached_root (t : Tree) :
  t.isAttached root = true
  := by
  rw [isAttached_iff]
  simp [preOrder, attached, Forest.ids]

/-- The kind of a node; a number that no node has counts as a token. -/
def kind (t : Tree) (id : NodeId) : Kind :=
  ((t.node? id).map Node.kind).getD .token

/-- The construct that a branch stands for. -/
def label? (t : Tree) (id : NodeId) : Option String :=
  (t.node? id).bind Node.label

/-- Whether a node holds no children by its nature. -/
def isLeaf (t : Tree) (id : NodeId) : Bool :=
  !(t.kind id).isComposite

/-- The text of a leaf. -/
def leafText? (t : Tree) (id : NodeId) : Option String :=
  (t.node? id).bind Node.leafText?

/-- The children of a branch. -/
def childrenOf (t : Tree) (id : NodeId) : List NodeId :=
  ((t.node? id).map fun n => n.children.roots).getD []

/-- The text under a node. -/
def textOf (t : Tree) (id : NodeId) : String :=
  ((t.node? id).map fun n => n.toForest.text).getD ""

/-- The length in bytes of the text under a node. -/
def textLengthOf (t : Tree) (id : NodeId) : Nat :=
  ((t.node? id).map fun n => n.toForest.textLength).getD 0

/-- Whether a character occurs in the text under a node. -/
def textContains (t : Tree) (id : NodeId) (c : Char) : Bool :=
  ((t.node? id).map fun n => n.toForest.contains c).getD false

/-- The branch that holds an attached node. -/
def parent? (t : Tree) (id : NodeId) : Option NodeId :=
  if id = root then none else t.children.parentIn? id root

/-- The place of an attached node among the children of its parent. -/
def slot? (t : Tree) (id : NodeId) : Option Nat :=
  (t.parent? id).bind fun p => (t.childrenOf p).idxOf? id

/-! ### The state of the tree -/

/-- What is wrong with one attached node: its number was never given or belongs to a
removed node, a child is not where its parent has it, or its kind and content do not fit. -/
def nodeFault? (t : Tree) (n : Node NodeId) : Option Fault :=
  if t.size ≤ n.id then some (.unknownNode n.id)
  else if (t.removed.find? n.id).isSome then some (.detached n.id)
  else match n with
    | .leaf _ k s => leafFault? k s
    | .branch i k _ cs =>
      (branchFault? k).or
        (cs.roots.zipIdx.findSome? fun c =>
          if t.parent? c.1 = some i ∧ t.slot? c.1 = some c.2 then none
          else some (.brokenLink i c.1))

end Tree

/-- The trees of all nodes, each before the trees inside it. -/
def Forest.nodes {ι : Type} : Forest ι → List (Node ι)
  | .nil => []
  | .leaf i k s rest => .leaf i k s :: rest.nodes
  | .branch i k l cs rest => .branch i k l cs :: (cs.nodes ++ rest.nodes)

theorem Forest.map_id_nodes {ι : Type} (f : Forest ι) :
  f.nodes.map Node.id = f.ids
  := by
  induction f with
  | nil => rfl
  | leaf i k s rest ih => simp [nodes, ids, Node.id, ih]
  | branch i k l cs rest ihc ih => simp [nodes, ids, Node.id, ihc, ih]

/-- The first thing wrong with a tree, in pre-order. -/
def Tree.fault? (t : Tree) : Option Fault :=
  t.attached.nodes.findSome? t.nodeFault?

end Fettle
