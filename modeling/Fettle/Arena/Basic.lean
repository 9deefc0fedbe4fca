import Fettle.Tree.Basic

/-!
# Arenas

An `Arena` keeps a tree in a table with one `Record` for each node ever made, under the number of
the node.  What a tree says once a table says several times: a record holds the numbers of the
children, the parent, the place among the children of the parent, and whether the node is part
of the tree.

The walks over a table end on any table, since they visit no more nodes than there are records;
on the table of a tree this never cuts them short.  `Arena.fault?` is the first thing wrong with
the links and contents of the nodes that are met on the walk from the root.
-/

namespace Fettle

/-- What is kept of one node. -/
structure Record where
  kind : Kind
  label : Option String
  text : String
  children : List NodeId
  parent : Option NodeId
  slot : Nat
  attached : Bool
  deriving DecidableEq, Repr

namespace Record

/-- The record of a leaf that is given a place. -/
def ofLeaf (kind : Kind) (text : String) (parent : Option NodeId) (slot : Nat) : Record :=
  ⟨kind, none, text, [], parent, slot, true⟩

/-- The record of a branch without children that is given a place. -/
def ofBranch (kind : Kind) (label : Option String) (parent : Option NodeId) (slot : Nat) :
    Record :=
  ⟨kind, label, "", [], parent, slot, true⟩

end Record

/-- A table of records and the number of the root. -/
structure Arena where
  records : Array Record
  root : NodeId
  deriving DecidableEq, Repr

namespace Arena

/-- The arena without any node. -/
def empty : Arena := ⟨#[], Tree.root⟩

/-- The number of nodes made so far, which is the number of the next one. -/
def size (a : Arena) : Nat :=
  a.records.size

/-- The record of a node. -/
def get? (a : Arena) (id : NodeId) : Option Record :=
  a.records[id]?

/-- The arena with one more node. -/
def push (a : Arena) (r : Record) : Arena :=
  { a with records := a.records.push r }

/-- The arena with the record of a node changed. -/
def modify (a : Arena) (id : NodeId) (f : Record → Record) : Arena :=
  { a with records := a.records.modify id f }

/-! ### Looking at one node -/

/-- The kind of a node; a number that no node has counts as a token. -/
def kind (a : Arena) (id : NodeId) : Kind :=
  ((a.get? id).map Record.kind).getD .token

/-- Whether a node is part of the tree. -/
def isAttached (a : Arena) (id : NodeId) : Bool :=
  (a.get? id).any Record.attached

/-- Whether a node holds no children by its nature. -/
def isLeaf (a : Arena) (id : NodeId) : Bool :=
  !(a.kind id).isComposite

/-- Whether a node is white space. -/
def isWhitespace (a : Arena) (id : NodeId) : Bool :=
  a.kind id == .whitespace

/-- The branch that holds an attached node. -/
def parent? (a : Arena) (id : NodeId) : Option NodeId :=
  ((a.get? id).filter Record.attached).bind Record.parent

/-- The children of a branch. -/
def childrenOf (a : Arena) (id : NodeId) : List NodeId :=
  ((a.get? id).map Record.children).getD []

/-- The text of a leaf. -/
def leafText? (a : Arena) (id : NodeId) : Option String :=
  ((a.get? id).filter fun r => !r.kind.isComposite).map Record.text

/-- The parent of a node and its place there, if the parent has the node at that place. -/
def place? (a : Arena) (id : NodeId) : Option (NodeId × Nat) := do
  let p ← a.parent? id
  let r ← a.get? id
  if (a.childrenOf p)[r.slot]? = some id then some (p, r.slot) else none

/-- The node just before a node, under the same parent. -/
def prevSibling? (a : Arena) (id : NodeId) : Option NodeId := do
  let (p, i) ← a.place? id
  if i = 0 then none else (a.childrenOf p)[i - 1]?

/-! ### Walks -/

/-- The nodes that are met from a stack of nodes on, at most a number of them, where the children
of a node come right after it. -/
def walk (a : Arena) : Nat → List NodeId → List NodeId
  | _, [] => []
  | 0, _ :: _ => []
  | n + 1, id :: stack => id :: a.walk n (a.childrenOf id ++ stack)

/-- The nodes met from the root on. -/
def preOrder (a : Arena) : List NodeId :=
  a.walk a.size [a.root]

/-- The last leaf inside a node at most a number of levels down; a leaf is its own. -/
def lastLeafWithin? (a : Arena) : Nat → NodeId → Option NodeId
  | 0, _ => none
  | n + 1, id =>
    if a.isLeaf id then some id
    else (a.childrenOf id).reverse.findSome? (a.lastLeafWithin? n)

/-- The last leaf inside a node; a leaf is its own. -/
def lastLeaf? (a : Arena) (id : NodeId) : Option NodeId :=
  a.lastLeafWithin? a.size id

/-- The last leaf inside a node on the left of `current`, the first of these nodes being
`sibling`, where at most a number of nodes are looked at.  After the siblings of a node come
those of its parent. -/
def leafLeftOf? (a : Arena) : Nat → NodeId → Option NodeId → Option NodeId
  | 0, _, _ => none
  | n + 1, current, some sibling =>
    match a.lastLeaf? sibling with
    | some leaf => some leaf
    | none => a.leafLeftOf? n current (a.prevSibling? sibling)
  | n + 1, current, none =>
    match a.parent? current with
    | some p => a.leafLeftOf? n p (a.prevSibling? p)
    | none => none

/-- The leaf just before a node. -/
def prevLeaf? (a : Arena) (id : NodeId) : Option NodeId :=
  a.leafLeftOf? a.size id (a.prevSibling? id)

/-! ### The state of the arena -/

/-- What is wrong with a node as a child at a place of a parent. -/
def linkFault? (a : Arena) (parent : NodeId) (child : NodeId) (slot : Nat) : Option Fault :=
  match a.get? child with
  | none => some (.unknownNode child)
  | some r =>
    if r.parent = some parent ∧ r.slot = slot ∧ r.attached = true then none
    else some (.brokenLink parent child)

/-- What is wrong with a node: it does not exist, it is removed, a child is not linked to it, or
its kind and content do not fit. -/
def nodeFault? (a : Arena) (id : NodeId) : Option Fault :=
  match a.get? id with
  | none => some (.unknownNode id)
  | some r =>
    if !r.attached then some (.detached id)
    else if r.kind.isComposite then
      r.children.zipIdx.findSome? fun c => a.linkFault? id c.1 c.2
    else if r.children ≠ [] then some (.leafKindAsComposite r.kind)
    else leafFault? r.kind r.text

/-- The first thing wrong with the nodes met from the root on. -/
def fault? (a : Arena) : Option Fault :=
  a.preOrder.findSome? a.nodeFault?

/-- The parent of a node and its place there, or why no edit can be made at the node. -/
def locate (a : Arena) (id : NodeId) : Except Fault (NodeId × Nat) :=
  match a.get? id with
  | none => .error (.unknownNode id)
  | some r =>
    if !r.attached then .error (.detached id)
    else match r.parent with
      | none => .error (.rootAnchor id)
      | some p =>
        if (a.childrenOf p)[r.slot]? = some id then .ok (p, r.slot)
        else .error (.brokenLink p id)

end Arena

end Fettle
