import Fettle.Text.Lines
import Fettle.Tree.Basic

/-!
# Finding the way in a tree

The leaves of a forest fall into those before a node, those inside it and those after it:
`leavesBefore?` and `leavesAfter?` are the outer parts.  The leaf next to a node on either
side, the indentation of its line and its start offset are read off them.

`Tree.offsets` is the table of the start offsets of all attached nodes, made in one walk.
-/

namespace Fettle

namespace Forest

variable {ι : Type} [DecidableEq ι]

/-- The leaves before a node. -/
def leavesBefore? (id : ι) : Forest ι → Option (List (Leaf ι))
  | nil => none
  | leaf i k s rest =>
    if i = id then some [] else (rest.leavesBefore? id).map (⟨i, k, s⟩ :: ·)
  | branch i _ _ cs rest =>
    if i = id then some []
    else (cs.leavesBefore? id).or ((rest.leavesBefore? id).map (cs.leaves ++ ·))

/-- The leaves after a node and everything inside it. -/
def leavesAfter? (id : ι) : Forest ι → Option (List (Leaf ι))
  | nil => none
  | leaf i _ _ rest => if i = id then some rest.leaves else rest.leavesAfter? id
  | branch i _ _ cs rest =>
    if i = id then some rest.leaves
    else ((cs.leavesAfter? id).map (· ++ rest.leaves)).or (rest.leavesAfter? id)

/-- The offset of a node from the start of the forest, in bytes. -/
def offset? (id : ι) : Forest ι → Option Nat
  | nil => none
  | leaf i _ s rest =>
    if i = id then some 0 else (rest.offset? id).map (s.utf8ByteSize + ·)
  | branch i _ _ cs rest =>
    if i = id then some 0
    else (cs.offset? id).or ((rest.offset? id).map (cs.textLength + ·))

/-- The start offsets of all nodes, where the forest starts at `base`. -/
def starts (base : Nat) : Forest ι → List (ι × Nat)
  | nil => []
  | leaf i _ s rest => (i, base) :: rest.starts (base + s.utf8ByteSize)
  | branch i _ _ cs rest =>
    (i, base) :: (cs.starts base ++ rest.starts (base + cs.textLength))

end Forest

/-- Whether a leaf is white space with a line feed. -/
def Leaf.breaksLine {ι : Type} (l : Leaf ι) : Bool :=
  l.kind == .whitespace && l.text.toList.contains '\n'

/-- Whether a leaf is white space without a line feed. -/
def Leaf.isInlineSpace {ι : Type} (l : Leaf ι) : Bool :=
  l.kind == .whitespace && !l.text.toList.contains '\n'

namespace Tree

/-- The leaves before an attached node. -/
def leavesBefore (t : Tree) (id : NodeId) : List (Leaf NodeId) :=
  (t.attached.leavesBefore? id).getD []

/-- The leaves after an attached node and everything inside it. -/
def leavesAfter (t : Tree) (id : NodeId) : List (Leaf NodeId) :=
  (t.attached.leavesAfter? id).getD []

/-- The leaf just before a node. -/
def prevLeaf? (t : Tree) (id : NodeId) : Option (Leaf NodeId) :=
  (t.leavesBefore id).getLast?

/-- The leaf just after a node. -/
def nextLeaf? (t : Tree) (id : NodeId) : Option (Leaf NodeId) :=
  (t.leavesAfter id).head?

/-- The first leaf inside a node; a leaf is its own. -/
def firstLeaf? (t : Tree) (id : NodeId) : Option NodeId :=
  match t.node? id with
  | some (.branch _ _ _ cs) => cs.leaves.head?.map Leaf.id
  | _ => some id

/-- The last leaf inside a node; a leaf is its own. -/
def lastLeaf? (t : Tree) (id : NodeId) : Option NodeId :=
  match t.node? id with
  | some (.branch _ _ _ cs) => cs.leaves.getLast?.map Leaf.id
  | _ => some id

/-- The node just before a node, under the same parent. -/
def prevSibling? (t : Tree) (id : NodeId) : Option NodeId := do
  let p ← t.parent? id
  let i ← t.slot? id
  if i = 0 then none else (t.childrenOf p)[i - 1]?

/-- The node just after a node, under the same parent. -/
def nextSibling? (t : Tree) (id : NodeId) : Option NodeId := do
  let p ← t.parent? id
  let i ← t.slot? id
  (t.childrenOf p)[i + 1]?

/-- The offset of a node in the document, in bytes; `0` for a node that is not attached. -/
def startOffset (t : Tree) (id : NodeId) : Nat :=
  (t.attached.offset? id).getD 0

/-- The start offsets of the attached nodes. -/
def offsets (t : Tree) : List (NodeId × Nat) :=
  t.attached.starts 0

/-- Whether a node is white space. -/
def isWhitespace (t : Tree) (id : NodeId) : Bool :=
  t.kind id == .whitespace

/-- Whether a node is white space with a line feed. -/
def breaksLine (t : Tree) (id : NodeId) : Bool :=
  t.isWhitespace id && t.textContains id '\n'

/-- A line feed and the indentation of the line on which a node starts: what follows the
last line feed of the nearest white space before the node that has one, and nothing on the
first line. -/
def indent (t : Tree) (id : NodeId) : String :=
  match (t.leavesBefore id).reverse.find? Leaf.breaksLine with
  | some l => String.ofList ('\n' :: (Text.lines l.text.toList).getLast?.getD [])
  | none => "\n"

end Tree

end Fettle
