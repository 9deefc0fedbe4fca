import Fettle.Arena.View

/-!
# Searching for leaves

From a node the next leaf on one side is searched for among the siblings on that side, the nearest
first, then among those of the parent, and so on up to the root.  Inside a sibling the leaf is
taken that is met first when coming from the node.

Nothing in a table bounds these searches, and if its links run in circles they never end.  So a
search is given a number of steps: it has the value `none` if they do not suffice, and `some none`
if it ends without a leaf.
-/

namespace Fettle

/-- A side of a node. -/
inductive Side where
  | left
  | right
  deriving DecidableEq, Repr

/-- What stands on a side, in the order in which it is met on the way to that side. -/
def Side.order {α : Type} : Side → List α → List α
  | left, xs => xs.reverse
  | right, xs => xs

namespace Arena

/-- The node just after a node, under the same parent. -/
def nextSibling? (a : Arena) (id : NodeId) : Option NodeId := do
  let (p, i) ← a.place? id
  (a.childrenOf p)[i + 1]?

/-- The node next to a node on a side, under the same parent. -/
def sibling? (a : Arena) : Side → NodeId → Option NodeId
  | .left, id => a.prevSibling? id
  | .right, id => a.nextSibling? id

/-- The leaf inside a node that is met first on the way to a side; a leaf is its own. -/
def nearest (a : Arena) (side : Side) : Nat → NodeId → Option (Option NodeId)
  | 0, _ => none
  | steps + 1, id =>
    if a.isLeaf id then some (some id)
    else (side.order (a.childrenOf id)).findSomeM? (a.nearest side steps)

/-- The leaf that is met first on the way to a side from `current` on, the first of the nodes on
that side being `sibling`.  After the siblings of a node come those of its parent. -/
def searchFrom (a : Arena) (side : Side) :
    Nat → NodeId → Option NodeId → Option (Option NodeId)
  | 0, _, _ => none
  | steps + 1, current, some sibling => do
    match ← a.nearest side steps sibling with
    | some leaf => some (some leaf)
    | none => a.searchFrom side steps current (a.sibling? side sibling)
  | steps + 1, current, none =>
    match a.parent? current with
    | some p => a.searchFrom side steps p (a.sibling? side p)
    | none => some none

/-- The search for the leaf next to a node on a side. -/
def search (a : Arena) (side : Side) (steps : Nat) (id : NodeId) : Option (Option NodeId) :=
  a.searchFrom side steps id (a.sibling? side id)

/-- The first leaf inside a node; a leaf is its own. -/
def firstLeaf? (a : Arena) (id : NodeId) : Option NodeId :=
  (a.nearest .right a.size id).join

/-- The leaf just after a node. -/
def nextLeaf? (a : Arena) (id : NodeId) : Option NodeId :=
  (a.search .right a.size id).join

end Arena

end Fettle
