import Fettle.Arena.Basic
import Fettle.Tree.Edit

/-!
# Editing an arena

The edits of an arena are those of a tree, made on the table: the links are changed one by one.
`alloc` makes the records of a new node and of the nodes inside it, `renumber` gives the children
of a branch their places from some place on, and `detach` takes a node and all inside it out of
the tree.  `Edit` is the type of edits; an edit that is refused yields a fault and no arena.
-/

namespace Fettle

namespace Arena

/-! ### Changing links -/

/-- The arena with one more child of a branch. -/
def adopt (a : Arena) (parent child : NodeId) : Arena :=
  a.modify parent fun r => { r with children := r.children ++ [child] }

/-- The arena with new nodes for the trees of a plan, which become children of a branch, from a
place on. -/
def allocUnder (a : Arena) (parent : NodeId) (slot : Nat) : Draft → Arena
  | .nil => a
  | .leaf _ k s rest =>
    let made := a.push (.ofLeaf k s (some parent) slot)
    (made.adopt parent a.size).allocUnder parent (slot + 1) rest
  | .branch _ k l cs rest =>
    let made := (a.push (.ofBranch k l (some parent) slot)).allocUnder a.size 0 cs
    (made.adopt parent a.size).allocUnder parent (slot + 1) rest

/-- The number of a new node with a given place, and the arena with it; the parent does not have
it as a child yet. -/
def alloc (a : Arena) (new : NewNode) (parent : NodeId) (slot : Nat) : NodeId × Arena :=
  match new with
  | .leaf _ k s => (a.size, a.push (.ofLeaf k s (some parent) slot))
  | .branch _ k l cs =>
    (a.size, (a.push (.ofBranch k l (some parent) slot)).allocUnder a.size 0 cs)

/-- The arena with other children of a branch. -/
def setChildren (a : Arena) (parent : NodeId) (children : List NodeId) : Arena :=
  a.modify parent fun r => { r with children := children }

/-- The arena with places given to some nodes, from a place on. -/
def setSlots (a : Arena) (slot : Nat) : List NodeId → Arena
  | [] => a
  | id :: ids => (a.modify id fun r => { r with slot := slot }).setSlots (slot + 1) ids

/-- The arena with the right places given to the children of a branch, from a place on. -/
def renumber (a : Arena) (parent : NodeId) (slot : Nat) : Arena :=
  a.setSlots slot ((a.childrenOf parent).drop slot)

/-- The arena with the nodes of a stack, and those inside them, no longer attached, where at most
a number of nodes are met. -/
def strike (a : Arena) : Nat → List NodeId → Arena
  | _, [] => a
  | 0, _ :: _ => a
  | n + 1, id :: stack =>
    let struck := a.modify id fun r => { r with attached := false }
    struck.strike n ((a.childrenOf id).reverse ++ stack)

/-- The arena with a node, and all inside it, no longer attached. -/
def detach (a : Arena) (id : NodeId) : Arena :=
  (a.strike a.size [id]).modify id fun r => { r with parent := none }

/-! ### Edits -/

/-- The place of a node and a new node for an edit there, or why one of them is refused. -/
def accept (a : Arena) (id : NodeId) (new : NewNode) : Except Fault (NodeId × Nat) :=
  match a.locate id with
  | .error fault => .error fault
  | .ok place =>
    match new.fault? with
    | some fault => .error fault
    | none => .ok place

/-- Putting a new node at a place among the children of a branch. -/
def insertAt (a : Arena) (parent : NodeId) (slot : Nat) (new : NewNode) : NodeId × Arena :=
  let (id, made) := a.alloc new parent slot
  (id, (made.setChildren parent ((made.childrenOf parent).insertIdx slot id)).renumber parent
    (slot + 1))

/-- Putting a new node just before a node. -/
def insertBefore (a : Arena) (anchor : NodeId) (new : NewNode) :
    Except Fault (NodeId × Arena) :=
  (a.accept anchor new).map fun place => a.insertAt place.1 place.2 new

/-- Putting a new node just after a node. -/
def insertAfter (a : Arena) (anchor : NodeId) (new : NewNode) :
    Except Fault (NodeId × Arena) :=
  (a.accept anchor new).map fun place => a.insertAt place.1 (place.2 + 1) new

/-- Taking a node out, with everything inside it. -/
def remove (a : Arena) (id : NodeId) : Except Fault Arena :=
  (a.locate id).map fun place =>
    ((a.setChildren place.1 ((a.childrenOf place.1).eraseIdx place.2)).renumber place.1
      place.2).detach id

/-- Putting a new node in the place of a node. -/
def replace (a : Arena) (id : NodeId) (new : NewNode) : Except Fault (NodeId × Arena) :=
  (a.accept id new).map fun place =>
    let (added, made) := a.alloc new place.1 place.2
    (added, (made.setChildren place.1 ((made.childrenOf place.1).set place.2 added)).detach id)

/-- Setting the white space just before a node. -/
def setSpaceBefore (a : Arena) (id : NodeId) (text : String) :
    Except Fault (Option NodeId × Arena) :=
  match Tree.spaceFault? text with
  | some fault => .error fault
  | none =>
    match a.locate id with
    | .error fault => .error fault
    | .ok _ =>
      match (a.prevLeaf? id).filter a.isWhitespace with
      | some old =>
        if text = "" then (a.remove old).map fun b => (none, b)
        else if a.leafText? old = some text then .ok (some old, a)
        else (a.replace old (.whitespace text)).map fun r => (some r.1, r.2)
      | none =>
        if text = "" then .ok (none, a)
        else (a.insertBefore id (.whitespace text)).map fun r => (some r.1, r.2)

end Arena

/-- An edit and what it is made at and with. -/
inductive Edit where
  | insertBefore (anchor : NodeId) (new : NewNode)
  | insertAfter (anchor : NodeId) (new : NewNode)
  | remove (id : NodeId)
  | replace (id : NodeId) (new : NewNode)
  | setSpaceBefore (id : NodeId) (text : String)
  deriving DecidableEq, Repr

/-- An edit of a tree.  The result is the number of the node that is new or that the edit is
about, if there is one, and the tree. -/
def Tree.edit (t : Tree) : Edit → Except Fault (Option NodeId × Tree)
  | .insertBefore anchor new => (t.insertBefore anchor new).map fun r => (some r.1, r.2)
  | .insertAfter anchor new => (t.insertAfter anchor new).map fun r => (some r.1, r.2)
  | .remove id => (t.remove id).map fun u => (none, u)
  | .replace id new => (t.replace id new).map fun r => (some r.1, r.2)
  | .setSpaceBefore id text => t.setSpaceBefore id text

/-- An edit of an arena, with the result that the edit of a tree has. -/
def Arena.edit (a : Arena) : Edit → Except Fault (Option NodeId × Arena)
  | .insertBefore anchor new => (a.insertBefore anchor new).map fun r => (some r.1, r.2)
  | .insertAfter anchor new => (a.insertAfter anchor new).map fun r => (some r.1, r.2)
  | .remove id => (a.remove id).map fun b => (none, b)
  | .replace id new => (a.replace id new).map fun r => (some r.1, r.2)
  | .setSpaceBefore id text => a.setSpaceBefore id text

/-- The arena after a list of edits, of which those that are refused change nothing. -/
def Arena.edits (a : Arena) : List Edit → Arena
  | [] => a
  | e :: es =>
    match a.edit e with
    | .ok (_, b) => b.edits es
    | .error _ => a.edits es

end Fettle
