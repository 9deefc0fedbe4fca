import Fettle.Tree.Navigation

/-!
# Editing

The edits put a new node before or after an attached node or in its place, take an
attached node out, or set the white space before it.  Each names the node it works at by
number; the root cannot be one.  All come down to `Forest.splice`, which puts a forest in
the place of one tree.

A new node is numbered in pre-order from the tree's `size` on.  An edit that is refused
yields a fault and no tree: of two faults, the one of the node comes before the one of
the new node.
-/

namespace Fettle

namespace Forest

variable {ι : Type}

/-- The forest with numbers for labels, given in pre-order from `n` on. -/
def number : Forest ι → Nat → Forest NodeId
  | nil, _ => nil
  | leaf _ k s rest, n => leaf n k s (rest.number (n + 1))
  | branch _ k l cs rest, n =>
    branch n k l (cs.number (n + 1)) (rest.number (n + 1 + cs.size))

/-- The forest without its labels. -/
def draft : Forest ι → Draft
  | nil => nil
  | leaf _ k s rest => leaf () k s rest.draft
  | branch _ k l cs rest => branch () k l cs.draft rest.draft

@[simp]
theorem draft_number (f : Forest ι) (n : Nat) :
  (f.number n).draft = f.draft
  := by
  induction f generalizing n with
  | nil => rfl
  | leaf i k s rest ih => simp [number, draft, ih]
  | branch i k l cs rest ihc ih => simp [number, draft, ihc, ih]

@[simp]
theorem size_number (f : Forest ι) (n : Nat) :
  (f.number n).size = f.size
  := by
  induction f generalizing n with
  | nil => rfl
  | leaf i k s rest ih => simp [number, size, ih]
  | branch i k l cs rest ihc ih => simp [number, size, ihc, ih]

@[simp]
theorem text_number (f : Forest ι) (n : Nat) :
  (f.number n).text = f.text
  := by
  induction f generalizing n with
  | nil => rfl
  | leaf i k s rest ih => simp [number, text, ih]
  | branch i k l cs rest ihc ih => simp [number, text, ihc, ih]

/-- The numbers given are the next ones, in order. -/
theorem ids_number (f : Forest ι) (n : Nat) :
  (f.number n).ids = List.range' n f.size
  := by
  induction f generalizing n with
  | nil => rfl
  | leaf i k s rest ih => rw [number, ids, ih, size, List.range'_succ]
  | branch i k l cs rest ihc ih =>
    rw [number, ids, ihc, ih, size, List.range'_succ, ← List.range'_append]
    simp

/-- Putting `f n` in the place of every tree `n` whose root has a given label. -/
def splice [DecidableEq ι] (id : ι) (f : Forest ι → Forest ι) : Forest ι → Forest ι
  | nil => nil
  | leaf i k s rest =>
    if i = id then f (leaf i k s nil) ++ rest else leaf i k s (rest.splice id f)
  | branch i k l cs rest =>
    if i = id then f (branch i k l cs nil) ++ rest
    else branch i k l (cs.splice id f) (rest.splice id f)

end Forest

namespace Tree

/-- Why no edit can be made at a node: it does not exist, it is removed, or it is the
root. -/
def anchorFault? (t : Tree) (id : NodeId) : Option Fault :=
  if t.size ≤ id then some (.unknownNode id)
  else if !t.isAttached id then some (.detached id)
  else if id = root then some (.rootAnchor id)
  else none

/-- The tree with `f n` in the place of the tree `n` under a node, after `count` new
nodes were made. -/
def spliced (t : Tree) (id : NodeId) (f : Forest NodeId → Forest NodeId) (count : Nat) :
    Tree :=
  { t with children := t.children.splice id f, size := t.size + count }

/-- The tree with the tree under a node among the removed ones. -/
def retire (t : Tree) (id : NodeId) : Tree :=
  match t.children.find? id with
  | some n => { t with removed := n.toForest ++ t.removed }
  | none => t

/-- Putting a new node just before a node.  The result is the number of the new node and
the tree with it. -/
def insertBefore (t : Tree) (anchor : NodeId) (new : NewNode) :
    Except Fault (NodeId × Tree) :=
  match (t.anchorFault? anchor).or new.fault? with
  | some fault => .error fault
  | none =>
    let added := new.toForest.number t.size
    .ok (t.size, t.spliced anchor (fun n => added ++ n) added.size)

/-- Putting a new node just after a node. -/
def insertAfter (t : Tree) (anchor : NodeId) (new : NewNode) :
    Except Fault (NodeId × Tree) :=
  match (t.anchorFault? anchor).or new.fault? with
  | some fault => .error fault
  | none =>
    let added := new.toForest.number t.size
    .ok (t.size, t.spliced anchor (fun n => n ++ added) added.size)

/-- Taking a node out, with everything inside it. -/
def remove (t : Tree) (id : NodeId) : Except Fault Tree :=
  match t.anchorFault? id with
  | some fault => .error fault
  | none => .ok ((t.retire id).spliced id (fun _ => .nil) 0)

/-- Putting a new node in the place of a node. -/
def replace (t : Tree) (id : NodeId) (new : NewNode) : Except Fault (NodeId × Tree) :=
  match (t.anchorFault? id).or new.fault? with
  | some fault => .error fault
  | none =>
    let added := new.toForest.number t.size
    .ok (t.size, (t.retire id).spliced id (fun _ => added) added.size)

/-- What is wrong with a text as white space; no text at all is fine. -/
def spaceFault? (text : String) : Option Fault :=
  if text = "" then none else leafFault? .whitespace text

/-- Setting the white space just before a node.  The result is the number of the white
space leaf, if there is one then, and the tree. -/
def setSpaceBefore (t : Tree) (id : NodeId) (text : String) :
    Except Fault (Option NodeId × Tree) :=
  match (spaceFault? text).or (t.anchorFault? id) with
  | some fault => .error fault
  | none =>
    match (t.prevLeaf? id).filter fun l => l.kind = .whitespace with
    | some old =>
      if text = "" then (t.remove old.id).map fun t' => (none, t')
      else if old.text = text then .ok (some old.id, t)
      else (t.replace old.id (.whitespace text)).map fun r => (some r.1, r.2)
    | none =>
      if text = "" then .ok (none, t)
      else (t.insertBefore id (.whitespace text)).map fun r => (some r.1, r.2)

end Tree

end Fettle
