import Fettle.Arena.Edit

/-!
# Editing an arena in place

An `Action` goes through steps that read an arena and change it in place.  A step may fail; what
was changed before it then stays changed.  The edits are actions that look at the node, and at
the new node, before they change anything; `Edit.perform` is the action of an edit.
-/

namespace Fettle

/-- Steps that read and change an arena in place and may fail. -/
abbrev Action (α : Type) := EStateM Fault Arena α

namespace Action

/-- Finding the parent of a node and its place there. -/
def locate (id : NodeId) : Action (NodeId × Nat) := do
  match (← get).locate id with
  | .error fault => throw fault
  | .ok place => return place

/-- Failing if there is a fault. -/
def check (fault? : Option Fault) : Action Unit :=
  match fault? with
  | some fault => throw fault
  | none => return ()

/-- Making the records of a new node with a given place.  The result is its number. -/
def alloc (new : NewNode) (parent : NodeId) (slot : Nat) : Action NodeId :=
  modifyGet fun a => a.alloc new parent slot

/-- Changing the list of children of a branch. -/
def mapChildren (parent : NodeId) (f : List NodeId → List NodeId) : Action Unit :=
  modify fun a => a.setChildren parent (f (a.childrenOf parent))

/-- Giving the right places to the children of a branch, from a place on. -/
def renumber (parent : NodeId) (slot : Nat) : Action Unit :=
  modify fun a => a.renumber parent slot

/-- Taking the flag from a node and all inside it. -/
def detach (id : NodeId) : Action Unit :=
  modify fun a => a.detach id

/-- Putting a new node just before a node. -/
def insertBefore (anchor : NodeId) (new : NewNode) : Action NodeId := do
  let (parent, slot) ← locate anchor
  check new.fault?
  let id ← alloc new parent slot
  mapChildren parent fun ids => ids.insertIdx slot id
  renumber parent (slot + 1)
  return id

/-- Putting a new node just after a node. -/
def insertAfter (anchor : NodeId) (new : NewNode) : Action NodeId := do
  let (parent, slot) ← locate anchor
  check new.fault?
  let id ← alloc new parent (slot + 1)
  mapChildren parent fun ids => ids.insertIdx (slot + 1) id
  renumber parent (slot + 2)
  return id

/-- Taking a node out, with everything inside it. -/
def remove (id : NodeId) : Action Unit := do
  let (parent, slot) ← locate id
  mapChildren parent fun ids => ids.eraseIdx slot
  renumber parent slot
  detach id

/-- Putting a new node in the place of a node. -/
def replace (id : NodeId) (new : NewNode) : Action NodeId := do
  let (parent, slot) ← locate id
  check new.fault?
  let added ← alloc new parent slot
  mapChildren parent fun ids => ids.set slot added
  detach id
  return added

/-- Setting the white space just before a node. -/
def setSpaceBefore (id : NodeId) (text : String) : Action (Option NodeId) := do
  check (Tree.spaceFault? text)
  let _ ← locate id
  let a ← get
  match (a.prevLeaf? id).filter a.isWhitespace with
  | some old =>
    if text = "" then
      remove old
      return none
    else if a.leafText? old = some text then
      return some old
    else
      return some (← replace old (.whitespace text))
  | none =>
    if text = "" then
      return none
    else
      return some (← insertBefore id (.whitespace text))

end Action

/-- The action of an edit, with the result that the edit has. -/
def Edit.perform : Edit → Action (Option NodeId)
  | .insertBefore anchor new => do return some (← Action.insertBefore anchor new)
  | .insertAfter anchor new => do return some (← Action.insertAfter anchor new)
  | .remove id => do
    Action.remove id
    return none
  | .replace id new => do return some (← Action.replace id new)
  | .setSpaceBefore id text => Action.setSpaceBefore id text

end Fettle
