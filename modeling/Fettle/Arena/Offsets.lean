import Fettle.Arena.View

/-!
# Tables of offsets

`Arena.offsets` finds the offsets of all attached nodes in one walk from the root, with a stack of
the nodes that are still to come.  While detection goes over a document, the offset of a node is
looked up in the table; while fixes are made, it is counted anew (`Arena.visitOffset`).

Nothing bounds the walk, and on a table whose links run in circles it never ends.  So it is given a
number of steps, and there is no table of offsets if they do not suffice.
-/

namespace Fettle

/-- The offsets of nodes in the document by number, in bytes; a number of no attached node has
none. -/
structure OffsetTable where
  starts : Array (Option Nat)
  deriving DecidableEq, Repr

namespace OffsetTable

/-- The table without offsets for a number of nodes. -/
def blank (size : Nat) : OffsetTable := ⟨Array.replicate size none⟩

/-- The offset of a node. -/
def get? (table : OffsetTable) (id : NodeId) : Option Nat :=
  table.starts[id]?.join

/-- The table with the offset of a node. -/
def put (table : OffsetTable) (id : NodeId) (offset : Nat) : OffsetTable :=
  ⟨table.starts.setIfInBounds id (some offset)⟩

end OffsetTable

namespace Arena

/-- The table after the walk from a stack of nodes on, where the first of them starts at `running`.
A number of no node is passed over. -/
def offsetsFrom (a : Arena) : Nat → Nat → OffsetTable → List NodeId → Option OffsetTable
  | _, _, table, [] => some table
  | 0, _, _, _ :: _ => none
  | steps + 1, running, table, id :: stack =>
    match a.get? id with
    | none => a.offsetsFrom steps running table stack
    | some r =>
      if r.kind.isComposite then
        a.offsetsFrom steps running (table.put id running) (r.children ++ stack)
      else a.offsetsFrom steps (running + r.text.utf8ByteSize) (table.put id running) stack

/-- The offsets of all attached nodes, if they are found in a number of steps. -/
def offsets (a : Arena) (steps : Nat) : Option OffsetTable :=
  a.offsetsFrom steps 0 (.blank a.size) [a.root]

/-- The offset of a node for a visit, which may have a table of offsets. -/
def visitOffset (a : Arena) (table? : Option OffsetTable) (id : NodeId) : Nat :=
  match table? with
  | some table => (table.get? id).getD (a.startOffset id)
  | none => a.startOffset id

end Arena

end Fettle
