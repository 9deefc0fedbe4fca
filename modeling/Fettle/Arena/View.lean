import Fettle.Arena.Basic

/-!
# Reading an arena

The leaves of an arena, the text under a node, its length in bytes and the offset at which it
starts are read off the table by going down or up along the links.  On any table the way down is
no longer than there are records, and neither is the way up.
-/

namespace Fettle

namespace Arena

/-- The leaves met from the root on. -/
def leaves (a : Arena) : List NodeId :=
  a.preOrder.filter a.isLeaf

/-- The nodes met from a node on, the node itself being the first. -/
def inside (a : Arena) (id : NodeId) : List NodeId :=
  a.walk a.size [id]

/-- The construct that a branch stands for. -/
def label? (a : Arena) (id : NodeId) : Option String :=
  (a.get? id).bind Record.label

/-- The text under a node, at most a number of levels down. -/
def textWithin (a : Arena) : Nat → NodeId → String
  | 0, _ => ""
  | n + 1, id =>
    match a.get? id with
    | none => ""
    | some r =>
      if r.kind.isComposite then String.join (r.children.map (a.textWithin n)) else r.text

/-- The text under a node. -/
def textOf (a : Arena) (id : NodeId) : String :=
  a.textWithin a.size id

/-- The document. -/
def text (a : Arena) : String :=
  a.textOf a.root

/-- The length in bytes of the text under a node, at most a number of levels down. -/
def textLengthWithin (a : Arena) : Nat → NodeId → Nat
  | 0, _ => 0
  | n + 1, id =>
    match a.get? id with
    | none => 0
    | some r =>
      if r.kind.isComposite then
        r.children.foldr (fun child sum => a.textLengthWithin n child + sum) 0
      else r.text.utf8ByteSize

/-- The length in bytes of the text under a node. -/
def textLengthOf (a : Arena) (id : NodeId) : Nat :=
  a.textLengthWithin a.size id

/-- The length in bytes of the text under some nodes. -/
def textLengthOfAll (a : Arena) (ids : List NodeId) : Nat :=
  ids.foldr (fun id sum => a.textLengthOf id + sum) 0

/-- The length in bytes of the text on the left of a node, at most a number of levels up. -/
def offsetWithin (a : Arena) : Nat → NodeId → Nat
  | 0, _ => 0
  | n + 1, id =>
    match a.place? id with
    | none => 0
    | some (p, slot) => a.textLengthOfAll ((a.childrenOf p).take slot) + a.offsetWithin n p

/-- The offset of a node in the document, in bytes; `0` for a node that is not attached. -/
def startOffset (a : Arena) (id : NodeId) : Nat :=
  a.offsetWithin a.size id

end Arena

end Fettle
