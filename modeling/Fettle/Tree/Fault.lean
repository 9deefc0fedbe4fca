import Fettle.Text.Blank
import Fettle.Text.Quoted
import Fettle.Tree.Forest

/-!
# Faults

A `Fault` says why a node cannot be edited, why a new node is refused, why a sequence of
construction events makes no tree, or which part of a tree is not in order.
`Fault.message` words it.

`leafFault?` and `Forest.fault?` find what is wrong with the kinds and texts of nodes:
branches have composite kinds; leaves have leaf kinds and non-empty text; whitespace
leaves hold nothing but white space.
-/

namespace Fettle

/-- The number of a node.  Numbers are given in the order in which nodes are made, and
never again. -/
abbrev NodeId := Nat

/-- Why construction events make no tree. -/
inductive ConstructionFault where
  | tokenOutside
  | closeWithoutOpen
  | secondRoot
  | leftOpen (count : Nat)
  | noRoot
  deriving DecidableEq, Repr

/-- What is wrong with a tree, an edit or a new node. -/
inductive Fault where
  | unknownNode (id : NodeId)
  | detached (id : NodeId)
  | rootAnchor (id : NodeId)
  | leafKindAsComposite (kind : Kind)
  | compositeKindAsLeaf (kind : Kind)
  | emptyLeaf (kind : Kind)
  | invalidWhitespace (text : String)
  | brokenLink (parent child : NodeId)
  | readOnly
  | construction (fault : ConstructionFault)
  deriving DecidableEq, Repr

/-- The wording of a construction fault. -/
def ConstructionFault.message : ConstructionFault → String
  | tokenOutside => "token outside of any node"
  | closeWithoutOpen => "finish_node without start_node"
  | secondRoot => "more than one root node"
  | leftOpen count => toString count ++ " node(s) left open"
  | noRoot => "no root node"

/-- How a node is named in messages. -/
def nodeName (id : NodeId) : String :=
  "NodeId(" ++ toString id ++ ")"

/-- The wording of a fault. -/
def Fault.message : Fault → String
  | unknownNode id => "node " ++ nodeName id ++ " does not exist in this tree"
  | detached id => "node " ++ nodeName id ++ " is detached from the tree"
  | rootAnchor id =>
    "node " ++ nodeName id ++ " is the root and cannot be used as a sibling anchor"
  | leafKindAsComposite kind => kind.name ++ " is a leaf type and cannot hold children"
  | compositeKindAsLeaf kind => kind.name ++ " is a composite type and cannot hold text"
  | emptyLeaf kind => kind.name ++ " leaf must have non-empty text"
  | invalidWhitespace text =>
    "whitespace leaf contains non-whitespace text " ++ Text.quoted text
  | brokenLink parent child =>
    "child " ++ nodeName child ++ " is not linked to parent " ++ nodeName parent
  | readOnly => "the tree is read-only while autocorrect is disabled"
  | construction fault => "invalid tree construction: " ++ fault.message

/-- What is wrong with a leaf of a given kind and text. -/
def leafFault? (kind : Kind) (text : String) : Option Fault :=
  if kind.isComposite then some (.compositeKindAsLeaf kind)
  else if text = "" then some (.emptyLeaf kind)
  else if kind = .whitespace ∧ ¬ text.toList.all Text.isBlank then
    some (.invalidWhitespace text)
  else none

theorem leafFault?_eq_none_iff {kind : Kind} {text : String} :
  leafFault? kind text = none
    ↔ kind.isComposite = false ∧ text ≠ ""
      ∧ (kind = .whitespace → text.toList.all Text.isBlank = true)
  := by
  rw [leafFault?]
  split
  · simp_all
  · split
    · simp_all
    · split
      · simp_all
      · simp_all

/-- What is wrong with a branch of a given kind. -/
def branchFault? (kind : Kind) : Option Fault :=
  if kind.isComposite then none else some (.leafKindAsComposite kind)

/-- The first thing wrong with the nodes of a forest, in pre-order. -/
def Forest.fault? {ι : Type} : Forest ι → Option Fault
  | .nil => none
  | .leaf _ k s rest => (leafFault? k s).or rest.fault?
  | .branch _ k _ cs rest => (branchFault? k).or (cs.fault?.or rest.fault?)

/-- The first thing wrong with the nodes of a tree, in pre-order. -/
def Node.fault? {ι : Type} (n : Node ι) : Option Fault :=
  n.toForest.fault?

@[simp]
theorem Forest.fault?_append {ι : Type} (f g : Forest ι) :
  (f ++ g).fault? = f.fault?.or g.fault?
  := by
  induction f with
  | nil => rfl
  | leaf i k s rest ih => rw [leaf_append, fault?, fault?, ih, Option.or_assoc]
  | branch i k l cs rest _ ih =>
    rw [branch_append, fault?, fault?, ih]
    simp only [Option.or_assoc]

end Fettle
