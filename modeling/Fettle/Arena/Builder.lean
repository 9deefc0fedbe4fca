import Fettle.Arena.Edit
import Fettle.Tree.Event

/-!
# Building an arena

A `Builder` takes construction events one after the other.  It keeps the nodes made so far, the
branches that are open, the innermost first, and the first fault; a fault does not stop it, but
`finish` then yields the fault instead of the arena.
-/

namespace Fettle

/-- The state of a construction. -/
structure Builder where
  arena : Arena
  opened : List NodeId
  root : Option NodeId
  fault : Option Fault
  deriving DecidableEq, Repr

namespace Builder

/-- The state before any event. -/
def initial : Builder := ⟨.empty, [], none, none⟩

/-- The state with a fault, unless there was one before. -/
def fail (b : Builder) (fault : Fault) : Builder :=
  { b with fault := b.fault.or (some fault) }

/-- The state with one more node, of which the record is given up to its place.  It is put into
the innermost open branch, and is the root if no branch is open. -/
def push (b : Builder) (record : Option NodeId → Nat → Record) : Builder :=
  match b.opened with
  | parent :: _ =>
    let slot := (b.arena.childrenOf parent).length
    { b with arena := (b.arena.adopt parent b.arena.size).push (record (some parent) slot) }
  | [] =>
    let placed := { b with arena := b.arena.push (record none 0) }
    match b.root with
    | some _ => placed.fail (.construction .secondRoot)
    | none => { placed with root := some b.arena.size }

/-- The state after an event. -/
def step (b : Builder) : Event → Builder
  | .start kind label =>
    match branchFault? kind with
    | some fault => b.fail fault
    | none => { b.push (.ofBranch kind label) with opened := b.arena.size :: b.opened }
  | .token kind text =>
    if text = "" then b
    else match b.opened with
      | [] => b.fail (.construction .tokenOutside)
      | _ :: _ =>
        match leafFault? kind text with
        | some fault => b.fail fault
        | none => b.push (.ofLeaf kind text)
  | .finish =>
    match b.opened with
    | [] => b.fail (.construction .closeWithoutOpen)
    | _ :: outer => { b with opened := outer }

/-- The arena that was built, or why there is none. -/
def finish (b : Builder) : Except Fault Arena :=
  match b.fault with
  | some fault => .error fault
  | none =>
    match b.opened with
    | _ :: outer => .error (.construction (.leftOpen (outer.length + 1)))
    | [] =>
      match b.root with
      | none => .error (.construction .noRoot)
      | some root => .ok { b.arena with root := root }

end Builder

namespace Arena

/-- The arena that a list of events describes. -/
def ofEvents (es : List Event) : Except Fault Arena :=
  (es.foldl Builder.step .initial).finish

/-- A file whose leaves are given. -/
def ofLeaves (leaves : List (Kind × String)) : Except Fault Arena :=
  ofEvents (.start .file none :: leaves.map (fun l => .token l.1 l.2) ++ [.finish])

end Arena

end Fettle
