import Fettle.Tree.Edit

/-!
# Construction events

A tree is made from a list of events, which open a branch, add a leaf or close the
innermost open branch.  `Tree.ofEvents` accepts the lists that describe exactly one tree.
A leaf with no text is passed over.

`Progress` is how far a list of events has come; it decides which event is out of place.
`assemble` is the forest that the events describe, and `Forest.events` the events that
describe a forest.
-/

namespace Fettle

/-- A step in the construction of a tree. -/
inductive Event where
  | start (kind : Kind) (label : Option String)
  | token (kind : Kind) (text : String)
  | finish
  deriving DecidableEq, Repr

/-- How far a construction has come: not begun, inside a number of open branches, or past
the end of the root. -/
inductive Progress where
  | fresh
  | inside (outer : Nat)
  | closed
  deriving DecidableEq, Repr

namespace Progress

/-- The state after opening a branch. -/
def opened : Progress → Except Fault Progress
  | fresh => .ok (inside 0)
  | inside outer => .ok (inside (outer + 1))
  | closed => .error (.construction .secondRoot)

/-- The state after closing a branch. -/
def finished : Progress → Except Fault Progress
  | inside 0 => .ok closed
  | inside (outer + 1) => .ok (inside outer)
  | fresh | closed => .error (.construction .closeWithoutOpen)

/-- The state after an event, or what is wrong with the event. -/
def step (p : Progress) : Event → Except Fault Progress
  | .start kind _ =>
    match branchFault? kind with
    | some fault => .error fault
    | none => p.opened
  | .token kind text =>
    if text = "" then .ok p
    else match p with
      | inside _ =>
        match leafFault? kind text with
        | some fault => .error fault
        | none => .ok p
      | fresh | closed => .error (.construction .tokenOutside)
  | .finish => p.finished

/-- The state after a list of events, or what is wrong with the first event out of place. -/
def run (p : Progress) : List Event → Except Fault Progress
  | [] => .ok p
  | e :: es =>
    match p.step e with
    | .error fault => .error fault
    | .ok p' => p'.run es

end Progress

/-- The events that describe a forest. -/
def Forest.events {ι : Type} : Forest ι → List Event
  | .nil => []
  | .leaf _ k s rest => .token k s :: rest.events
  | .branch _ k l cs rest => .start k l :: (cs.events ++ .finish :: rest.events)

/-- The forest that the events describe up to the close of the branch they are in, and the
forests that follow in the branches around it. -/
def assemble : List Event → Draft × List Draft
  | [] => (.nil, [])
  | .token k s :: es =>
    if s = "" then assemble es
    else (.leaf () k s (assemble es).1, (assemble es).2)
  | .finish :: es => (.nil, (assemble es).1 :: (assemble es).2)
  | .start k l :: es =>
    match assemble es with
    | (cs, []) => (.branch () k l cs .nil, [])
    | (cs, rest :: outer) => (.branch () k l cs rest, outer)

/-- The events of a forest are assembled to it in front of what follows. -/
theorem assemble_events_append {f : Draft} (h : f.fault? = none) (es : List Event) :
  assemble (f.events ++ es) = (f ++ (assemble es).1, (assemble es).2)
  := by
  induction f generalizing es with
  | nil => simp [Forest.events]
  | leaf i k s rest ih =>
    rw [Forest.fault?, Option.or_eq_none_iff] at h
    have hs := (leafFault?_eq_none_iff.mp h.1).2.1
    simp [Forest.events, assemble, hs, ih h.2]
  | branch i k l cs rest ihc ih =>
    simp only [Forest.fault?, Option.or_eq_none_iff] at h
    simp [Forest.events, assemble, ihc h.2.1, ih h.2.2]

namespace Tree

/-- The tree with a root of a given kind and content, numbered in pre-order. -/
def ofRoot (kind : Kind) (label : Option String) (children : Draft) : Tree where
  rootKind := kind
  rootLabel := label
  children := children.number 1
  removed := .nil
  size := children.size + 1

/-- The tree that a list of events describes.  The fault of the first event out of place
comes before a root that is left open or missing. -/
def ofEvents (es : List Event) : Except Fault Tree :=
  match Progress.fresh.run es with
  | .error fault => .error fault
  | .ok (.inside outer) => .error (.construction (.leftOpen (outer + 1)))
  | .ok .fresh => .error (.construction .noRoot)
  | .ok .closed =>
    match (assemble es).1 with
    | .branch _ k l cs _ => .ok (ofRoot k l cs)
    | _ => .error (.construction .noRoot)

/-- A file whose leaves are given. -/
def ofLeaves (leaves : List (Kind × String)) : Except Fault Tree :=
  ofEvents (.start .file none :: leaves.map (fun l => .token l.1 l.2) ++ [.finish])

end Tree

end Fettle
