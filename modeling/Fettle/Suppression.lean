import Fettle.Directive
import Fettle.Position
import Fettle.Tree.Basic

/-!
# Suppression

The directives in the comments of a tree switch rules off for parts of the document, its
*spans*.  An end-of-line comment switches rules off on the line on which it starts, the line
feed included; it never switches rules on.  A block comment switches rules off from its start
to the next block comment that switches them on again, or to the end of the document, the end
itself included.

`Suppression.spans` walks over the leaves and keeps the spans that are still open; a directive
that switches some rules on closes all open spans and opens each again without those rules.
-/

namespace Fettle

/-- The rules that a span covers. -/
inductive Selector where
  | all
  | except (ids : List RuleId)
  | only (ids : List RuleId)
  deriving DecidableEq, Repr

namespace Selector

/-- Whether a rule is covered. -/
def covers : Selector → RuleId → Bool
  | all, _ => true
  | except ids, r => !ids.contains r
  | only ids, r => ids.contains r

/-- The selector of the rules that a directive names. -/
def ofNamed : Named → Selector
  | .all => all
  | .listed ids => only ids

/-- What is left of a selector without some rules. -/
def without (ids : List RuleId) : Selector → Option Selector
  | all => some (except ids)
  | except others => some (except (sortedIds (others ++ ids)))
  | only others =>
    match others.filter (!ids.contains ·) with
    | [] => none
    | rest => some (only rest)

theorem covers_ofNamed (n : Named) (r : RuleId) :
  (ofNamed n).covers r = n.covers r
  := by
  cases n <;> rfl

/-- A rule is covered by what is left exactly if it was covered and is not taken out. -/
theorem covers_without (s : Selector) (ids : List RuleId) (r : RuleId) :
  ((s.without ids).elim false fun t => t.covers r) = (s.covers r && !ids.contains r)
  := by
  cases s with
  | all => simp [without, covers]
  | except others =>
    simp only [without, Option.elim_some, covers, List.contains_eq_mem, mem_sortedIds,
      List.mem_append, Bool.decide_or, Bool.not_or]
  | only others =>
    rw [without]
    split
    · rename_i h
      simp only [Option.elim_none, covers]
      symm
      rw [Bool.and_eq_false_iff]
      by_cases hr : others.contains r = true
      · right
        have := List.filter_eq_nil_iff.mp h r (by simpa using hr)
        simpa using this
      · left
        simpa using hr
    · simp only [Option.elim_some, covers, List.contains_eq_mem, List.mem_filter,
        Bool.decide_and, Bool.decide_eq_true]

end Selector

/-- A part of the document, from `start` up to but not at `stop`, and the rules that are
switched off in it. -/
structure Span where
  start : Nat
  stop : Nat
  rules : Selector
  deriving DecidableEq, Repr

/-- Whether a span switches a rule off at an offset. -/
def Span.covers (s : Span) (offset : Nat) (r : RuleId) : Bool :=
  s.start ≤ offset && offset < s.stop && s.rules.covers r

/-- A span whose end has not been met. -/
structure OpenSpan where
  start : Nat
  rules : Selector
  deriving DecidableEq, Repr

/-- An open span that ends at an offset. -/
def OpenSpan.close (stop : Nat) (s : OpenSpan) : Span :=
  ⟨s.start, stop, s.rules⟩

/-- The span of a line, its line feed included, and the rules switched off on it. -/
def Span.ofLine (text : String) (offset : Nat) (rules : Selector) : Span :=
  ⟨lineStart text offset, lineEnd text offset + 1, rules⟩

namespace Suppression

/-- What a directive in a comment at an offset does: the spans that it ends or that are its
own, and the spans that are open after it. -/
def apply (text : String) (kind : Kind) (offset : Nat) (opened : List OpenSpan) :
    Directive → List Span × List OpenSpan
  | ⟨.disable, rules⟩ =>
    if kind = .eolComment then ([.ofLine text offset (.ofNamed rules)], opened)
    else ([], opened ++ [⟨offset, .ofNamed rules⟩])
  | ⟨.enable, rules⟩ =>
    if kind = .eolComment then ([], opened)
    else
      match rules with
      | .all => (opened.map (OpenSpan.close offset), [])
      | .listed ids =>
        (opened.map (OpenSpan.close offset),
          opened.filterMap fun s => (s.rules.without ids).map (⟨offset, ·⟩))

/-- The directive that a leaf is. -/
def directive? (l : Leaf NodeId) : Option Directive :=
  if l.kind.isComment then Directive.parse? l.text else none

/-- The spans of leaves that start at an offset, where some spans are open. -/
def scan (text : String) (offset : Nat) (opened : List OpenSpan) :
    List (Leaf NodeId) → List Span
  | [] => opened.map (OpenSpan.close (offset + 1))
  | l :: ls =>
    let rest := offset + l.text.utf8ByteSize
    match directive? l with
    | none => scan text rest opened ls
    | some d =>
      let (closed, opened) := apply text l.kind offset opened d
      closed ++ scan text rest opened ls

/-- The spans of a tree that are not empty, in the order in which their ends are met. -/
def spans (t : Tree) : List Span :=
  (scan t.text 0 [] t.leaves).filter fun s => s.start < s.stop

/-- Whether one of some spans switches a rule off at an offset. -/
def isSuppressed (spans : List Span) (offset : Nat) (r : RuleId) : Bool :=
  spans.any fun s => s.covers offset r

end Suppression

end Fettle
