import Fettle.Arena.Builder
import Fettle.Proofs.Arena.Refine

/-!
# Arenas made from construction events

The builder makes the records of a node when it meets the event that opens it; `assemble` reads
the events from the back.  The two meet in `Arena.grow`, which puts forests into the open
branches: after any events without fault the arena of the builder is grown by what the events
describe (`Builder.At.foldl`).  So the builder `Agrees` with `Tree.ofEvents`
(`Arena.ofEvents_agrees`).
-/

namespace Fettle

namespace Arena

/-! ### Changes that commute -/

theorem ext_get? {a b : Arena} (hroot : a.root = b.root) (h : ∀ j, a.get? j = b.get? j) :
  a = b
  := by
  obtain ⟨records, root⟩ := a
  obtain ⟨records', root'⟩ := b
  obtain rfl : root = root' := hroot
  obtain rfl : records = records' := by
    apply Array.ext_getElem?
    exact h
  rfl

theorem push_modify {a : Arena} {id : NodeId} (hid : id < a.size) (r : Record)
    (f : Record → Record) :
  (a.modify id f).push r = (a.push r).modify id f
  := by
  apply ext_get?
  · rfl
  · intro j
    have hne : id ≠ a.size := Nat.ne_of_lt hid
    rw [get?_push, get?_modify, get?_modify, get?_push, size_modify]
    by_cases hj : j = a.size
    · subst hj
      rw [if_pos rfl, if_neg hne, if_pos rfl]
    · rw [if_neg hj, if_neg hj]

theorem modify_modify {a : Arena} {id id' : NodeId} (h : id ≠ id') (f g : Record → Record) :
  (a.modify id f).modify id' g = (a.modify id' g).modify id f
  := by
  apply ext_get?
  · rfl
  · intro j
    simp only [get?_modify]
    by_cases hj : id = j
    · subst hj
      simp [Ne.symm h]
    · rw [if_neg hj, if_neg hj]

/-- Making nodes under a branch commutes with a change of another record. -/
theorem modify_allocUnder {a : Arena} {id parent : NodeId} (hid : id < a.size)
    (hne : id ≠ parent) (slot : Nat) (plan : Draft) (f : Record → Record) :
  (a.modify id f).allocUnder parent slot plan = (a.allocUnder parent slot plan).modify id f
  := by
  induction plan generalizing a parent slot with
  | nil => rfl
  | leaf i k x rest ih =>
    rw [allocUnder, allocUnder, size_modify, push_modify hid, adopt, modify_modify hne, ← adopt]
    apply ih _ hne
    rw [adopt, size_modify, size_push]
    apply Nat.lt_succ_of_lt hid
  | branch i k l cs rest ihc ih =>
    have hpush : id < (a.push (.ofBranch k l (some parent) slot)).size := by
      rw [size_push]
      apply Nat.lt_succ_of_lt hid
    have hself : a.size < (a.push (.ofBranch k l (some parent) slot)).size := by
      rw [size_push]
      apply Nat.lt_succ_self
    rw [allocUnder, allocUnder, size_modify, push_modify hid, ihc hpush (Nat.ne_of_lt hid), adopt,
      modify_modify hne, ← adopt]
    apply ih _ hne
    rw [adopt, size_modify, (grown_allocUnder hself 0 cs).size]
    apply Nat.lt_add_right _ hpush

/-! ### Forests for the open branches -/

/-- The arena with the nodes of a plan under each of some branches, after those they have. -/
def grow (a : Arena) : List NodeId → List Draft → Arena
  | parent :: outer, plan :: plans =>
    (a.allocUnder parent (a.childrenOf parent).length plan).grow outer plans
  | _, _ => a

theorem grow_nil (a : Arena) (parents : List NodeId) :
  a.grow parents [] = a
  := by
  cases parents <;> rfl

/-- The arena in which a new child of a branch has been made. -/
def child (a : Arena) (parent : NodeId) (record : Option NodeId → Nat → Record) : Arena :=
  (a.adopt parent a.size).push (record (some parent) (a.childrenOf parent).length)

section

variable {a : Arena} {parent : NodeId} (hp : parent < a.size)

include hp

theorem child_eq (record : Option NodeId → Nat → Record) :
  a.child parent record
    = (a.push (record (some parent) (a.childrenOf parent).length)).adopt parent a.size
  := by
  rw [child, adopt, push_modify hp, ← adopt]

omit hp in
theorem size_child (record : Option NodeId → Nat → Record) :
  (a.child parent record).size = a.size + 1
  := by
  rw [child, size_push, adopt, size_modify]

/-- The children of a branch that has adopted one more. -/
theorem childrenOf_adopt (child : NodeId) :
  (a.adopt parent child).childrenOf parent = a.childrenOf parent ++ [child]
  := by
  obtain ⟨r, hr⟩ : ∃ r, a.get? parent = some r := ⟨_, Array.getElem?_eq_getElem hp⟩
  rw [childrenOf, adopt, get?_modify_self, childrenOf, hr]
  rfl

theorem length_childrenOf_child (record : Option NodeId → Nat → Record) :
  ((a.child parent record).childrenOf parent).length = (a.childrenOf parent).length + 1
  := by
  have hne : parent ≠ (a.adopt parent a.size).size := by
    rw [adopt, size_modify]
    apply Nat.ne_of_lt hp
  rw [child, childrenOf, get?_push_of_ne _ _ hne, ← childrenOf, childrenOf_adopt hp]
  simp

/-- A leaf that is made now stands before what is made later. -/
theorem grow_child_leaf {k : Kind} {x : String} {rest : Draft} {outer : List NodeId}
    {plans : List Draft} :
  (a.child parent (.ofLeaf k x)).grow (parent :: outer) (rest :: plans)
    = a.grow (parent :: outer) (.leaf () k x rest :: plans)
  := by
  rw [grow, length_childrenOf_child hp, child_eq hp, grow, allocUnder]

/-- A branch that is made now holds what is made until it is closed. -/
theorem grow_child_branch {k : Kind} {l : Option String} {cs : Draft} {outer : List NodeId}
    {plans : List Draft} :
  (a.child parent (.ofBranch k l)).grow (a.size :: parent :: outer) (cs :: plans)
    = a.grow (parent :: outer) (.branch () k l cs (plans.headD .nil) :: plans.tail)
  := by
  obtain ⟨pushed, hpushed⟩ : ∃ pushed, pushed
      = a.push (.ofBranch k l (some parent) (a.childrenOf parent).length) := ⟨_, rfl⟩
  have hne : a.size ≠ parent := Nat.ne_of_gt hp
  have hsize : pushed.size = a.size + 1 := by
    rw [hpushed, size_push]
  have hself : a.size < pushed.size := by
    rw [hsize]
    apply Nat.lt_succ_self
  have hparent : parent < pushed.size := by
    rw [hsize]
    apply Nat.lt_succ_of_lt hp
  have hfresh : (a.child parent (.ofBranch k l)).childrenOf a.size = [] := by
    rw [child_eq hp, childrenOf, adopt, get?_modify_of_ne _ _ hne, get?_push, if_pos rfl]
    rfl
  have hmade : (a.child parent (.ofBranch k l)).allocUnder a.size 0 cs
      = (pushed.allocUnder a.size 0 cs).adopt parent a.size := by
    rw [child_eq hp, ← hpushed, adopt, modify_allocUnder hparent hne.symm, ← adopt]
  have hgrown := grown_allocUnder hself 0 cs
  have hsame : (pushed.allocUnder a.size 0 cs).childrenOf parent = a.childrenOf parent := by
    rw [childrenOf, hgrown.same parent hparent hne.symm, hpushed, get?_push_of_ne _ _ hne.symm,
      ← childrenOf]
  have hlt : parent < (pushed.allocUnder a.size 0 cs).size := by
    rw [hgrown.size]
    apply Nat.lt_add_right _ hparent
  rw [grow, hfresh, List.length_nil, hmade, grow, allocUnder, ← hpushed]
  cases plans with
  | nil =>
    rw [grow_nil, List.tail_nil, grow_nil]
    rfl
  | cons plan plans =>
    rw [grow, childrenOf_adopt hlt, hsame, List.length_append]
    rfl

end

end Arena

/-! ### Steps of the builder -/

namespace Builder

/-- The arena of a builder with what events describe in the open branches. -/
def grown (b : Builder) (es : List Event) : Arena :=
  b.arena.grow b.opened ((assemble es).1 :: (assemble es).2)

theorem grown_nil (b : Builder) :
  b.grown [] = b.arena
  := by
  rw [grown]
  cases b.opened with
  | nil => rfl
  | cons parent outer => apply Arena.grow_nil

/-- The states of a builder without fault from the root on. -/
inductive Started : Builder → Progress → Prop where
  | inside {arena : Arena} {parent : NodeId} {outer : List NodeId}
    (hlt : ∀ q ∈ parent :: outer, q < arena.size) :
    Started ⟨arena, parent :: outer, some Tree.root, none⟩ (.inside outer.length)
  | closed {arena : Arena} : Started ⟨arena, [], some Tree.root, none⟩ .closed

section

variable {arena : Arena} {parent : NodeId} {outer : List NodeId} {root : Option NodeId} {k : Kind}

/-- Opening a branch inside another one. -/
theorem step_start {l : Option String} (hk : branchFault? k = none) :
  Builder.step ⟨arena, parent :: outer, root, none⟩ (.start k l)
    = ⟨arena.child parent (.ofBranch k l), arena.size :: parent :: outer, root, none⟩
  := by
  simp [Builder.step, hk, push, Arena.child]

/-- Adding a leaf inside a branch. -/
theorem step_token {x : String} (hx : x ≠ "") (hleaf : leafFault? k x = none) :
  Builder.step ⟨arena, parent :: outer, root, none⟩ (.token k x)
    = ⟨arena.child parent (.ofLeaf k x), parent :: outer, root, none⟩
  := by
  simp [Builder.step, hx, hleaf, push, Arena.child]

end

/-- The builder keeps to the order of events, and its arena grows by what they describe. -/
theorem Started.step {b : Builder} {p p' : Progress} (h : Started b p) {e : Event}
    (he : p.step e = .ok p') :
  Started (b.step e) p' ∧ ∀ es, (b.step e).grown es = b.grown (e :: es)
  := by
  cases h with
  | @inside arena parent outer hlt =>
    have hparent : parent < arena.size := hlt parent List.mem_cons_self
    have hchild (record : Option NodeId → Nat → Record) :
        ∀ q ∈ parent :: outer, q < (arena.child parent record).size := by
      intro q hq
      rw [Arena.size_child]
      apply Nat.lt_succ_of_lt (hlt q hq)
    cases e with
    | start k l =>
      cases hk : branchFault? k with
      | some fault => simp [Progress.step, hk] at he
      | none =>
        simp only [Progress.step, hk, Progress.opened] at he
        obtain rfl := Except.ok.inj he
        rw [step_start hk]
        constructor
        · apply Started.inside
          rw [List.forall_mem_cons]
          refine ⟨?_, hchild _⟩
          rw [Arena.size_child]
          apply Nat.lt_succ_self
        · intro es
          rw [grown, grown, Arena.grow_child_branch hparent, assemble]
          cases assemble es with
          | mk cs plans => cases plans <;> rfl
    | token k x =>
      by_cases hx : x = ""
      · subst hx
        obtain rfl : Progress.inside outer.length = p' := by simpa [Progress.step] using he
        use Started.inside hlt
        intro es
        rfl
      · cases hleaf : leafFault? k x with
        | some fault => simp [Progress.step, hx, hleaf] at he
        | none =>
          obtain rfl : Progress.inside outer.length = p' := by
            simpa [Progress.step, hx, hleaf] using he
          rw [step_token hx hleaf]
          use Started.inside (hchild _)
          intro es
          rw [grown, grown, Arena.grow_child_leaf hparent, assemble, if_neg hx]
    | finish =>
      cases outer with
      | nil =>
        obtain rfl : Progress.closed = p' := by
          simpa [Progress.step, Progress.finished] using he
        use Started.closed
        intro es
        rfl
      | cons parent' outer =>
        obtain rfl : Progress.inside outer.length = p' := by
          simpa [Progress.step, Progress.finished] using he
        use Started.inside fun q hq => hlt q (List.mem_cons_of_mem _ hq)
        intro es
        rfl
  | closed =>
    cases e with
    | start k l =>
      cases hk : branchFault? k <;> simp [Progress.step, Progress.opened, hk] at he
    | token k x =>
      by_cases hx : x = ""
      · subst hx
        obtain rfl : Progress.closed = p' := by simpa [Progress.step] using he
        use Started.closed
        intro es
        rfl
      · simp [Progress.step, hx] at he
    | finish => simp [Progress.step, Progress.finished] at he

/-- The builder notes the fault of an event out of place. -/
theorem Started.step_fault {b : Builder} {p : Progress} (h : Started b p) {e : Event}
    {fault : Fault} (he : p.step e = .error fault) :
  (b.step e).fault = some fault
  := by
  cases h with
  | inside hlt =>
    cases e with
    | start k l =>
      cases hk : branchFault? k with
      | some fault' => simpa [Progress.step, Builder.step, fail, hk] using he
      | none => simp [Progress.step, Progress.opened, hk] at he
    | token k x =>
      by_cases hx : x = ""
      · simp [Progress.step, hx] at he
      · cases hleaf : leafFault? k x with
        | some fault' => simpa [Progress.step, Builder.step, fail, hx, hleaf] using he
        | none => simp [Progress.step, hx, hleaf] at he
    | finish =>
      rename_i outer
      cases outer <;> simp [Progress.step, Progress.finished] at he
  | closed =>
    cases e with
    | start k l =>
      cases hk : branchFault? k with
      | some fault' => simpa [Progress.step, Builder.step, fail, hk] using he
      | none => simpa [Progress.step, Progress.opened, Builder.step, push, fail, hk] using he
    | token k x =>
      by_cases hx : x = ""
      · simp [Progress.step, hx] at he
      · simpa [Progress.step, Builder.step, fail, hx] using he
    | finish => simpa [Progress.step, Progress.finished, Builder.step, fail] using he

section

variable {b : Builder} {fault : Fault} (h : b.fault = some fault)

include h

theorem fault_fail (fault' : Fault) :
  (b.fail fault').fault = some fault
  := by
  rw [fail, h]
  rfl

theorem fault_push (record : Option NodeId → Nat → Record) :
  (b.push record).fault = some fault
  := by
  rw [push]
  split
  · exact h
  · dsimp only
    split
    · exact fault_fail (b := { b with arena := b.arena.push (record none 0) }) h _
    · exact h

/-- The first fault stays. -/
theorem fault_step (e : Event) :
  (b.step e).fault = some fault
  := by
  cases e with
  | start k l =>
    rw [Builder.step]
    split
    · apply fault_fail h
    · apply fault_push h
  | token k x =>
    rw [Builder.step]
    split
    · exact h
    · split
      · apply fault_fail h
      · split
        · apply fault_fail h
        · apply fault_push h
  | finish =>
    rw [Builder.step]
    split
    · apply fault_fail h
    · exact h

theorem fault_foldl (es : List Event) :
  (es.foldl Builder.step b).fault = some fault
  := by
  induction es generalizing b with
  | nil => exact h
  | cons e es ih => apply ih (fault_step h e)

theorem finish_of_fault :
  b.finish = .error fault
  := by
  rw [finish, h]

end

/-- The builder after events in order. -/
theorem Started.foldl {b : Builder} {p p' : Progress} (h : Started b p) {es : List Event}
    (hrun : p.run es = .ok p') :
  Started (es.foldl Builder.step b) p' ∧ (es.foldl Builder.step b).arena = b.grown es
  := by
  induction es generalizing b p with
  | nil =>
    obtain rfl := Except.ok.inj hrun
    use h
    rw [grown_nil]
    rfl
  | cons e es ih =>
    rw [Progress.run] at hrun
    split at hrun
    · cases hrun
    · rename_i q hq
      obtain ⟨hstep, hgrown⟩ := h.step hq
      rw [← hgrown]
      apply ih hstep hrun

/-- The builder after events of which one is out of place. -/
theorem Started.fault_foldl {b : Builder} {p : Progress} (h : Started b p) {es : List Event}
    {fault : Fault} (hrun : p.run es = .error fault) :
  (es.foldl Builder.step b).fault = some fault
  := by
  induction es generalizing b p with
  | nil => cases hrun
  | cons e es ih =>
    rw [Progress.run] at hrun
    split at hrun
    · rename_i fault' he
      obtain rfl := Except.error.inj hrun
      apply Builder.fault_foldl (h.step_fault he)
    · rename_i q hq
      apply ih (h.step hq).1 hrun

end Builder

/-! ### The arena that is built -/

namespace Arena

/-- A table with a root and the nodes of a plan in it stands for the tree of the plan. -/
theorem represents_ofRoot (k : Kind) (l : Option String) (cs : Draft) :
  ((empty.push (.ofBranch k l none 0)).allocUnder Tree.root 0 cs).Represents (.ofRoot k l cs)
  := by
  have hroot : Tree.root < (empty.push (.ofBranch k l none 0)).size := Nat.zero_lt_one
  have hmade := made_branch (grown_allocUnder hroot 0 cs)
  constructor
  · rw [root_allocUnder]
    rfl
  · rw [hmade.size, Forest.size, Forest.size, Forest.size_number]
    simp [Tree.ofRoot, empty, size]
  · exact hmade.laid
  · intro n hn
    cases hn

/-- What the builder makes of the events after the start of the root. -/
theorem finish_foldl {k : Kind} {l : Option String} (hk : branchFault? k = none)
    (es : List Event) :
  Agrees Represents (es.foldl Builder.step (Builder.initial.step (.start k l))).finish
    (Tree.ofEvents (.start k l :: es))
  := by
  have hstep : Builder.initial.step (.start k l)
      = ⟨empty.push (.ofBranch k l none 0), [Tree.root], some Tree.root, none⟩ := by
    simp [Builder.step, hk, Builder.push, Builder.initial, empty, size]
    rfl
  have hstarted : Builder.Started (Builder.initial.step (.start k l)) (.inside 0) := by
    rw [hstep]
    apply Builder.Started.inside
    intro q hq
    obtain rfl := List.mem_singleton.mp hq
    exact Nat.zero_lt_one
  rw [Tree.ofEvents, Progress.run, Progress.step, hk]
  dsimp only [Progress.opened]
  cases hrun : (Progress.inside 0).run es with
  | error fault =>
    rw [Builder.finish_of_fault (hstarted.fault_foldl hrun)]
    apply Agrees.error
  | ok p' =>
    obtain ⟨hdone, hgrown⟩ := hstarted.foldl hrun
    generalize es.foldl Builder.step (Builder.initial.step (.start k l)) = b at hdone hgrown
    cases hdone with
    | inside hlt => apply Agrees.error
    | @closed arena =>
      have harena : arena = (empty.push (.ofBranch k l none 0)).allocUnder Tree.root 0
          (assemble es).1 := by
        rw [hstep] at hgrown
        exact hgrown
      have hroot : arena.root = Tree.root := by
        rw [harena, root_allocUnder]
        rfl
      have hfinish : Builder.finish ⟨arena, [], some Tree.root, none⟩ = .ok arena := by
        rw [Builder.finish, ← hroot]
      have hbranch : ∃ rest, (assemble (.start k l :: es)).1
          = .branch () k l (assemble es).1 rest := by
        rw [assemble]
        split
        · use .nil
          simp [*]
        · rename_i cs rest outer heq
          use rest
          simp [*]
      obtain ⟨rest, hrest⟩ := hbranch
      rw [hfinish, hrest, harena]
      apply Agrees.ok
      apply represents_ofRoot

/-- The builder makes an arena for exactly the events that describe a tree, and it stands for
the tree; else it gives the same fault. -/
theorem ofEvents_agrees (es : List Event) :
  Agrees Represents (ofEvents es) (Tree.ofEvents es)
  := by
  induction es with
  | nil => apply Agrees.error
  | cons e es ih =>
    cases e with
    | start k l =>
      cases hk : branchFault? k with
      | none => apply finish_foldl hk
      | some fault =>
        have hfault : (Builder.initial.step (.start k l)).fault = some fault := by
          simp [Builder.step, hk, Builder.fail, Builder.initial]
        have hfinish := Builder.finish_of_fault (Builder.fault_foldl hfault es)
        rw [ofEvents, List.foldl_cons, hfinish, Tree.ofEvents, Progress.run, Progress.step, hk]
        apply Agrees.error
    | token k x =>
      by_cases hx : x = ""
      · subst hx
        exact ih
      · have hfault : (Builder.initial.step (.token k x)).fault
            = some (.construction .tokenOutside) := by
          simp [Builder.step, hx, Builder.fail, Builder.initial]
        have hfinish := Builder.finish_of_fault (Builder.fault_foldl hfault es)
        rw [ofEvents, List.foldl_cons, hfinish, Tree.ofEvents, Progress.run, Progress.step,
          if_neg hx]
        apply Agrees.error
    | finish =>
      have hfault : (Builder.initial.step .finish).fault
          = some (.construction .closeWithoutOpen) := rfl
      have hfinish := Builder.finish_of_fault (Builder.fault_foldl hfault es)
      rw [ofEvents, List.foldl_cons, hfinish]
      apply Agrees.error

end Arena

end Fettle
