import Fettle.Proofs.Kotlin.Reread
import Fettle.Proofs.Rules.Findings
import Fettle.Proofs.Rules.Success
import Fettle.Proofs.Tree.Offsets

/-!
# Leaves in like surroundings

A rule looks at a leaf, at its kind, at where it begins, and at little of the leaves around it:
whether they are there, whether they are braces, and whether they break the line (`Leaf.role`).
`Kotlin.Alike` relates what stands before a leaf in two trees where that is the same, and what
stands behind it is related by `Kotlin.Reread`.

The standard rules find the same at the same leaf in like surroundings (`Kotlin.inspect_eq`).
-/

namespace Fettle

open Text

/-- A site at a leaf of a sound tree, between other leaves. -/
structure Site.At (s : Site) (a : List (Leaf NodeId)) (l : Leaf NodeId)
    (b : List (Leaf NodeId)) : Prop where
  sound : s.tree.Sound
  leaves : s.tree.leaves = a ++ l :: b
  node : l.id = s.node

namespace Site.At

variable {s : Site} {a b : List (Leaf NodeId)} {l : Leaf NodeId} (h : s.At a l b)

include h

theorem kind_eq :
  s.kind = l.kind
  := Site.kind_leaf h.sound h.leaves h.node

theorem text_eq :
  s.text = l.text.toList
  := Site.text_leaf h.sound h.leaves h.node

theorem nextLeaf?_eq :
  s.tree.nextLeaf? s.node = b.head?
  := Site.nextLeaf?_leaf h.sound h.leaves h.node

theorem prevLeaf?_eq :
  s.tree.prevLeaf? s.node = a.getLast?
  := Site.prevLeaf?_leaf h.sound h.leaves h.node

theorem textLengthOf_eq :
  s.tree.textLengthOf s.node = l.text.utf8ByteSize
  := by
  rw [← h.node]
  apply h.sound.textLengthOf_leaf h.leaves

theorem startOffset_eq :
  s.tree.startOffset s.node = width a
  := by
  rw [← h.node]
  apply h.sound.startOffset_leaf h.leaves

theorem layout_eq :
  CommentWrapping.layout s
    = .of l.text.toList (CommentWrapping.neighbour? a.reverse) (CommentWrapping.neighbour? b)
  := CommentWrapping.layout_leaf h.sound h.leaves h.node

end Site.At

/-! ### Comments in the same surroundings -/

namespace CommentWrapping

/-- What is reported of a comment is determined by where it begins, by what matters of its
neighbours, and by where the next one begins. -/
theorem findings_of_role {s s' : Site}
    (hstart : s.tree.startOffset s.node = s'.tree.startOffset s'.node)
    {p p' n n' : Option (Leaf NodeId)} (hp : p.map Leaf.role = p'.map Leaf.role)
    (hn : n.map (fun m => (m.role, s.tree.startOffset m.id))
      = n'.map fun m => (m.role, s'.tree.startOffset m.id)) (comment : List Char) :
  findings s (.of comment p n) = findings s' (.of comment p' n')
  := by
  -- the layout looks at the neighbours on the line only
  have hp' : (p.filter (!·.breaksLine)).map Leaf.role
      = (p'.filter (!·.breaksLine)).map Leaf.role := by
    have hfilter := congrArg (Option.filter fun r => !r.2) hp
    rwa [Option.filter_map, Option.filter_map] at hfilter
  have hn' : (n.filter (!·.breaksLine)).map (fun m => (m.role, s.tree.startOffset m.id))
      = (n'.filter (!·.breaksLine)).map fun m => (m.role, s'.tree.startOffset m.id) := by
    have hfilter := congrArg (Option.filter fun r => !r.1.2) hn
    rwa [Option.filter_map, Option.filter_map] at hfilter
  rw [Layout.of, Layout.of]
  generalize p.filter (!·.breaksLine) = q at hp' ⊢
  generalize p'.filter (!·.breaksLine) = q' at hp' ⊢
  generalize n.filter (!·.breaksLine) = m at hn' ⊢
  generalize n'.filter (!·.breaksLine) = m' at hn' ⊢
  have hnode (message : String) (correctable : Bool) :
      s.finding s.node 0 message correctable = s'.finding s'.node 0 message correctable := by
    rw [Site.finding, Site.finding, hstart]
  cases q with
  | none =>
    obtain rfl := Option.map_eq_none_iff.mp hp'.symm
    cases m with
    | none =>
      obtain rfl := Option.map_eq_none_iff.mp hn'.symm
      dsimp only
      split
      · rfl
      · rw [findings, findings, hnode]
    | some x =>
      obtain ⟨x', rfl, hx⟩ := Option.map_eq_some_iff.mp hn'.symm
      have hoffset := (Prod.mk.inj hx).2
      dsimp only
      rw [findings, findings, Site.finding, Site.finding, hoffset]
  | some y =>
    obtain ⟨y', rfl, hy⟩ := Option.map_eq_some_iff.mp hp'.symm
    cases m with
    | none =>
      obtain rfl := Option.map_eq_none_iff.mp hn'.symm
      dsimp only
      split
      · rw [findings, findings, hnode]
      · rw [findings, findings, hnode]
    | some x =>
      obtain ⟨x', rfl, hx⟩ := Option.map_eq_some_iff.mp hn'.symm
      have hleft : (y'.kind == .leftBrace) = (y.kind == .leftBrace) := by
        rw [Bool.eq_iff_iff, beq_iff_eq, beq_iff_eq, Leaf.kind_eq_iff_of_role hy rfl]
      have hright : (x'.kind == .rightBrace) = (x.kind == .rightBrace) := by
        rw [Bool.eq_iff_iff, beq_iff_eq, beq_iff_eq,
          Leaf.kind_eq_iff_of_role (Prod.mk.inj hx).1 rfl]
      dsimp only
      rw [hleft, hright]
      split
      · rw [findings, findings, hnode]
      · split
        · rfl
        · rw [findings, findings, hnode]

end CommentWrapping

namespace Kotlin

/-! ### Leaves that are alike -/

theorem width_eq_byteLength (ls : List (Leaf NodeId)) :
  width ls = byteLength (chars ls)
  := by
  induction ls with
  | nil => rfl
  | cons l ls ih => rw [width, ih, chars_cons, byteLength_append, utf8ByteSize_eq_byteLength]

namespace Plain

variable {c : List (Leaf NodeId)} (h : Plain c)

include h

theorem role_eq {l : Leaf NodeId} (hl : l ∈ c) :
  l.role = (.token, false)
  := Lexeme.role_of_plain (h.plain l hl)

theorem not_isInlineSpace {l : Leaf NodeId} (hl : l ∈ c) :
  ¬ l.isInlineSpace = true
  := by
  intro hspace
  cases (Leaf.isPlain_of_isInlineSpace hspace).symm.trans (h.plain l hl)

end Plain

namespace Longer

variable {l l' : Leaf NodeId} {x : List Char} (h : Longer l x l')

include h

theorem role_eq :
  l.role = l'.role
  := by
  rw [Leaf.role, Leaf.role, Lexeme.role, Lexeme.role, Leaf.lexeme, Leaf.lexeme, h.kind, h.kind']
  rfl

theorem notMem :
  '\n' ∉ x
  := by
  intro hmem
  apply h.inline (List.mem_append_right _ hmem)

theorem utf8ByteSize_eq :
  l'.text.utf8ByteSize = l.text.utf8ByteSize + byteLength x
  := by
  rw [utf8ByteSize_eq_byteLength, utf8ByteSize_eq_byteLength, h.text', byteLength_append]

theorem width_concat {a a' : List (Leaf NodeId)} (hwidth : width a = width a') :
  width (a' ++ [l']) = width (a ++ [l]) + byteLength x
  := by
  rw [width_append, width_append, hwidth, width, width, width, width, h.utf8ByteSize_eq]
  omega

end Longer

namespace Reread

variable {ls ls' : List (Leaf NodeId)} (h : Reread ls ls')

include h

theorem head?_role_eq :
  ls.head?.map Leaf.role = ls'.head?.map Leaf.role
  := by
  cases h with
  | nil => rfl
  | @code c c' ls ls' plain plain' _ _ =>
    obtain ⟨l, d, rfl⟩ := List.exists_cons_of_ne_nil plain.some
    obtain ⟨l', d', rfl⟩ := List.exists_cons_of_ne_nil plain'.some
    have hrole : l.role = l'.role := by
      rw [plain.role_eq List.mem_cons_self, plain'.role_eq List.mem_cons_self]
    exact congrArg some hrole
  | same lexeme _ => exact congrArg some (congrArg Lexeme.role lexeme.symm)
  | line longer _ _ _ => exact congrArg some longer.role_eq
  | last longer _ => exact congrArg some longer.role_eq

/-- A line feed comes first in both, or in none. -/
theorem head?_feed_eq (hls : ∀ l ∈ ls, l.text ≠ "") (hls' : ∀ l ∈ ls', l.text ≠ "") :
  (ls.head?.any fun l => l.text.toList.head? == some '\n')
    = ls'.head?.any fun l => l.text.toList.head? == some '\n'
  := by
  have hlonger {l l' : Leaf NodeId} {x : List Char} (longer : Longer l x l') :
      (l.text.toList.head? == some '\n') = (l'.text.toList.head? == some '\n') := by
    obtain ⟨s, hs⟩ := longer.mark
    rw [longer.text', ← hs]
    rfl
  have hhead {m : Leaf NodeId} {d : List (Leaf NodeId)} (hm : m.text ≠ "") :
      m.text.toList.head? = (chars (m :: d)).head? := by
    obtain ⟨c, s, hs⟩ := List.exists_cons_of_ne_nil
      fun hnil => hm (String.toList_eq_nil_iff.mp hnil)
    rw [chars_cons, hs]
    rfl
  cases h with
  | nil => rfl
  | @code c c' ls ls' plain plain' text _ =>
    obtain ⟨l, d, rfl⟩ := List.exists_cons_of_ne_nil plain.some
    obtain ⟨l', d', rfl⟩ := List.exists_cons_of_ne_nil plain'.some
    rw [List.cons_append, List.cons_append, List.head?_cons, List.head?_cons, Option.any_some,
      Option.any_some, hhead (hls l List.mem_cons_self), text,
      ← hhead (hls' l' List.mem_cons_self)]
  | same lexeme _ =>
    rw [List.head?_cons, List.head?_cons, Option.any_some, Option.any_some, text_of_lexeme lexeme]
  | line longer _ _ _ => apply hlonger longer
  | last longer _ => apply hlonger longer

theorem isNone_head?_eq :
  ls.head?.isNone = ls'.head?.isNone
  := by
  have hrole := congrArg Option.isNone h.head?_role_eq
  rwa [Option.isNone_map, Option.isNone_map] at hrole

end Reread

/-- Leaves before others that look alike from there: they are as wide, and the last of them and
the nearest on the line play the same roles. -/
structure Alike (a a' : List (Leaf NodeId)) : Prop where
  width : width a = width a'
  last : a.getLast?.map Leaf.role = a'.getLast?.map Leaf.role
  near : (CommentWrapping.neighbour? a.reverse).map Leaf.role
    = (CommentWrapping.neighbour? a'.reverse).map Leaf.role

namespace Alike

variable {a a' : List (Leaf NodeId)}

theorem nil :
  Alike [] []
  := ⟨rfl, rfl, rfl⟩

theorem concat (h : Alike a a') {l l' : Leaf NodeId} (hrole : l.role = l'.role)
    (hwidth : Fettle.width (a ++ [l]) = Fettle.width (a' ++ [l'])) :
  Alike (a ++ [l]) (a' ++ [l'])
  := by
  constructor
  · exact hwidth
  · rw [List.getLast?_concat, List.getLast?_concat]
    exact congrArg some hrole
  · rw [List.reverse_concat, List.reverse_concat, CommentWrapping.neighbour?_cons,
      CommentWrapping.neighbour?_cons, Leaf.isInlineSpace_of_role hrole, List.head?_reverse,
      List.head?_reverse]
    split
    · exact h.last
    · exact congrArg some hrole

theorem concat_congr (h : Alike a a') {l l' : Leaf NodeId} (heq : l'.lexeme = l.lexeme) :
  Alike (a ++ [l]) (a' ++ [l'])
  := by
  apply h.concat (congrArg Lexeme.role heq.symm)
  rw [width_append, width_append, h.width]
  rw [Fettle.width, Fettle.width, Fettle.width, Fettle.width, text_of_lexeme heq]

/-- Code looks alike however it is cut. -/
theorem append_plain (h : Alike a a') {c c' : List (Leaf NodeId)} (hc : Plain c)
    (hc' : Plain c') (hchars : chars c = chars c') :
  Alike (a ++ c) (a' ++ c')
  := by
  have hwidth : Fettle.width (a ++ c) = Fettle.width (a' ++ c') := by
    rw [width_append, width_append, h.width, width_eq_byteLength c, width_eq_byteLength c',
      hchars]
  obtain rfl | ⟨d, l, rfl⟩ := List.eq_nil_or_concat' c
  · exact absurd rfl hc.some
  obtain rfl | ⟨d', l', rfl⟩ := List.eq_nil_or_concat' c'
  · exact absurd rfl hc'.some
  have hl : l ∈ d ++ [l] := List.mem_concat_self
  have hl' : l' ∈ d' ++ [l'] := List.mem_concat_self
  constructor
  · exact hwidth
  · rw [← List.append_assoc, ← List.append_assoc, List.getLast?_concat, List.getLast?_concat,
      Option.map_some, Option.map_some, hc.role_eq hl, hc'.role_eq hl']
  · rw [← List.append_assoc, ← List.append_assoc, List.reverse_concat, List.reverse_concat,
      CommentWrapping.neighbour?_cons, CommentWrapping.neighbour?_cons,
      if_neg (hc.not_isInlineSpace hl), if_neg (hc'.not_isInlineSpace hl'), Option.map_some,
      Option.map_some, hc.role_eq hl, hc'.role_eq hl']

/-- Leaves that end with a line break look alike if they are as wide. -/
theorem of_breaksLine {l l' : Leaf NodeId} (hl : l.breaksLine = true) (hl' : l'.breaksLine = true)
    (hwidth : Fettle.width (a ++ [l]) = Fettle.width (a' ++ [l'])) :
  Alike (a ++ [l]) (a' ++ [l'])
  := by
  have hrole {m : Leaf NodeId} (hm : m.breaksLine = true) : m.role = (.whitespace, true) := by
    have hkind := (Leaf.breaksLine_iff.mp hm).1
    rw [← Leaf.role_snd] at hm
    apply Prod.ext _ hm
    rw [Leaf.role, Lexeme.role, Leaf.lexeme, hkind]
    rfl
  have hinline {m : Leaf NodeId} (hm : m.breaksLine = true) : m.isInlineSpace = false := by
    rw [← Bool.not_eq_true]
    intro hinline
    rw [Leaf.breaksLine_of_isInlineSpace hinline] at hm
    cases hm
  constructor
  · exact hwidth
  · rw [List.getLast?_concat, List.getLast?_concat, Option.map_some, Option.map_some, hrole hl,
      hrole hl']
  · rw [List.reverse_concat, List.reverse_concat, CommentWrapping.neighbour?_cons,
      CommentWrapping.neighbour?_cons, hinline hl, hinline hl', if_neg (by decide),
      if_neg (by decide), Option.map_some, Option.map_some, hrole hl, hrole hl']

/-- What looks alike before a comment that takes the blanks before a line break looks alike after
the line break. -/
theorem line (h : Alike a a') {l w l' w' : Leaf NodeId} {x y : List Char}
    (longer : Longer l x l') (space : w.kind = .whitespace ∧ w.text.toList = x ++ '\n' :: y)
    (shorter : w'.kind = .whitespace ∧ w'.text.toList = '\n' :: y) :
  Alike (a ++ [l] ++ [w]) (a' ++ [l'] ++ [w'])
  := by
  obtain ⟨hkind, htext⟩ := space
  obtain ⟨hkind', htext'⟩ := shorter
  apply of_breaksLine
  · rw [Leaf.breaksLine_iff, htext]
    exact ⟨hkind, by simp⟩
  · rw [Leaf.breaksLine_iff, htext']
    exact ⟨hkind', List.mem_cons_self⟩
  · rw [width_append (a ++ [l]), width_append (a' ++ [l']), longer.width_concat h.width,
      Fettle.width, Fettle.width, Fettle.width, Fettle.width, utf8ByteSize_eq_byteLength,
      utf8ByteSize_eq_byteLength, htext, htext', byteLength_append]
    omega

theorem isSome_getLast? (h : Alike a a') :
  a.getLast?.isSome = a'.getLast?.isSome
  := by
  have hsome := congrArg Option.isSome h.last
  rwa [Option.isSome_map, Option.isSome_map] at hsome

end Alike

/-- The nearest leaves on the line play the same roles and begin in the same places. -/
theorem Reread.neighbour?_eq {t u : Tree} (ht : t.Sound) (hu : u.Sound)
    {a a' ls ls' : List (Leaf NodeId)} (h : Reread ls ls') (hl : t.leaves = a ++ ls)
    (hl' : u.leaves = a' ++ ls') (hwidth : width a = width a') :
  (CommentWrapping.neighbour? ls).map (fun m => (m.role, t.startOffset m.id))
    = (CommentWrapping.neighbour? ls').map fun m => (m.role, u.startOffset m.id)
  := by
  have hstart {v : Tree} (hv : v.Sound) {c ms : List (Leaf NodeId)} (hms : v.leaves = c ++ ms) :
      ms.head?.map (fun m => (m.role, v.startOffset m.id))
        = (ms.head?.map Leaf.role).map fun r => (r, width c) := by
    cases ms with
    | nil => rfl
    | cons m ms =>
      rw [List.head?_cons, Option.map_some, Option.map_some, Option.map_some,
        hv.startOffset_leaf hms]
  have hhead {c c' ms ms' : List (Leaf NodeId)} (hms : t.leaves = c ++ ms)
      (hms' : u.leaves = c' ++ ms') (hc : width c = width c') (hr : Reread ms ms') :
      ms.head?.map (fun m => (m.role, t.startOffset m.id))
        = ms'.head?.map fun m => (m.role, u.startOffset m.id) := by
    rw [hstart ht hms, hstart hu hms', hr.head?_role_eq, hc]
  have hhere := hhead hl hl' hwidth h
  -- what is no white space is its own nearest leaf
  have hline {l : Leaf NodeId} (hkind : l.kind = .eolComment) : ¬ l.isInlineSpace = true := by
    intro hspace
    cases hkind.symm.trans (Leaf.isInlineSpace_iff.mp hspace).1
  cases h with
  | nil => rfl
  | @code c c' ls ls' plain plain' _ _ =>
    obtain ⟨l, d, rfl⟩ := List.exists_cons_of_ne_nil plain.some
    obtain ⟨l', d', rfl⟩ := List.exists_cons_of_ne_nil plain'.some
    rw [List.cons_append, List.cons_append, CommentWrapping.neighbour?_cons,
      CommentWrapping.neighbour?_cons, if_neg (plain.not_isInlineSpace List.mem_cons_self),
      if_neg (plain'.not_isInlineSpace List.mem_cons_self)]
    exact hhere
  | same lexeme rest =>
    have hrole := congrArg Lexeme.role lexeme.symm
    rw [CommentWrapping.neighbour?_cons, CommentWrapping.neighbour?_cons,
      Leaf.isInlineSpace_of_role hrole]
    split
    · rw [List.append_cons] at hl hl'
      apply hhead hl hl' _ rest
      rw [width_append, width_append, hwidth, width, width, width, width, text_of_lexeme lexeme]
    · exact hhere
  | line longer _ _ _ =>
    rw [CommentWrapping.neighbour?_cons, CommentWrapping.neighbour?_cons,
      if_neg (hline longer.kind), if_neg (hline longer.kind')]
    exact hhere
  | last longer _ =>
    rw [CommentWrapping.neighbour?_cons, CommentWrapping.neighbour?_cons,
      if_neg (hline longer.kind), if_neg (hline longer.kind')]
    exact hhere

/-! ### The same leaf -/

section

variable {s s' : Site} {a b a' b' : List (Leaf NodeId)} {l l' : Leaf NodeId}
  (h : s.At a l b) (h' : s'.At a' l' b') (ha : Alike a a') (heq : l'.lexeme = l.lexeme)
  (hb : Reread b b')

include h h' ha heq hb

/-- The standard rules find the same at the same leaf in like surroundings. -/
theorem inspect_eq {r : Rule} (hr : r ∈ Preset.standard.rules) :
  r.inspect s = r.inspect s'
  := by
  have text := text_of_lexeme heq
  have hkind : s.kind = s'.kind := by
    rw [h.kind_eq, h'.kind_eq]
    exact (congrArg Lexeme.kind heq).symm
  have htext : s.text = s'.text := by
    rw [h.text_eq, h'.text_eq, text]
  have hstart : s.tree.startOffset s.node = s'.tree.startOffset s'.node := by
    rw [h.startOffset_eq, h'.startOffset_eq, ha.width]
  have hfinding (delta : Nat) (message : String) (correctable : Bool) :
      s.finding s.node delta message correctable
        = s'.finding s'.node delta message correctable := by
    rw [Site.finding, Site.finding, hstart]
  have hprev : (s.tree.prevLeaf? s.node).isSome = (s'.tree.prevLeaf? s'.node).isSome := by
    rw [h.prevLeaf?_eq, h'.prevLeaf?_eq, ha.isSome_getLast?]
  have hnext : (s.tree.nextLeaf? s.node).isNone = (s'.tree.nextLeaf? s'.node).isNone := by
    rw [h.nextLeaf?_eq, h'.nextLeaf?_eq, hb.isNone_head?_eq]
  simp only [Preset.rules, List.mem_cons, List.not_mem_nil, or_false] at hr
  rcases hr with rfl | rfl | rfl | rfl
  · change CommentWrapping.inspect s = CommentWrapping.inspect s'
    have hleaves := h.leaves
    have hleaves' := h'.leaves
    rw [List.append_cons] at hleaves hleaves'
    have hwidth := (ha.concat_congr heq).width
    have hnear := hb.neighbour?_eq h.sound h'.sound hleaves hleaves' hwidth
    rw [CommentWrapping.inspect, CommentWrapping.inspect, hkind, h.layout_eq, h'.layout_eq, text,
      CommentWrapping.findings_of_role hstart ha.near hnear]
  · change NoTrailingSpaces.inspect s = NoTrailingSpaces.inspect s'
    have hfeed : NoTrailingSpaces.feedFollows s = NoTrailingSpaces.feedFollows s' := by
      have hsome {r : Site} {c d : List (Leaf NodeId)} {m : Leaf NodeId} (hr : r.At c m d) :
          ∀ k ∈ d, k.text ≠ "" := by
        intro k hk
        apply hr.sound.text_ne_empty
        rw [hr.leaves]
        apply List.mem_append_right _ (List.mem_cons_of_mem _ hk)
      rw [NoTrailingSpaces.feedFollows, NoTrailingSpaces.feedFollows, h.nextLeaf?_eq,
        h'.nextLeaf?_eq, hb.head?_feed_eq (hsome h) (hsome h')]
    rw [NoTrailingSpaces.inspect, NoTrailingSpaces.inspect, NoTrailingSpaces.marks,
      NoTrailingSpaces.marks, NoTrailingSpaces.atEnd, NoTrailingSpaces.atEnd, hkind, htext, hnext,
      hfeed]
    simp only [hfinding]
  · change NoMultiSpaces.inspect s = NoMultiSpaces.inspect s'
    have hsome : (s.tree.nextLeaf? s.node).isSome = (s'.tree.nextLeaf? s'.node).isSome := by
      rw [← Option.not_isNone, ← Option.not_isNone, hnext]
    rw [NoMultiSpaces.inspect, NoMultiSpaces.inspect, NoMultiSpaces.isLong, NoMultiSpaces.isLong,
      hkind, htext, hprev, hsome, h.textLengthOf_eq, h'.textLengthOf_eq, text, hfinding]
  · change NoConsecutiveBlankLines.inspect s = NoConsecutiveBlankLines.inspect s'
    rw [NoConsecutiveBlankLines.inspect, NoConsecutiveBlankLines.inspect,
      NoConsecutiveBlankLines.isExcessive, NoConsecutiveBlankLines.isExcessive,
      NoConsecutiveBlankLines.isLast, NoConsecutiveBlankLines.isLast, hkind, htext, hprev, hnext,
      hfinding]

end

end Kotlin

end Fettle
