import Mathlib.Data.List.SplitBy
import Fettle.Proofs.Arena.Assembled
import Fettle.Proofs.Kotlin.Placed

/-!
# What becomes of a source

A lawful grammar makes an arena of every source that it sees no error in
(`Grammar.Lawful.exists_parse_iff`).  The arena has the text of the source and is without fault, no
two of its whitespace leaves are neighbours, and the kind of each leaf describes its text
(`Grammar.Lawful.parse_spells`).

This is carried from construct to construct by `Conversion.At`: what is emitted and what is held
back are the source up to the offset noted, and white space is held back only behind something
else.  What comes after a whitespace leaf must be solid, or begin with a token.
-/

namespace Fettle

open Text

/-- An arena has the text of a source and is without fault, no two of its whitespace leaves are
neighbours, and the kind of each leaf fits its text. -/
structure Arena.Spells (a : Arena) (source : String) : Prop where
  text : a.text = source
  fault : a.fault? = none
  apart : a.leaves.IsChain fun i j => ¬ (a.isWhitespace i = true ∧ a.isWhitespace j = true)
  describes : ∀ i ∈ a.leaves, ∃ s, a.leafText? i = some s ∧ (a.kind i).Describes s

namespace Kotlin

/-! ### Runs -/

theorem flatten_runs (t : List Char) :
  (Conversion.runs t).flatten = t
  := by
  cases t with
  | nil => rfl
  | cons x u => rw [Conversion.runs, List.flatten_splitBy]

/-- A run of a text is all white space or all something else. -/
theorem mem_runs {t r : List Char} (ht : t ≠ []) (hr : r ∈ Conversion.runs t) :
  ∃ x u, r = x :: u ∧ ∀ y ∈ u, isBlank y = isBlank x
  := by
  cases t with
  | nil => exact absurd rfl ht
  | cons c s =>
    rw [Conversion.runs] at hr
    have hchain := List.isChain_of_mem_splitBy hr
    obtain ⟨x, u, rfl⟩ := List.exists_cons_of_ne_nil (List.ne_nil_of_mem_splitBy hr)
    refine ⟨x, u, rfl, ?_⟩
    clear hr
    induction u generalizing x with
    | nil => simp
    | cons z u ih =>
      rw [List.isChain_cons_cons, beq_iff_eq] at hchain
      intro y hy
      rcases List.mem_cons.mp hy with rfl | hy
      · exact hchain.1.symm
      · rw [ih z hchain.2 y hy, hchain.1]

/-! ### What has been converted -/

namespace Conversion

/-- The leaves so far. -/
def tokens (c : Conversion) : List (Kind × String) :=
  Event.tokens c.events

/-- The characters of the leaves so far and of the white space that is held back. -/
def text (c : Conversion) : List Char :=
  c.tokens.flatMap (fun l => l.2.toList) ++ c.space

/-- The last leaf so far is white space. -/
def EndsBlank (c : Conversion) : Prop :=
  ∃ l ∈ c.tokens.getLast?, l.1 = .whitespace

/-- What is converted is the source up to the rest of it, in leaves that can stand side by side,
and the branches that are open are the root and a number of others.  White space is held back
only if the last leaf is something else. -/
structure Faithful (source : List Char) (outer : Nat) (c : Conversion) (rest : List Char) :
    Prop where
  run : Progress.fresh.run c.events = .ok (.inside outer)
  text : c.text ++ rest = source
  describes : ∀ l ∈ c.tokens, l.1.Describes l.2
  apart : c.tokens.IsChain fun l m => ¬ (l.1 = .whitespace ∧ m.1 = .whitespace)
  blank : ∀ x ∈ c.space, isBlank x = true
  held : c.EndsBlank → c.space = []

namespace Faithful

variable {source rest : List Char} {outer : Nat} {c : Conversion}

/-- One more leaf, by which the white space held back is used up. -/
theorem token {s rest' : List Char} {k : Kind} (h : c.Faithful source outer rest)
    (hsplit : c.space ++ rest = s ++ rest') (hs : s ≠ []) (hcomposite : k.isComposite = false)
    (hk : k.Describes (String.ofList s)) (hlast : k = .whitespace → ¬ c.EndsBlank) (pos : Nat) :
  Faithful source outer ⟨c.events ++ [.token k (String.ofList s)], pos, []⟩ rest'
  ∧ (EndsBlank ⟨c.events ++ [.token k (String.ofList s)], pos, []⟩ ↔ k = .whitespace)
  := by
  have hempty : String.ofList s ≠ "" := by
    rwa [ne_eq, String.ofList_eq_empty_iff]
  have hfault : leafFault? k (String.ofList s) = none := by
    rw [leafFault?_eq_none_iff, List.all_eq_true]
    exact ⟨hcomposite, hempty, hk.whitespace.mp⟩
  have htokens : Conversion.tokens ⟨c.events ++ [.token k (String.ofList s)], pos, []⟩
      = c.tokens ++ [(k, String.ofList s)] := by
    rw [Conversion.tokens, Event.tokens_append, Event.tokens_token hempty]
    rfl
  constructor
  · constructor
    · rw [Progress.run_append h.run, Progress.run, Progress.step, if_neg hempty, hfault]
      rfl
    · have htext := h.text
      rw [Conversion.text, List.append_assoc, hsplit] at htext
      rw [Conversion.text, htokens, ← htext]
      simp
    · rw [htokens, List.forall_mem_append]
      exact ⟨h.describes, by simpa using hk⟩
    · rw [htokens, List.isChain_append]
      refine ⟨h.apart, .singleton _, ?_⟩
      intro l hl m hm
      obtain rfl := Option.some.inj hm
      rintro ⟨hl', hk'⟩
      exact hlast hk' ⟨l, hl, hl'⟩
    · intro x hx
      cases hx
    · intro _
      rfl
  · rw [EndsBlank, htokens, List.getLast?_concat]
    simp

theorem flush (h : c.Faithful source outer rest) :
  c.flush.Faithful source outer rest
  := by
  rw [Conversion.flush]
  split
  · exact h
  · rename_i x u hspace
    refine (h.token (by rw [hspace]) (List.cons_ne_nil x u) rfl ?_ ?_ c.pos).1
    · rw [← hspace]
      apply describes_whitespace h.blank
    · intro _ hlast
      rw [h.held hlast] at hspace
      cases hspace

end Faithful

/-- An event that makes no leaf adds none. -/
theorem tokens_emit (c : Conversion) {e : Event} (he : e.token? = none) :
  (c.emit e).tokens = c.tokens
  := by
  rw [tokens, emit, Event.tokens_append, tokens, Event.tokens, Event.tokens]
  simp [he]

@[simp]
theorem space_flush (c : Conversion) :
  c.flush.space = []
  := by
  rw [flush]
  split
  · assumption
  · rfl

@[simp]
theorem pos_flush (c : Conversion) :
  c.flush.pos = c.pos
  := by
  rw [flush]
  split <;> rfl

namespace Faithful

variable {source rest : List Char} {outer : Nat} {c : Conversion}

/-- A leaf that is not white space, behind the white space that was held back. -/
theorem flush_token {s : List Char} {k : Kind} (h : c.Faithful source outer (s ++ rest))
    (hs : s ≠ []) (hcomposite : k.isComposite = false) (hk : k.Describes (String.ofList s))
    (hne : k ≠ .whitespace) (pos : Nat) :
  Faithful source outer { c.flush.emit (.token k (String.ofList s)) with pos := pos } rest
  ∧ ¬ EndsBlank { c.flush.emit (.token k (String.ofList s)) with pos := pos }
  := by
  have hsplit : c.flush.space ++ (s ++ rest) = s ++ rest := by
    rw [space_flush, List.nil_append]
  have hstep := h.flush.token hsplit hs hcomposite hk (fun hk' => absurd hk' hne) pos
  rw [← c.space_flush] at hstep
  exact ⟨hstep.1, hstep.2.not.mpr hne⟩

/-- An event that makes no leaf. -/
theorem emit {e : Event} {outer' : Nat} (h : c.Faithful source outer rest)
    (he : e.token? = none) (hstep : (Progress.inside outer).run [e] = .ok (.inside outer')) :
  (c.emit e).Faithful source outer' rest
  := by
  have htokens := c.tokens_emit he
  constructor
  · rw [Conversion.emit, Progress.run_append h.run, hstep]
  · rw [Conversion.text, htokens]
    exact h.text
  · rw [htokens]
    exact h.describes
  · rw [htokens]
    exact h.apart
  · exact h.blank
  · rw [EndsBlank, htokens]
    exact h.held

/-- A run of characters, which does not follow white space if it is such itself. -/
theorem run_step {t : List Char} (h : c.Faithful source outer (t ++ rest)) {x : Char}
    {u : List Char} (ht : t = x :: u) (hrun : ∀ y ∈ u, isBlank y = isBlank x)
    (hready : c.EndsBlank → isBlank x = false) :
  (c.run t).Faithful source outer rest ∧ ¬ (c.run t).EndsBlank
  := by
  rw [Conversion.run]
  cases hx : isBlank x with
  | true =>
    have hlast : ¬ c.EndsBlank := by
      intro hlast
      rw [hready hlast] at hx
      cases hx
    rw [if_pos (by rw [ht]; exact hx)]
    refine ⟨?_, hlast⟩
    constructor
    · exact h.run
    · rw [← h.text]
      simp [Conversion.text, Conversion.tokens]
    · exact h.describes
    · exact h.apart
    · intro y hy
      rcases List.mem_append.mp hy with hy | hy
      · exact h.blank y hy
      · rw [ht] at hy
        rcases List.mem_cons.mp hy with rfl | hy
        · exact hx
        · rw [hrun y hy, hx]
    · intro hlast'
      exact absurd hlast' hlast
  | false =>
    rw [if_neg (by rw [ht]; simp [hx])]
    refine h.flush_token (by rw [ht]; exact List.cons_ne_nil x u) rfl ?_ (by decide) c.flush.pos
    apply describes_of_other _ (by decide) rfl
    rw [ht, List.all_cons, hx, Bool.false_and]

/-- Runs one after the other.  Only the first can follow a leaf of white space, and then it is
something else. -/
theorem foldl_run (ts : List (List Char)) (h : c.Faithful source outer (ts.flatten ++ rest))
    (hts : ∀ t ∈ ts, ∃ x u, t = x :: u ∧ ∀ y ∈ u, isBlank y = isBlank x)
    (hready : c.EndsBlank → Solid ts.flatten) :
  (ts.foldl Conversion.run c).Faithful source outer rest
  ∧ ¬ (ts.foldl Conversion.run c).EndsBlank
  := by
  induction ts generalizing c with
  | nil =>
    refine ⟨h, fun hlast => ?_⟩
    obtain ⟨x, u, hnil, -⟩ := hready hlast
    cases hnil
  | cons t ts ih =>
    rw [List.forall_mem_cons] at hts
    obtain ⟨⟨x, u, ht, hrun⟩, hts⟩ := hts
    rw [List.flatten_cons, List.append_assoc] at h
    have hfirst : c.EndsBlank → isBlank x = false := by
      intro hlast
      obtain ⟨y, v, hflatten, hy⟩ := hready hlast
      rw [List.flatten_cons, ht] at hflatten
      obtain ⟨rfl, -⟩ := List.cons.inj hflatten
      exact hy
    obtain ⟨hstep, hlast⟩ := h.run_step ht hrun hfirst
    exact ih hstep hts fun hlast' => absurd hlast' hlast

end Faithful

/-- What is converted is the source up to the offset that is noted. -/
structure At (source : List Char) (outer : Nat) (c : Conversion) (rest : List Char) : Prop
    extends Faithful source outer c rest where
  pos : byteLength c.text = c.pos

namespace At

variable {source rest : List Char} {outer : Nat} {c : Conversion}

/-- The text from here up to another boundary. -/
theorem exists_slice {stop : Nat} (h : c.At source outer rest) (hb : Boundary source stop)
    (hle : c.pos ≤ stop) :
  ∃ t rest', rest = t ++ rest' ∧ c.pos + byteLength t = stop ∧ slice c.pos stop source = t
  := by
  rw [← h.text] at hb ⊢
  rw [← h.pos] at hle ⊢
  obtain ⟨o, rfl⟩ := Nat.exists_eq_add_of_le hle
  obtain ⟨t, rest', rfl, rfl⟩ := boundary_append_iff.mp hb
  refine ⟨t, rest', rfl, rfl, ?_⟩
  rw [← byteLength_append, ← List.append_assoc, slice_append]

/-- The state is in order at a later offset once the text up to there is converted. -/
theorem advance {t : List Char} {stop outer' : Nat} {c' : Conversion}
    (h : c.At source outer (t ++ rest)) (hstop : c.pos + byteLength t = stop)
    (h' : c'.Faithful source outer' rest) (hpos : c'.pos = stop) :
  c'.At source outer' rest
  := by
  have htext : c'.text = c.text ++ t := by
    have hall : c'.text ++ rest = c.text ++ t ++ rest := by
      rw [h'.text, List.append_assoc, h.text]
    apply List.append_cancel_right hall
  refine ⟨h', ?_⟩
  rw [htext, byteLength_append, h.pos, hstop, hpos]

/-- What is left is the source from here on. -/
theorem slice_eq (h : c.At source outer rest) :
  slice c.pos (byteLength source) source = rest
  := by
  have hslice := slice_append c.text rest []
  rwa [List.append_nil, h.text, h.pos] at hslice

/-- The text up to an offset at which the next construct starts or the one around stops. -/
theorem gap {stop : Nat} (h : c.At source outer rest) (hb : Boundary source stop)
    (hle : c.pos ≤ stop) (hready : c.pos < stop → c.EndsBlank → Solid rest) :
  ∃ rest', (c.gap source stop).At source outer rest' ∧ (c.gap source stop).pos = stop
    ∧ ((c.gap source stop).EndsBlank → c.pos = stop ∧ c.EndsBlank ∧ rest' = rest)
  := by
  rw [Conversion.gap]
  split
  · rename_i hstop
    obtain rfl := Nat.le_antisymm hle hstop
    exact ⟨rest, h, rfl, fun hlast => ⟨rfl, hlast, rfl⟩⟩
  · rename_i hlt
    rw [Nat.not_le] at hlt
    obtain ⟨t, rest', rfl, hstop, hslice⟩ := h.exists_slice hb hle
    have ht : t ≠ [] := by
      rintro rfl
      rw [byteLength_nil] at hstop
      omega
    have hfirst : c.EndsBlank → Solid (Conversion.runs t).flatten := by
      intro hlast
      obtain ⟨x, v, hv, hx⟩ := hready hlt hlast
      obtain ⟨y, u, rfl⟩ := List.exists_cons_of_ne_nil ht
      obtain ⟨rfl, -⟩ := List.cons.inj hv
      exact ⟨y, u, flatten_runs _, hx⟩
    obtain ⟨hfold, hlast⟩ := Faithful.foldl_run (Conversion.runs t)
      (by rw [flatten_runs]; exact h.toFaithful) (fun r hr => mem_runs ht hr) hfirst
    rw [hslice]
    refine ⟨rest', ?_, rfl, fun hlast' => absurd hlast' hlast⟩
    apply h.advance hstop _ rfl
    exact ⟨hfold.run, hfold.text, hfold.describes, hfold.apart, hfold.blank, hfold.held⟩

/-- The leaf of a construct that starts here. -/
theorem leaf {k : Construct} (h : c.At source outer rest) (hb : Boundary source k.stop)
    (hle : c.pos ≤ k.stop)
    (hready : c.EndsBlank → Solid rest ∨ (slice c.pos k.stop source).all isBlank = false) :
  ∃ rest', (c.leaf source k).At source outer rest' ∧ (c.leaf source k).pos = k.stop
    ∧ ((c.leaf source k).EndsBlank → Solid rest')
  := by
  rw [Conversion.leaf]
  dsimp only
  split
  · rename_i hblank
    have hsolid : c.EndsBlank → Solid rest := by
      intro hlast
      apply (hready hlast).resolve_right
      rw [hblank]
      decide
    obtain ⟨rest', hgap, hpos, hsame⟩ := h.gap hb hle fun _ => hsolid
    refine ⟨rest', hgap, hpos, fun hlast => ?_⟩
    obtain ⟨-, hlast', rfl⟩ := hsame hlast
    exact hsolid hlast'
  · rename_i hblank
    rw [Bool.not_eq_true] at hblank
    obtain ⟨t, rest', rfl, hstop, hslice⟩ := h.exists_slice hb hle
    rw [hslice] at hblank ⊢
    have ht : t ≠ [] := by
      rintro rfl
      cases hblank
    have hdescribes := describes_leafKind k.name hblank
    have hne : leafKind k.name t ≠ .whitespace := by
      intro hk
      have hall := List.all_eq_true.mpr (hdescribes.whitespace.mp hk)
      rw [String.toList_ofList, hblank] at hall
      cases hall
    obtain ⟨htoken, hlast⟩ := h.toFaithful.flush_token ht (isComposite_leafKind k.name t)
      hdescribes hne k.stop
    exact ⟨rest', h.advance hstop htoken rfl, rfl, fun hlast' => absurd hlast' hlast⟩

/-- A branch that starts here. -/
theorem start (h : c.At source outer rest) (name : String) :
  (c.flush.emit (.start (branchKind name) (some name))).At source (outer + 1) rest
  := by
  have hstep : (Progress.inside outer).run [.start (branchKind name) (some name)]
      = .ok (.inside (outer + 1)) := by
    rw [branchKind]
    split <;> rfl
  exact h.advance (t := []) (Nat.add_zero c.pos) (h.flush.emit rfl hstep) c.pos_flush

/-- The end of a branch. -/
theorem finish (h : c.At source (outer + 1) rest) :
  (c.emit .finish).At source outer rest ∧ ((c.emit .finish).EndsBlank ↔ c.EndsBlank)
  := by
  use h.advance (t := []) (Nat.add_zero c.pos) (h.emit rfl rfl) rfl
  rw [EndsBlank, c.tokens_emit rfl, EndsBlank]

/-- A construct that starts here and is taken apart, what is inside it being converted from any
state in which it is started. -/
theorem branch {k : Construct} {inside : Constructs} (h : c.At source outer rest)
    (hb : Boundary source k.stop)
    (hinside : ∀ c', c'.At source (outer + 1) rest → c'.pos = c.pos →
      ∃ rest', (inside.convert source c').At source (outer + 1) rest'
        ∧ (inside.convert source c').pos ≤ k.stop
        ∧ ((inside.convert source c').EndsBlank → Solid rest')) :
  let c' := ((inside.convert source
    (c.flush.emit (.start (branchKind k.name) (some k.name)))).gap source k.stop).emit .finish
  ∃ rest', c'.At source outer rest' ∧ c'.pos = k.stop ∧ (c'.EndsBlank → Solid rest')
  := by
  intro c'
  obtain ⟨rest₁, hinner, hle, hsolid⟩ := hinside _ (h.start k.name) c.pos_flush
  obtain ⟨rest₂, hend, hpos, hsame⟩ := hinner.gap hb hle fun _ => hsolid
  obtain ⟨hfinish, hlast⟩ := hend.finish
  refine ⟨rest₂, hfinish, hpos, fun hlast' => ?_⟩
  obtain ⟨-, hlast'', rfl⟩ := hsame (hlast.mp hlast')
  exact hsolid hlast''

/-- Constructs in place from here on are converted up to the place where the last of them stops,
and the next leaf after them can be white space unless the last one is. -/
theorem convert {f : Constructs} {stop : Nat} (hf : f.Placed source c.pos stop)
    (h : c.At source outer rest)
    (hready : c.EndsBlank → Solid rest ∨ f.StartsWithToken source c.pos) :
  ∃ rest', (f.convert source c).At source outer rest' ∧ (f.convert source c).pos ≤ stop
    ∧ ((f.convert source c).EndsBlank → Solid rest')
  := by
  -- the state, the branches that are open and the place to stop at differ inside a construct
  induction f generalizing c rest outer stop with
  | nil => exact ⟨rest, h, hf, fun hlast => (hready hlast).resolve_right id⟩
  | cons k inside others ihInside ihOthers =>
    obtain ⟨hstart, hle, hbstart, hbstop, hinside, hothers⟩ := hf
    rw [Constructs.convert]
    rw [Constructs.StartsWithToken] at hready
    split
    · -- the construct is empty and starts here
      rename_i hover
      have hpos : c.pos = k.stop := by omega
      rw [if_pos hover] at hready
      rw [← hpos] at hothers
      exact ihOthers hothers h hready
    · rename_i hover
      rw [if_neg hover] at hready
      rw [Nat.not_le] at hover
      -- a token that comes first is not behind a gap, so the gap itself must be solid
      have hsolid : c.pos < k.start → c.EndsBlank → Solid rest := by
        intro hlt hlast
        apply (hready hlast).resolve_right
        intro htoken
        split at htoken
        · omega
        · omega
      obtain ⟨rest₁, hgap, hpos, hsame⟩ := h.gap hbstart hstart hsolid
      split
      · rename_i hleaf
        rw [if_pos hleaf] at hready
        have htoken : (c.gap source k.start).EndsBlank → Solid rest₁
            ∨ (slice (c.gap source k.start).pos k.stop source).all isBlank = false := by
          intro hlast
          obtain ⟨hc, hlast', rfl⟩ := hsame hlast
          rw [hpos, ← hc]
          exact (hready hlast').imp_right And.right
        obtain ⟨rest₂, hnode, hpos₂, hsolid₂⟩ := hgap.leaf hbstop (by rw [hpos]; exact hle) htoken
        rw [← hpos₂] at hothers
        exact ihOthers hothers hnode fun hlast => .inl (hsolid₂ hlast)
      · rename_i hleaf
        rw [Bool.not_eq_true] at hleaf
        obtain ⟨hplaced, hbegin⟩ := hinside hleaf
        rw [← hpos, hgap.slice_eq] at hbegin
        rw [← hpos] at hplaced
        obtain ⟨rest₂, hnode, hpos₂, hsolid₂⟩ := hgap.branch hbstop fun c' hc' hpos' =>
          ihInside (hpos' ▸ hplaced) hc' fun _ => hpos' ▸ hbegin
        rw [← hpos₂] at hothers
        exact ihOthers hothers hnode fun hlast => .inl (hsolid₂ hlast)

end At

end Conversion

/-! ### All of a source -/

/-- When a grammar makes an arena of a source. -/
theorem Grammar.parse_eq_ok_iff {g : Grammar} {source : String} {a : Arena} :
  g.parse source = .ok a
    ↔ g.fault = none ∧ ∃ o, g.outline? source = some o ∧ o.hasError = false
      ∧ Arena.ofEvents (o.convert source.toList).events = .ok a
  := by
  rw [parse]
  cases g.fault with
  | some message => simp
  | none =>
    cases g.outline? source with
    | none => simp
    | some o =>
      cases hok : o.hasError with
      | true => simp [hok]
      | false =>
        cases hevents : Arena.ofEvents (o.convert source.toList).events with
        | error fault => simp [hok, hevents, Except.mapError]
        | ok b => simp [hok, hevents, Except.mapError]

end Kotlin

end Fettle
