import Fettle.Proofs.Arena.Built

/-!
# Arenas that can be reached

An arena is `Reachable` if it is built from events and edited after.  Every such arena stands for
a sound tree (`Reachable.exists_represents`), and so what holds of the arenas that stand for
sound trees holds of all that can come about.
-/

namespace Fettle

namespace Arena

/-- The arenas that are built from events and edited after. -/
inductive Reachable : Arena → Prop where
  | built {es : List Event} {a : Arena} (h : ofEvents es = .ok a) : Reachable a
  | edited {a b : Arena} {e : Edit} {o : Option NodeId} (h : Reachable a)
    (he : a.edit e = .ok (o, b)) : Reachable b

/-- The tree that an arena stands for after an edit. -/
theorem Represents.exists_edit {a b : Arena} {t : Tree} (h : a.Represents t) (ht : t.Sound)
    {e : Edit} {o : Option NodeId} (he : a.edit e = .ok (o, b)) :
  ∃ u, t.edit e = .ok (o, u) ∧ b.Represents u ∧ u.Sound
  := by
  obtain ⟨⟨o', u⟩, hu, hfst, hbu⟩ := (h.edit ht e).exists_right he
  obtain rfl : o = o' := hfst
  exact ⟨u, hu, hbu, ht.edit hu⟩

/-- An arena that is built from events stands for the tree of the events. -/
theorem represents_of_ofEvents {a : Arena} {es : List Event} (h : ofEvents es = .ok a) :
  ∃ t, a.Represents t ∧ t.Sound
  := by
  obtain ⟨t, ht, hrepresents⟩ := (ofEvents_agrees es).exists_right h
  exact ⟨t, hrepresents, .ofEvents ht⟩

/-- An arena that can be reached stands for a sound tree. -/
theorem Reachable.exists_represents {a : Arena} (h : a.Reachable) :
  ∃ t, a.Represents t ∧ t.Sound
  := by
  induction h with
  | built hes => apply represents_of_ofEvents hes
  | edited _ he ih =>
    obtain ⟨t, ht, hsound⟩ := ih
    obtain ⟨u, -, hu, hsound'⟩ := ht.exists_edit hsound he
    exact ⟨u, hu, hsound'⟩

end Arena

end Fettle
