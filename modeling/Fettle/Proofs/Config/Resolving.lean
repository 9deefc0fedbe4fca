import Fettle.Config.Settings

/-!
# What a resolver answers

A `Resolver` keeps the outcome of the first property that it reads under a name, and answers
with it whenever a property of that name is asked for.  `Remembers` says which properties a
resolver has read; `authority` is the one among them that decides what is answered for a
property.  After any questions a resolver answers as a new one does when each property that is
asked for is replaced by its authority (`ask_after`).  The answer is that of a new resolver for
the properties themselves if properties of one name have one value in the scope, as they do if
they are equal (`resolve_eq_of_remembers`).  Without that it need not be
(`exists_ask_after_ne`): a property can get the default or the fault of another.
-/

namespace Fettle

/-! ### Questions -/

/-- A question to a resolver: the value of a property, or the settings of several. -/
inductive Query where
  | value (p : Property)
  | resolve (ps : List Property)

/-- The answer to a question. -/
inductive Answer where
  | value (v : Except PropertyFault PropertyValue)
  | settings (s : Except PropertyFault Settings)

namespace Query

/-- The properties that a question is about. -/
def asked : Query → List Property
  | value p => [p]
  | resolve ps => ps

/-- A question about other properties. -/
def map (f : Property → Property) : Query → Query
  | value p => value (f p)
  | resolve ps => resolve (ps.map f)

end Query

namespace Resolver

/-- The answer to a question, and the resolver after it. -/
def ask (r : Resolver) : Query → Answer × Resolver
  | .value p => (.value (r.value p).1, (r.value p).2)
  | .resolve ps => (.settings (r.resolve ps).1, (r.resolve ps).2)

/-- The resolver after a list of questions. -/
def after (r : Resolver) (qs : List Query) : Resolver :=
  qs.foldl (fun r q => (r.ask q).2) r

end Resolver

/-! ### The property that is read under a name -/

/-- The property that decides what is answered for a property, when some have been read
before: the first of its name. -/
def authority (read : List Property) (p : Property) : Property :=
  (read.find? fun q => q.name = p.name).getD p

@[simp]
theorem name_authority (read : List Property) (p : Property) :
  (authority read p).name = p.name
  := by
  unfold authority
  cases h : read.find? fun q => q.name = p.name with
  | none => rfl
  | some q => simpa using List.find?_some h

theorem authority_mem (read : List Property) (p : Property) :
  authority read p = p ∨ authority read p ∈ read
  := by
  unfold authority
  cases h : read.find? fun q => q.name = p.name with
  | none => simp
  | some q => exact .inr (List.mem_of_find?_eq_some h)

theorem find?_map_authority (read ps : List Property) (p : Property) :
  ((ps.map (authority read)).find? fun q => q.name = p.name)
    = (ps.find? fun q => q.name = p.name).map (authority read)
  := by
  have hname : (fun q => decide (q.name = p.name)) ∘ authority read
      = fun q => decide (q.name = p.name) := by
    funext q
    rw [Function.comp_apply, name_authority]
  rw [List.find?_map, hname]

/-- Reading some properties and then others has the effect of reading, in place of the
others, their authorities. -/
theorem authority_append (read ps : List Property) (p : Property) :
  authority (read ++ ps) p = authority (ps.map (authority read)) (authority read p)
  := by
  have hname (q : Property) (h : q.name = p.name) :
      authority read q = (read.find? fun q => q.name = p.name).getD q := by
    rw [authority, h]
  rw [authority, authority, name_authority, find?_map_authority, List.find?_append]
  cases hps : ps.find? fun q => q.name = p.name with
  | none => simp [hname p rfl]
  | some q =>
    have hq : q.name = p.name := by simpa using List.find?_some hps
    rw [Option.map_some, Option.getD_some, hname q hq]
    cases read.find? fun q => q.name = p.name <;> rfl

/-- The properties that have been read when those of a list are asked for in turn, up to the
first that cannot be used. -/
def readUpTo (s : Scope) (read : List Property) : List Property → List Property
  | [] => read
  | p :: ps =>
    match (authority read p).resolve s with
    | .error _ => read ++ [p]
    | .ok _ => readUpTo s (read ++ [p]) ps

theorem readUpTo_subset (s : Scope) (read ps : List Property) :
  readUpTo s read ps ⊆ read ++ ps
  := by
  induction ps generalizing read with
  | nil => simp [readUpTo]
  | cons p ps ih =>
    unfold readUpTo
    split
    · apply List.append_subset.2
      simp
    · have h := ih (read ++ [p])
      simpa using h

/-- The properties that have been read after a question. -/
def Query.read (s : Scope) (read : List Property) : Query → List Property
  | value p => read ++ [p]
  | resolve ps => readUpTo s read ps

/-- The properties that have been read after a list of questions to a new resolver. -/
def history (s : Scope) (qs : List Query) : List Property :=
  qs.foldl (Query.read s) []

namespace Resolver

/-! ### Reading in turn -/

theorem values_cons_of_error {r : Resolver} {p : Property} {fault : PropertyFault}
    (h : (r.value p).1 = .error fault) (ps : List Property) :
  r.values (p :: ps) = (.error fault, (r.value p).2)
  := by
  rw [values]
  rcases hv : r.value p with ⟨v, r₁⟩
  rw [hv] at h
  obtain rfl : v = .error fault := h
  rfl

theorem values_cons_of_ok {r : Resolver} {p : Property} {v : PropertyValue}
    (h : (r.value p).1 = .ok v) (ps : List Property) :
  r.values (p :: ps) = (((r.value p).2.values ps).1.map ((p.name, v) :: ·),
    ((r.value p).2.values ps).2)
  := by
  rw [values]
  rcases hv : r.value p with ⟨v', r₁⟩
  rw [hv] at h
  obtain rfl : v' = .ok v := h
  rcases hps : r₁.values ps with ⟨vs, r₂⟩
  cases vs <;> simp [hps, Except.map]

/-! ### What a resolver remembers -/

/-- A resolver of a scope has read the properties of a list, in order. -/
structure Remembers (r : Resolver) (s : Scope) (read : List Property) : Prop where
  scope_eq : r.scope = s
  lookup_eq (name : String) :
    r.known.lookup name = (read.find? fun q => q.name = name).map fun q => q.resolve s

namespace Remembers

variable {r r' : Resolver} {s : Scope} {read : List Property}

theorem ofScope (s : Scope) :
  (Resolver.ofScope s).Remembers s []
  where
  scope_eq := rfl
  lookup_eq _ := rfl

/-- What is answered for a property is the value of its authority. -/
theorem fst_value (h : r.Remembers s read) (p : Property) :
  (r.value p).1 = (authority read p).resolve s
  := by
  have hp := h.lookup_eq p.name
  unfold Resolver.value authority
  cases hf : read.find? fun q => q.name = p.name with
  | none => simp [hp, hf, h.scope_eq]
  | some q => simp [hp, hf]

theorem snd_value (h : r.Remembers s read) (p : Property) :
  (r.value p).2.Remembers s (read ++ [p])
  := by
  have hp := h.lookup_eq p.name
  unfold Resolver.value
  cases hf : read.find? fun q => q.name = p.name with
  | none =>
    rw [hf] at hp
    simp only [hp, Option.map_none]
    refine ⟨h.scope_eq, fun name => ?_⟩
    rw [List.lookup_cons, List.find?_append, h.lookup_eq]
    by_cases hn : name = p.name
    · simp [hn, hf, h.scope_eq]
    · have hn' : p.name ≠ name := fun e => hn e.symm
      simp [beq_eq_false_iff_ne.2 hn, hn']
  | some q =>
    rw [hf] at hp
    simp only [hp, Option.map_some]
    refine ⟨h.scope_eq, fun name => ?_⟩
    rw [List.find?_append, h.lookup_eq]
    by_cases hn : name = p.name
    · simp [hn, hf]
    · have hn' : p.name ≠ name := fun e => hn e.symm
      simp [hn']

theorem snd_values (h : r.Remembers s read) (ps : List Property) :
  (r.values ps).2.Remembers s (readUpTo s read ps)
  := by
  induction ps generalizing r read with
  | nil => exact h
  | cons p ps ih =>
    have hv := h.fst_value p
    have hr := h.snd_value p
    unfold Resolver.values readUpTo
    rcases hp : r.value p with ⟨v, r₁⟩
    rw [hp] at hv hr
    rw [← hv]
    cases v with
    | error fault => exact hr
    | ok v =>
      have hrest := ih hr
      rcases hps : r₁.values ps with ⟨vs, r₂⟩
      rw [hps] at hrest
      cases vs <;> simpa [hps] using hrest

/-- A resolver that has read more than another, which is asked for the authorities under what
it has not read, gives the same values. -/
theorem fst_values {ps : List Property}
    (h : r.Remembers s (read ++ ps)) (h' : r'.Remembers s (ps.map (authority read)))
    (qs : List Property) :
  (r.values qs).1 = (r'.values (qs.map (authority read))).1
  := by
  induction qs generalizing r r' ps with
  | nil => rfl
  | cons q qs ih =>
    have hq := h.fst_value q
    have hq' := h'.fst_value (authority read q)
    have hr := h.snd_value q
    have hr' := h'.snd_value (authority read q)
    rw [authority_append] at hq
    rw [List.append_assoc] at hr
    rw [show ps.map (authority read) ++ [authority read q]
      = (ps ++ [q]).map (authority read) by simp] at hr'
    rw [List.map_cons, Resolver.values, Resolver.values]
    rcases hv : r.value q with ⟨v, r₁⟩
    rcases hv' : r'.value (authority read q) with ⟨v', r₁'⟩
    rw [hv] at hq hr
    rw [hv'] at hq' hr'
    obtain rfl : v = v' := hq.trans hq'.symm
    have hrest := ih hr hr'
    rcases hs : r₁.values qs with ⟨vs, r₂⟩
    rcases hs' : r₁'.values (qs.map (authority read)) with ⟨vs', r₂'⟩
    rw [hs, hs'] at hrest
    obtain rfl : vs = vs' := hrest
    cases v with
    | error fault => rfl
    | ok v => cases vs <;> simp [hs, hs']

/-- After a question a resolver remembers what it was asked to read. -/
theorem ask (h : r.Remembers s read) (q : Query) :
  (r.ask q).2.Remembers s (q.read s read)
  := by
  cases q with
  | value p => apply h.snd_value
  | resolve ps => apply h.snd_values

theorem after (h : r.Remembers s read) (qs : List Query) :
  (r.after qs).Remembers s (qs.foldl (Query.read s) read)
  := by
  induction qs generalizing r read with
  | nil => exact h
  | cons q qs ih =>
    apply ih
    apply h.ask

/-- A resolver answers as a new one does when it is asked for the authorities. -/
theorem fst_ask (h : r.Remembers s read) (q : Query) :
  (r.ask q).1 = ((Resolver.ofScope s).ask (q.map (authority read))).1
  := by
  have hnew := Remembers.ofScope s
  cases q with
  | value p =>
    have hself : authority [] (authority read p) = authority read p := rfl
    simp only [Resolver.ask, Query.map]
    rw [h.fst_value, hnew.fst_value, hself]
  | resolve ps =>
    have hread : r.Remembers s (read ++ []) := by rwa [List.append_nil]
    have hvalues := hread.fst_values hnew ps
    simp only [Resolver.ask, Query.map, Resolver.resolve]
    rw [hvalues]

end Remembers

/-! ### Properties of one name with one value -/

/-- A resolver cannot tell properties apart that have the same name and the same value in its
scope. -/
theorem values_map {r : Resolver} {f : Property → Property} {ps : List Property}
    (hf : ∀ p ∈ ps, (f p).name = p.name ∧ (f p).resolve r.scope = p.resolve r.scope) :
  r.values (ps.map f) = r.values ps
  := by
  induction ps generalizing r with
  | nil => rfl
  | cons p ps ih =>
    obtain ⟨hname, hvalue⟩ := hf p (by simp)
    have hp : r.value (f p) = r.value p := by
      unfold Resolver.value
      rw [hname, hvalue]
    have hscope : (r.value p).2.scope = r.scope := by
      unfold Resolver.value
      split <;> rfl
    have hrest : (r.value p).2.values (ps.map f) = (r.value p).2.values ps := by
      apply ih
      intro q hq
      rw [hscope]
      exact hf q (by simp [hq])
    rw [List.map_cons, Resolver.values, Resolver.values, hp, hname]
    rcases hv : r.value p with ⟨v, r₁⟩
    rw [hv] at hrest
    cases v with
    | error fault => rfl
    | ok v => simp only [hrest]

theorem ask_map {r : Resolver} {f : Property → Property} {q : Query}
    (hf : ∀ p ∈ q.asked, (f p).name = p.name ∧ (f p).resolve r.scope = p.resolve r.scope) :
  r.ask (q.map f) = r.ask q
  := by
  cases q with
  | value p =>
    obtain ⟨hname, hvalue⟩ := hf p (by simp [Query.asked])
    simp only [ask, Query.map, value, hname, hvalue]
  | resolve ps =>
    have hvalues : r.values (ps.map f) = r.values ps := values_map hf
    simp only [ask, Query.map, resolve, hvalues]

end Resolver

/-- A resolver that has read properties of one scope gives the settings that a new one gives
if it has read nothing else under the names of the properties asked for. -/
theorem Resolver.resolve_eq_of_remembers {r : Resolver} {s : Scope} {read ps : List Property}
    (h : r.Remembers s read) (hsame : ∀ p ∈ ps, ∀ q ∈ read, q.name = p.name → q = p) :
  (r.resolve ps).1 = ((Resolver.ofScope s).resolve ps).1
  := by
  have hself : ps.map (authority read) = ps := by
    have hp (p : Property) (hp : p ∈ ps) : authority read p = id p := by
      rcases authority_mem read p with he | hmem
      · exact he
      · exact hsame p hp _ hmem (name_authority read p)
    rw [List.map_congr_left hp, List.map_id]
  have hask := h.fst_ask (.resolve ps)
  simp only [Resolver.ask, Query.map, hself, Answer.settings.injEq] at hask
  exact hask

/-- What has been read by a list of questions is among what they were about. -/
theorem history_subset (s : Scope) (qs : List Query) :
  history s qs ⊆ qs.flatMap Query.asked
  := by
  have hstep (read : List Property) (q : Query) : q.read s read ⊆ read ++ q.asked := by
    cases q with
    | value p => apply List.Subset.refl
    | resolve ps => apply readUpTo_subset
  have hrun (qs : List Query) (read : List Property) :
      qs.foldl (Query.read s) read ⊆ read ++ qs.flatMap Query.asked := by
    induction qs generalizing read with
    | nil => simp
    | cons q qs ih =>
      intro p hp
      have hp' := ih (q.read s read) hp
      rw [List.flatMap_cons, ← List.append_assoc]
      rcases List.mem_append.1 hp' with h | h
      · exact List.mem_append_left _ (hstep read q h)
      · exact List.mem_append_right _ h
  exact hrun qs []

/-- After any questions a resolver answers as a new one does when each property asked for is
replaced by the first that was read under its name; so if properties of one name have one
value in the scope, the questions before make no difference. -/
theorem ask_after (s : Scope) (qs : List Query) (q : Query) :
  (((Resolver.ofScope s).after qs).ask q).1
      = ((Resolver.ofScope s).ask (q.map (authority (history s qs)))).1
    ∧ ((∀ p ∈ (qs ++ [q]).flatMap Query.asked, ∀ p' ∈ (qs ++ [q]).flatMap Query.asked,
          p'.name = p.name → p'.resolve s = p.resolve s)
        → (((Resolver.ofScope s).after qs).ask q).1 = ((Resolver.ofScope s).ask q).1)
  := by
  have hanswer : (((Resolver.ofScope s).after qs).ask q).1
      = ((Resolver.ofScope s).ask (q.map (authority (history s qs)))).1 := by
    apply Resolver.Remembers.fst_ask
    exact (Resolver.Remembers.ofScope s).after qs
  refine ⟨hanswer, fun hsame => ?_⟩
  rw [hanswer, Resolver.ask_map]
  intro p hp
  refine ⟨name_authority _ p, ?_⟩
  apply hsame p (by simp [hp])
  · rcases authority_mem (history s qs) p with h | h
    · simp [h, hp]
    · rw [List.flatMap_append]
      exact List.mem_append_left _ (history_subset s qs h)
  · apply name_authority

/-- A question after which the other properties of a file are read as if it had not been
asked. -/
theorem ask_after_indentSize :
  (((Resolver.ofScope (.ofList [("indent_size", .integer 2)])).after
      [.value .indentSize]).ask (.resolve [.indentStyle, .indentSize])).1
    = ((Resolver.ofScope (.ofList [("indent_size", .integer 2)])).ask
        (.resolve [.indentStyle, .indentSize])).1
  := by
  apply (ask_after (.ofList [("indent_size", .integer 2)]) [.value .indentSize]
    (.resolve [.indentStyle, .indentSize])).2
  simp [Query.asked, Property.indentSize, Property.indentStyle]

/-- A property of truth values that is set to `true` is answered with the fault of an integer
property of its name that was asked for before. -/
theorem exists_ask_after_ne :
  ¬ ∀ (s : Scope) (qs : List Query) (q : Query),
      (((Resolver.ofScope s).after qs).ask q).1 = ((Resolver.ofScope s).ask q).1
  := by
  intro h
  have hbool := h (.ofList [("p", .string "true")]) [.value ⟨"p", .int [], .int 1⟩]
    (.value ⟨"p", .bool, .bool false⟩)
  have hafter : (((Resolver.ofScope (.ofList [("p", .string "true")])).after
      [.value ⟨"p", .int [], .int 1⟩]).ask (.value ⟨"p", .bool, .bool false⟩)).1
        = .value (.error (.invalid "p" "true" "an integer")) := by
    rfl
  have hnew : ((Resolver.ofScope (.ofList [("p", .string "true")])).ask
      (.value ⟨"p", .bool, .bool false⟩)).1 = .value (.ok (.bool true)) := by
    rfl
  rw [hafter, hnew] at hbool
  cases hbool

end Fettle
