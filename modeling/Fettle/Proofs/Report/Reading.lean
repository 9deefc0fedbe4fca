import Fettle.Report.Codec

/-!
# Reading reports that were written

A report is `Countable` if its counts are ones that JSON holds.  Whatever else is in such a report,
and whatever is left out of it, reading what was written yields the report again
(`Report.ofJson?_toJson_of_countable`).

The members of a record are looked up by name.  A member that is written under a name is found
under it (`Json.required_eq`, `Json.optional_eq`), one that is left out has its default, and the
members that may be left out (`Json.memberOf`) do not hide those that come after them.
-/

namespace Fettle

namespace Json

variable {α : Type} {read : Json → Option α} {write : α → Json} {ms : List (String × Json)}
  {field name : String}

/-! ### Members of a record -/

/-- A member is not found under another name. -/
theorem lookup_cons_of_ne (hne : field ≠ name) (j : Json) :
  ((name, j) :: ms).lookup field = ms.lookup field
  := by
  rw [List.lookup_cons, beq_false_of_ne hne]

/-- A member that may be left out is not found under another name. -/
theorem lookup_memberOf_append (hne : field ≠ name) (o : Option α) :
  (memberOf name write o ++ ms).lookup field = ms.lookup field
  := by
  cases o with
  | none => rfl
  | some a => exact lookup_cons_of_ne hne (write a)

/-- A member that may be left out is found under its name, if none comes later. -/
theorem lookup_memberOf_append_self (hms : ms.lookup field = none) (o : Option α) :
  (memberOf field write o ++ ms).lookup field = o.map write
  := by
  cases o with
  | none => exact hms
  | some a =>
    rw [memberOf, List.singleton_append, List.lookup_cons_self]
    rfl

/-- A value that is looked up is read. -/
theorem required_eq (write : α → Json) {a : α} (hlookup : ms.lookup field = some (write a))
    (hread : read (write a) = some a) :
  required read ms field = some a
  := by
  rw [required, hlookup, Option.bind_some, hread]

/-- A value that may be missing is read as it was written, which was not as null. -/
theorem optional_eq (write : α → Json) {o : Option α} (hlookup : ms.lookup field = o.map write)
    (hread : ∀ a, read (write a) = some a) (hnull : ∀ a, write a ≠ null) :
  optional read ms field = some o
  := by
  rw [optional, hlookup]
  cases o with
  | none => rfl
  | some a =>
    rw [Option.map_some]
    split
    · cases ‹some (write a) = none›
    · rename_i heq
      exact absurd (Option.some.inj heq) (hnull a)
    · rename_i heq
      rw [← Option.some.inj heq, hread]
      rfl

/-- A list that is left out if it is empty is read as it was written. -/
theorem defaulted_eq (write : α → Json) {as : List α}
    (hlookup : ms.lookup field = if as.isEmpty then none else some (array (as.map write)))
    (hread : ∀ a ∈ as, read (write a) = some a) :
  defaulted (list? read) [] ms field = some as
  := by
  rw [defaulted, hlookup]
  cases as with
  | nil => rfl
  | cons a as => exact list?_map hread

end Json

/-! ### Counts -/

/-- The counts of a violation are ones that JSON holds. -/
def Violation.Countable (v : Violation) : Prop :=
  v.line < Json.countLimit ∧ v.column < Json.countLimit

/-- The number of passes that a diagnostic tells, if it does. -/
def Diagnostic.passes? : Diagnostic → Option Nat
  | unstable _ passes | timedOut passes => some passes
  | _ => none

/-- The counts of a file report are ones that JSON holds. -/
structure FileReport.Countable (r : FileReport) : Prop where
  violations : ∀ v ∈ r.violations, v.Countable
  diagnostics : ∀ d ∈ r.diagnostics, ∀ n ∈ d.passes?, n < Json.countLimit
  passes : r.passes < Json.countLimit

/-- The counts of a report are ones that JSON holds. -/
def Report.Countable (r : Report) : Prop :=
  ∀ f ∈ r.files, f.Countable

/-! ### Records -/

open Json

/-- A violation whose fields are all found is read. -/
theorem Violation.ofJson?_object {v : Violation} {ms : List (String × Json)}
    (hline : required nat? ms "line" = some v.line)
    (hcolumn : required nat? ms "column" = some v.column)
    (hid : required text? ms "ruleId" = some v.ruleId)
    (hmessage : required text? ms "message" = some v.message)
    (hcorrectable : required flag? ms "canBeAutoCorrected" = some v.correctable)
    (hnote : Json.optional readNote? ms "note" = some (if v.unstable then some () else none)) :
  ofJson? (.object ms) = some v
  := by
  have hunstable : (if v.unstable then some () else none).isSome = v.unstable := by
    cases v.unstable <;> rfl
  rw [ofJson?, members?]
  simp only [hline, hcolumn, hid, hmessage, hcorrectable, hnote, hunstable, Option.bind_eq_bind,
    Option.bind_some, Option.pure_def]

/-- A violation is read as it was written. -/
theorem Violation.ofJson?_toJson {v : Violation} (h : v.Countable) :
  ofJson? v.toJson = some v
  := by
  rw [toJson]
  apply Violation.ofJson?_object
  · exact required_eq _ rfl (nat?_ofNat h.1)
  · exact required_eq _ rfl (nat?_ofNat h.2)
  · rfl
  · rfl
  · rfl
  · cases v.unstable <;> rfl

/-- A diagnostic about a rule and a number of passes is read, if its fields are found. -/
theorem Diagnostic.ofBody?_unstable {id : String} {passes : Nat} {ms : List (String × Json)}
    (hid : required text? ms "ruleId" = some id) (hpasses : required nat? ms "passes" = some passes) :
  ofBody? "unstable" (.object ms) = some (unstable id passes)
  := by
  simp only [ofBody?, members?, hid, hpasses, Option.bind_eq_bind, Option.bind_some,
    Option.pure_def]

/-- A diagnostic about a number of passes is read, if its field is found. -/
theorem Diagnostic.ofBody?_timedOut {passes : Nat} {ms : List (String × Json)}
    (hpasses : required nat? ms "passes" = some passes) :
  ofBody? "timedOut" (.object ms) = some (timedOut passes)
  := by
  simp only [ofBody?, members?, hpasses, Option.bind_eq_bind, Option.bind_some, Option.pure_def]

/-- A diagnostic of any kind is read as it was written. -/
theorem Diagnostic.ofJson?_toJson {d : Diagnostic}
    (h : ∀ n ∈ d.passes?, n < countLimit) :
  ofJson? d.toJson = some d
  := by
  have hkind : ∀ ms, ofJson? (.object (("kind", .string d.kindName) :: ms))
      = ofBody? d.kindName (.object (("kind", .string d.kindName) :: ms)) := fun _ => rfl
  rw [toJson, hkind]
  cases d with
  | property id message => rfl
  | ruleState id message => rfl
  | missingRequiredRule id required => rfl
  | unstable id passes =>
    exact ofBody?_unstable rfl (required_eq _ rfl (nat?_ofNat (h passes rfl)))
  | autocorrectAborted id message =>
    cases id with
    | none => rfl
    | some id => rfl
  | timedOut passes =>
    exact ofBody?_timedOut (required_eq _ rfl (nat?_ofNat (h passes rfl)))
  | ruleFailed id message => rfl
  | invalidOffset id message => rfl

/-- A file report whose fields are all found is read. -/
theorem FileReport.ofJson?_object {r : FileReport} {ms : List (String × Json)}
    (hpath : Json.optional text? ms "path" = some r.path)
    (hviolations : required (list? Violation.ofJson?) ms "violations" = some r.violations)
    (hdiagnostics : defaulted (list? Diagnostic.ofJson?) [] ms "diagnostics" = some r.diagnostics)
    (hformatted : Json.optional text? ms "formatted" = some r.formatted)
    (hpasses : required nat? ms "passes" = some r.passes) :
  ofJson? (.object ms) = some r
  := by
  rw [ofJson?, members?]
  simp only [hpath, hviolations, hdiagnostics, hformatted, hpasses, Option.bind_eq_bind,
    Option.bind_some, Option.pure_def]

/-- A file report is read as it was written. -/
theorem FileReport.ofJson?_toJson {r : FileReport} (h : r.Countable) :
  ofJson? r.toJson = some r
  := by
  have hnull : ∀ s, string s ≠ null := fun _ => nofun
  -- the diagnostics too are a member that may be left out
  have hdiagnostics : (if r.diagnostics.isEmpty then []
        else [("diagnostics", array (r.diagnostics.map Diagnostic.toJson))])
      = memberOf "diagnostics" id (if r.diagnostics.isEmpty then none
        else some (array (r.diagnostics.map Diagnostic.toJson))) := by
    cases r.diagnostics with
    | nil => rfl
    | cons d ds => rfl
  rw [toJson, hdiagnostics]
  simp only [List.append_assoc, List.cons_append, List.nil_append]
  apply FileReport.ofJson?_object
  · refine optional_eq string ?_ (fun _ => rfl) hnull
    apply lookup_memberOf_append_self
    simp (disch := decide) only [lookup_cons_of_ne, lookup_memberOf_append, List.lookup_nil]
  · refine required_eq (fun vs => array (vs.map Violation.toJson)) ?_ ?_
    · simp (disch := decide) only [List.lookup_cons_self, lookup_memberOf_append]
    · exact list?_map fun v hv => Violation.ofJson?_toJson (h.violations v hv)
  · apply defaulted_eq Diagnostic.toJson
    · simp (disch := decide) only [lookup_cons_of_ne, lookup_memberOf_append]
      rw [lookup_memberOf_append_self, Option.map_id, id]
      simp (disch := decide) only [lookup_cons_of_ne, lookup_memberOf_append, List.lookup_nil]
    · exact fun d hd => Diagnostic.ofJson?_toJson (h.diagnostics d hd)
  · refine optional_eq string ?_ (fun _ => rfl) hnull
    simp (disch := decide) only [lookup_cons_of_ne, lookup_memberOf_append]
    apply lookup_memberOf_append_self
    simp (disch := decide) only [lookup_cons_of_ne, List.lookup_nil]
  · refine required_eq Json.ofNat ?_ (nat?_ofNat h.passes)
    simp (disch := decide) only [lookup_cons_of_ne, lookup_memberOf_append, List.lookup_cons_self]

/-- A report is read as it was written. -/
theorem Report.ofJson?_toJson_of_countable {r : Report} (h : r.Countable) :
  ofJson? r.toJson = some r
  := by
  have hfiles : required (list? FileReport.ofJson?)
      [("files", array (r.files.map FileReport.toJson))] "files" = some r.files := by
    rw [required, List.lookup_cons_self]
    exact list?_map fun f hf => FileReport.ofJson?_toJson (h f hf)
  rw [toJson, ofJson?, members?]
  simp only [hfiles, Option.bind_eq_bind, Option.bind_some, Option.pure_def]

/-- A report of two files: one that was fixed, with a diagnostic of each kind, and one without a
path in which nothing was found. -/
def Report.specimen : Report :=
  ⟨[⟨some "src/Main.kt",
      [⟨1, 2, "standard:final-newline", "File must end with a newline (\\n)", true, false⟩,
        ⟨3, 18446744073709551615, "standard:filename", "", false, true⟩],
      [.property "a:b" "m", .ruleState "a:b" "m", .missingRequiredRule "a:b" "c:d",
        .unstable "a:b" 3, .autocorrectAborted (some "a:b") "m", .autocorrectAborted none "m",
        .timedOut 0, .ruleFailed "a:b" "m", .invalidOffset "a:b" "m"],
      some "val a\n", 4⟩,
    ⟨none, [], [], none, 1⟩]⟩

theorem Report.ofJson?_toJson_of_specimen :
  specimen.Countable ∧ ofJson? specimen.toJson = some specimen
  := by
  have hcountable : specimen.Countable := by
    intro f hf
    simp only [specimen, List.mem_cons, List.not_mem_nil, or_false] at hf
    obtain rfl | rfl := hf
    · refine ⟨?_, ?_, by decide⟩ <;> simp [Violation.Countable, Diagnostic.passes?, countLimit]
    · exact ⟨nofun, nofun, by decide⟩
  exact ⟨hcountable, Report.ofJson?_toJson_of_countable hcountable⟩

end Fettle
