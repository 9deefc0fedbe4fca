import Fettle.Rule

/-!
# The order of rules

`Registered.ofRule` reads the id of a rule and the ids in its modifiers.  `registration`
checks a list of rules and rule sets: every id is well formed, no id occurs twice, the rules
of a set carry its name, and every required rule is there.

`executionOrder` puts registered rules in the order in which they run.  The next rule is the
least of those that are *free*, which no rule still to come has to precede; rules that ask to
run late come after those that do not, and among these the order is that of their ids.  A
`Queue` counts for each rule that is not free how many rules it waits for.  If no rule is free,
the rules that are left contain a cycle, which `cycleIn` finds.
-/

namespace Fettle

/-- A rule with its id and modifiers read. -/
structure Registered where
  id : RuleId
  rule : Rule
  runAfter : List RuleId
  requires : List RuleId
  late : Bool

/-- Why rules cannot be registered. -/
inductive RegistrationFault where
  | naming (fault : NamingFault)
  | duplicate (rule : RuleId)
  | foreignRule (rule : RuleId) (ruleSet : String)
  | missingRequirement (rule required : RuleId)
  | cycle (members : List RuleId)
  deriving DecidableEq, Repr

namespace RegistrationFault

/-- A cycle as a path from its first rule back to it. -/
def showCycle (members : List RuleId) : String :=
  String.intercalate " -> " ((members ++ members.take 1).map RuleId.text)

/-- The wording of a registration fault. -/
def message : RegistrationFault → String
  | naming fault => fault.message
  | duplicate rule => "Rule '" ++ rule.text ++ "' is registered more than once"
  | foreignRule rule ruleSet =>
    "Rule '" ++ rule.text ++ "' does not belong to rule set '" ++ ruleSet ++ "'"
  | missingRequirement rule required =>
    "Rule '" ++ rule.text ++ "' requires rule '" ++ required.text
      ++ "' which is not registered"
  | cycle members => "Run-after constraints form a cycle: " ++ showCycle members

/-- The code under which a registration fault is documented. -/
def code : RegistrationFault → String
  | naming _ => "kotlint::registration::naming"
  | duplicate _ => "kotlint::registration::duplicate"
  | foreignRule _ _ => "kotlint::registration::rule_set_mismatch"
  | missingRequirement _ _ => "kotlint::registration::missing_required_rule"
  | cycle _ => "kotlint::registration::cycle"

/-- What can be done about a registration fault. -/
def help? : RegistrationFault → Option String
  | naming _ =>
    some "ids are lowercase words separated by single hyphens, e.g. 'no-multi-spaces'"
  | missingRequirement _ _ =>
    some "register the required rule or remove the requiring rule"
  | cycle _ => some "remove one of the run-after modifiers between these rules"
  | duplicate _ | foreignRule _ _ => none

end RegistrationFault

/-! ### Registration -/

/-- The id that a text names. -/
def readId (id : String) : Except RegistrationFault RuleId :=
  (RuleId.parse id).mapError .naming

namespace Registered

/-- A registered rule with one more modifier read. -/
def withModifier (r : Registered) : Modifier → Except RegistrationFault Registered
  | .runAfter other => (readId other).map fun id => { r with runAfter := r.runAfter ++ [id] }
  | .requires other => (readId other).map fun id => { r with requires := r.requires ++ [id] }
  | .late => .ok { r with late := true }

/-- A rule with its id and modifiers read. -/
def ofRule (rule : Rule) : Except RegistrationFault Registered := do
  let id ← readId rule.id
  rule.modifiers.foldlM withModifier ⟨id, rule, [], [], false⟩

/-- A rule of a rule set of a given name. -/
def ofMember (ruleSet : String) (rule : Rule) : Except RegistrationFault Registered := do
  let r ← ofRule rule
  if r.id.ruleSet = ruleSet then .ok r else .error (.foreignRule r.id ruleSet)

/-- The rules of a rule set. -/
def ofSet (s : RuleSet) : Except RegistrationFault (List Registered) :=
  match ruleSetFault? s.id with
  | some fault => .error (.naming fault)
  | none => s.rules.mapM (ofMember s.id)

/-- Whether a rule stands before another: rules that run late stand behind those that do not,
and otherwise the order is that of the ids. -/
def precedes (a b : Registered) : Bool :=
  if a.late = b.late then a.id < b.id else b.late

end Registered

/-- The first id of a list that has occurred before it. -/
def repeated? (seen : List RuleId) : List RuleId → Option RuleId
  | [] => none
  | id :: ids => if seen.contains id then some id else repeated? (id :: seen) ids

/-- The first rule that requires a rule that is not there, and that rule. -/
def missing? (rules : List Registered) : Option (RuleId × RuleId) :=
  rules.findSome? fun r =>
    (r.requires.find? fun id => !(rules.map Registered.id).contains id).map (r.id, ·)

/-- The rules that are registered one by one and as members of rule sets. -/
def registration (rules : List Rule) (sets : List RuleSet) :
    Except RegistrationFault (List Registered) := do
  let single ← rules.mapM Registered.ofRule
  let members ← sets.mapM Registered.ofSet
  let all := single ++ members.flatten
  match repeated? [] (all.map Registered.id) with
  | some id => .error (.duplicate id)
  | none =>
    match missing? all with
    | some (rule, required) => .error (.missingRequirement rule required)
    | none => .ok all

/-! ### Ordering -/

/-- The first rule of a list in the order of rules that are free. -/
def least? : List Registered → Option Registered
  | [] => none
  | r :: rs =>
    match least? rs with
    | none => some r
    | some m => if m.precedes r then some m else some r

/-- The rules of a list that a rule has to come after, each once. -/
def predecessors (rules : List Registered) (r : Registered) : List RuleId :=
  sortedIds (r.runAfter.filter fun id => (rules.map Registered.id).contains id)

/-- A rule that has to wait, and the number of rules for which it still does. -/
structure Waiting where
  rule : Registered
  degree : Nat

/-- The state of a rule after a rule of a given id has come. -/
def Waiting.after (id : RuleId) (w : Waiting) : Waiting :=
  if w.rule.runAfter.contains id then { w with degree := w.degree - 1 } else w

/-- The rules still to come: those that can come next, and those that have to wait. -/
structure Queue where
  free : List Registered
  waiting : List Waiting

namespace Queue

/-- The queue of some rules that are free and some others, which are free too unless they have
to wait for a rule. -/
def release (free : List Registered) (others : List Waiting) : Queue where
  free := free ++ (others.filter fun w => w.degree = 0).map Waiting.rule
  waiting := others.filter fun w => w.degree ≠ 0

/-- The queue before any rule has come. -/
def ofRules (rules : List Registered) : Queue :=
  release [] (rules.map fun r => ⟨r, (predecessors rules r).length⟩)

/-- The queue after a free rule has come. -/
def next (q : Queue) (r : Registered) : Queue :=
  release (q.free.filter fun p => p.id ≠ r.id) (q.waiting.map (Waiting.after r.id))

end Queue

/-- The rules in execution order, up to a number of them, and those that are left. -/
def arrange : Nat → Queue → List Registered × List Registered
  | 0, q => ([], q.free ++ q.waiting.map Waiting.rule)
  | n + 1, q =>
    match least? q.free with
    | none => ([], q.waiting.map Waiting.rule)
    | some r =>
      let (order, left) := arrange n (q.next r)
      (r :: order, left)

/-- The least id of a list. -/
def leastId? : List RuleId → Option RuleId
  | [] => none
  | id :: ids =>
    match leastId? ids with
    | none => some id
    | some m => if m < id then some m else some id

/-- The least of the rules in `rest` that a rule of `rest` has to come after. -/
def predecessorIn? (rest : List Registered) (id : RuleId) : Option RuleId := do
  let r ← rest.find? fun r => r.id = id
  leastId? (r.runAfter.filter fun p => (rest.map Registered.id).contains p)

/-- A list turned round so that the least id comes first. -/
def rotateToLeast (ids : List RuleId) : List RuleId :=
  match leastId? ids with
  | none => ids
  | some m => ids.dropWhile (· ≠ m) ++ ids.takeWhile (· ≠ m)

/-- The cycle reached by going from predecessor to predecessor, at most a number of times.
The path so far is given from its end. -/
def followBack (rest : List Registered) : Nat → RuleId → List RuleId → List RuleId
  | 0, _, path => path.reverse
  | n + 1, current, path =>
    match predecessorIn? rest current with
    | none => path.reverse
    | some p =>
      if path.contains p then rotateToLeast (path.takeWhile (· ≠ p) ++ [p])
      else followBack rest n p (p :: path)

/-- A cycle among rules none of which is free. -/
def cycleIn (rest : List Registered) : List RuleId :=
  match leastId? (rest.map Registered.id) with
  | none => []
  | some start => followBack rest rest.length start [start]

/-- The rules in the order in which they run. -/
def executionOrder (rules : List Registered) :
    Except RegistrationFault (List Registered) :=
  match arrange rules.length (.ofRules rules) with
  | (order, []) => .ok order
  | (_, rest) => .error (.cycle (cycleIn rest))

end Fettle
