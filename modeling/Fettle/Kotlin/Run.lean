import Fettle.Config.Basic
import Fettle.Engine.Run
import Fettle.Kotlin.Source
import Fettle.Rules.Standard

/-!
# Running rules over Kotlin source

`lintSource` and `formatSource` run the standard rules over one source with the properties
that a configuration has for all files.  `runSources` runs an engine over several sources, each
with the properties that the configuration has for its path; if one of them is no Kotlin, none
is looked at.
-/

namespace Fettle.Kotlin

/-- Why sources cannot be run over: the rules cannot be registered, or the source of a path,
if it has one, is no Kotlin. -/
inductive SourceFault where
  | registration (fault : RegistrationFault)
  | notKotlin (path : Option String)
  deriving DecidableEq, Repr

/-- A source and its path. -/
structure SourceFile where
  path : String
  text : String
  deriving DecidableEq, Repr

/-- The engine of the standard rule set. -/
def standardEngine (c : Config) : Except RegistrationFault Engine :=
  (({} : Engine.Setup).withRuleSet standardRuleSet |>.withConfig c).build

/-- The engine of the rules of a preset. -/
def presetEngine (p : Preset) (c : Config) : Except RegistrationFault Engine :=
  (p.rules.foldl Engine.Setup.withRule (({} : Engine.Setup).withConfig c)).build

/-- The tree of the source of a path. -/
def readSource (path : Option String) (text : String) : Except SourceFault Tree :=
  match parse? text with
  | some t => .ok t
  | none => .error (.notKotlin path)

/-- The report on one source. -/
def runSource (mode : Mode) (c : Config) (text : String) : Except SourceFault FileReport := do
  let e ← (standardEngine c).mapError .registration
  let t ← readSource none text
  return (e.run mode t c.globalScope).1

/-- The report on one source. -/
def lintSource (c : Config) (text : String) : Except SourceFault FileReport :=
  runSource .lint c text

/-- The report on one source after fixing, with its text. -/
def formatSource (c : Config) (text : String) : Except SourceFault FileReport :=
  runSource .format c text

/-- A source with the scope of its path. -/
def inputOf (c : Config) (f : SourceFile) : Except SourceFault FileInput :=
  (readSource (some f.path) f.text).map fun t => ⟨some f.path, t, c.scopeFor f.path⟩

/-- The reports on several sources. -/
def runSources (e : Engine) (mode : Mode) (c : Config) (files : List SourceFile) :
    Except SourceFault Report :=
  (files.mapM (inputOf c)).map (e.runFiles mode)

end Fettle.Kotlin
