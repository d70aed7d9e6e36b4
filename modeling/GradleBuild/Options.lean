import GradleBuild.Path

/-!
# Command-line options

What a command line can ask for.  Options that name configuration keys are handed to the configuration as overrides
`section/key=value`, after the overrides given in so many words.
-/

namespace GradleBuild

/-- What can be built: the library, or its documentation. -/
inductive Component where
  | lib
  | doc
  deriving DecidableEq, Repr

def Component.name : Component → String
  | lib => "lib"
  | doc => "doc"

def Component.ofName? (name : String) : Option Component :=
  if name = "lib" then some lib else if name = "doc" then some doc else none

/-- The options that hold for any component. -/
structure Options where
  projectRoot : Option Path := none
  configs : List Path := []
  dry : Bool := false
  logLevel : Option Nat := none
  fileLogLevel : Option Nat := none
  logFile : Option Path := none
  settings : List String := []
  deriving DecidableEq, Repr, Inhabited

/-- What to build, and whether to clean before. -/
structure Request where
  component : Component
  cleanBuild : Bool := false
  deriving DecidableEq, Repr

/-- The overrides given as such, then those of the dedicated options, which therefore win. -/
def Options.overrides (o : Options) : List String :=
  o.settings
    ++ o.logLevel.toList.map (fun n => "global/output_log_level=" ++ toString n)
    ++ o.fileLogLevel.toList.map (fun n => "global/file_log_level=" ++ toString n)
    ++ o.logFile.toList.map (fun p => "global/log_file=" ++ p.display)
    ++ (if o.dry then ["global/dry=true"] else [])

end GradleBuild
