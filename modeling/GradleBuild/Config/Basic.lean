import GradleBuild.Config.Layout
import GradleBuild.Log.Settings
import GradleBuild.Text.Blank

/-!
# The configuration

A configuration has three sections: `global` for dry runs and logs, `paths` for the directories, `gradle` for the tool.

`validate` rejects values that can be read but would lead a build astray: an empty path means the directory above it.
`listing` shows every value in force as a line `section.key = value`, with the keys in order.
-/

namespace GradleBuild

/-- How Gradle draws its output; the two modes that draw progress need the terminal itself. -/
inductive ConsoleMode where
  | plain
  | auto
  | rich
  | verbose
  deriving DecidableEq, Repr, Inhabited

namespace ConsoleMode

def name : ConsoleMode → String
  | plain => "plain"
  | auto => "auto"
  | rich => "rich"
  | verbose => "verbose"

def all : List ConsoleMode := [plain, auto, rich, verbose]

def ofName? (s : String) : Option ConsoleMode := all.find? (·.name == s)

/-- Whether the tool writes to the terminal itself. -/
def needsTerminal : ConsoleMode → Bool
  | auto | rich => true
  | plain | verbose => false

end ConsoleMode

structure GlobalConfig where
  dry : Bool := false
  outputLogLevel : Log.Level := .info
  fileLogLevel : Option Log.Level := none
  logFile : Option Path := none
  deriving DecidableEq, Repr, Inhabited

structure GradleConfig where
  wrapper : Option Path := none
  console : ConsoleMode := .plain
  args : List String := []
  deriving DecidableEq, Repr, Inhabited

structure Config where
  globals : GlobalConfig := {}
  paths : PathsConfig := {}
  gradle : GradleConfig := {}
  deriving DecidableEq, Repr, Inhabited

namespace Config

def layout (c : Config) : Except Cause Layout := c.paths.resolve

/-- The wrapper, the arguments and the directories are looked at in this order. -/
def validate (c : Config) : Except Cause Unit :=
  if c.gradle.wrapper.any Path.isEmpty then
    .error (.invalidValue "gradle" "wrapper" "path must not be empty")
  else if c.gradle.args.any isAllBlank then
    .error (.invalidValue "gradle" "args" "arguments must not be empty")
  else
    match Place.all.find? fun p => (c.paths.get p).any Path.isEmpty with
    | some p => .error (.invalidValue "paths" p.key "path must not be empty")
    | none => .ok ()

/-- The level of a log file is that of the console unless it is set. -/
def logSettings (c : Config) : Log.Settings where
  console := c.globals.outputLogLevel
  file := c.globals.fileLogLevel.getD c.globals.outputLogLevel
  logFile := c.globals.logFile

/-! ### Listing -/

/-- The directories by key, in the order of the keys. -/
def pathOptions (c : Config) : List (String × String) :=
  match c.layout with
  | .error _ => []
  | .ok l =>
    [Place.build, .deliverables, .javaDocs, .java, .docs, .libs, .out, .projectRoot].map fun p =>
      ("paths." ++ p.key, (l.get p).display)

/-- The values in force by key, in the order of the keys. -/
def options (c : Config) : List (String × String) :=
  [("global.dry", toString c.globals.dry)]
    ++ c.globals.fileLogLevel.toList.map (fun l => ("global.file_log_level", toString l.toNat))
    ++ c.globals.logFile.toList.map (fun p => ("global.log_file", p.display))
    ++ [("global.output_log_level", toString c.globals.outputLogLevel.toNat)]
    ++ (if c.gradle.args.isEmpty then [] else [("gradle.args", String.intercalate " " c.gradle.args)])
    ++ [("gradle.console", c.gradle.console.name)]
    ++ c.gradle.wrapper.toList.map (fun p => ("gradle.wrapper", p.display))
    ++ c.pathOptions

/-- A key with blanks behind it up to a width. -/
def padKey (width : Nat) (key : String) : String := key ++ String.ofList (List.replicate (width - key.length) ' ')

/-- One line for each value, the equals signs below one another. -/
def listing (c : Config) : List String :=
  let width := (c.options.map (·.1.length)).foldl max 0
  c.options.map fun (key, value) => padKey width key ++ " = " ++ value

end Config

end GradleBuild
