import GradleBuild.Config.Decode

/-!
# Configurations as plain data

The written form of a configuration leaves out what is not set.  It is read strictly: every value has its own kind, a
field that is missing has its default, and a field that the configuration does not have is refused.
-/

namespace GradleBuild.Config

/-! ### Writing -/

private def textField (name s : String) : String × Document := (name, .scalar (.text s))

private def pathField (name : String) (p : Option Path) : List (String × Document) :=
  p.toList.map fun p => textField name p.display

private def levelField (name : String) (l : Log.Level) : String × Document := (name, .scalar (.integer l.toNat))

def writeGlobal (g : GlobalConfig) : Document :=
  .table ([("dry", .scalar (.bool g.dry)), levelField "output_log_level" g.outputLogLevel]
    ++ g.fileLogLevel.toList.map (levelField "file_log_level")
    ++ pathField "log_file" g.logFile)

def writePaths (p : PathsConfig) : Document :=
  .table (GradleBuild.Place.all.flatMap fun place => pathField place.key (p.get place))

def writeGradle (g : GradleConfig) : Document :=
  .table (pathField "wrapper" g.wrapper ++ [textField "console" g.console.name]
    ++ (if g.args.isEmpty then [] else [("args", .list (g.args.map fun a => .scalar (.text a)))]))

/-- The written form of a configuration. -/
def toDocument (c : Config) : Document :=
  .table [("global", writeGlobal c.globals), ("paths", writePaths c.paths), ("gradle", writeGradle c.gradle)]

/-! ### Reading -/

/-- The fields of a section: a table with known names, or a list of at most all fields in their order. -/
def readFields? (known : List String) : Document → Option (List (String × Document))
  | .table fields => if fields.all fun f => known.contains f.1 then some fields else none
  | .list items => if items.length ≤ known.length then some (known.zip items) else none
  | .scalar _ => none

/-- A field, or its default if it is missing. -/
def readField? {α : Type} (fields : List (String × Document)) (name : String) (default : α)
    (read : Document → Option α) : Option α :=
  match fields.lookup name with
  | some d => read d
  | none => some default

def readBool? : Document → Option Bool
  | .scalar (.bool b) => some b
  | _ => none

def readLevel? : Document → Option Log.Level
  | .scalar (.integer (.ofNat n)) => Log.Level.ofNat? n
  | _ => none

def readText? : Document → Option String
  | .scalar (.text s) => some s
  | _ => none

def readPath? (d : Document) : Option Path := (readText? d).map .ofText

def readOption? {α : Type} (read : Document → Option α) : Document → Option (Option α)
  | .scalar .null => some none
  | d => (read d).map some

def readTexts? : Document → Option (List String)
  | .list items => items.mapM readText?
  | _ => none

/-- A console mode by its name, or a table with that name and nothing behind it. -/
def readConsoleMode? : Document → Option ConsoleMode
  | .scalar (.text s) => ConsoleMode.ofName? s
  | .table [(name, .scalar .null)] => ConsoleMode.ofName? name
  | _ => none

def readGlobal? (d : Document) : Option GlobalConfig := do
  let fields ← readFields? globalKeys d
  return {
    dry := ← readField? fields "dry" false readBool?
    outputLogLevel := ← readField? fields "output_log_level" .info readLevel?
    fileLogLevel := ← readField? fields "file_log_level" none (readOption? readLevel?)
    logFile := ← readField? fields "log_file" none (readOption? readPath?) }

def readPaths? (d : Document) : Option PathsConfig := do
  let fields ← readFields? pathKeys d
  let dir (p : Place) := readField? fields p.key none (readOption? readPath?)
  return {
    projectRoot := ← dir .projectRoot
    build := ← dir .build
    libs := ← dir .libs
    docs := ← dir .docs
    out := ← dir .out
    deliverables := ← dir .deliverables
    java := ← dir .java
    javaDocs := ← dir .javaDocs }

def readGradle? (d : Document) : Option GradleConfig := do
  let fields ← readFields? gradleKeys d
  return {
    wrapper := ← readField? fields "wrapper" none (readOption? readPath?)
    console := ← readField? fields "console" .plain readConsoleMode?
    args := ← readField? fields "args" [] readTexts? }

/-- The configuration of a written form. -/
def ofDocument? (d : Document) : Option Config := do
  let fields ← readFields? sectionNames d
  return {
    globals := ← readField? fields "global" {} readGlobal?
    paths := ← readField? fields "paths" {} readPaths?
    gradle := ← readField? fields "gradle" {} readGradle? }

end GradleBuild.Config
