import GradleBuild.Build
import GradleBuild.Options.Arguments

/-!
# The program

A run reads its arguments, looks up its directory, loads the configuration, opens the log file and builds.  Each phase
begins only when the one before has succeeded, so arguments or a configuration that are refused leave no trace.

The exit code is 2 for arguments that are refused, 0 for help, the version and a successful build, and 1 for anything
else.
-/

namespace GradleBuild

namespace Program

def name : String := "scp-build"

def version : String := "0.1.0"

/-- How a run ends.  The wording of help and of refused arguments is left open. -/
inductive Ending where
  | help
  | version
  | refused (e : ArgumentError)
  | succeeded
  | failed (complaint : String)
  deriving DecidableEq, Repr

def Ending.exitCode : Ending → Nat
  | help | version | succeeded => 0
  | failed _ => 1
  | refused _ => 2

/-- The ending that arguments bring about before anything is done. -/
def Ending.ofArgumentError : ArgumentError → Ending
  | .helpRequested => .help
  | .versionRequested => .version
  | e => .refused e

/-- A line of the error stream or of a log file. -/
inductive Line where
  | event (level : Log.Level) (text : String)
  | plain (text : String)
  deriving DecidableEq, Repr

/-- The lines of a text. -/
def linesOf (s : String) : List String := (pieces (· == '\n') s.toList).map String.ofList

/-- The lines of an event; only the first shows its level. -/
def eventLines (level : Log.Level) (text : String) : List Line :=
  match linesOf text with
  | [] => []
  | first :: rest => .event level first :: rest.map .plain

/-- The lines of output that goes straight to the terminal; the last one may have no line feed. -/
def rawLines (bytes : Bytes) : List Line :=
  let ls := pieces (· == Lines.lineFeed) bytes
  let ls := if ls.getLast? = some [] then ls.dropLast else ls
  ls.map fun l => .plain (decodeLossy l)

/-- The lines on the error stream: events up to the level of the console, and what children write there themselves,
of which `held` is still to be shown. -/
def errorLines (console : Log.Level) (held : Bytes) : List Shown → List Line
  | [] => rawLines held
  | .event e :: rest =>
    if console.shows e.level then rawLines held ++ eventLines e.level e.text ++ errorLines console [] rest
    else errorLines console held rest
  | .raw c :: rest => errorLines console (if c.stream = .stderr then held ++ c.bytes else held) rest

/-- What children write to the output stream themselves. -/
def outputBytes (shown : List Shown) : Bytes :=
  shown.flatMap fun
    | .raw c => if c.stream = .stdout then c.bytes else []
    | .event _ => []

/-- The lines of a log file with a level. -/
def logLines (level : Log.Level) (events : List Log.Event) : List Line :=
  (events.filter fun e => level.shows e.level).flatMap fun e => eventLines e.level e.fileText

def Line.text : Line → String
  | .event level text => level.eventName ++ " " ++ text
  | .plain text => text

/-- The content of a log file. -/
def logContent (ls : List Line) : Bytes := ls.flatMap fun l => encode (l.text ++ "\n")

/-- What a run leaves behind, beside the tree. -/
structure Report where
  ending : Ending
  stdout : Bytes := []
  stderr : List Line := []
  /-- The log file and its lines. -/
  log : Option (Location × List Line) := none

/-- Create the log file with the directories above it. -/
def openLog (cwd : Location) (p : Path) : FileAction Cause Location := do
  match p.parent? with
  | some dir =>
    if dir.isEmpty then pure ()
    else (Files.createDirectories cwd dir).adapt fun fault => .logDirectory dir.display fault
  | none => pure ()
  (Files.createFile cwd p).adapt fun fault => .logFile p.display fault

/-- The log file, if there is to be one. -/
def openLog? (settings : Log.Settings) (cwd : Location) : FileAction Cause (Option Location) :=
  match settings.logFile with
  | some p => return some (← openLog cwd p)
  | none => return none

/-- The lines of a log file go to where it was created, unless it has been removed or replaced since. -/
def writeLog (t : Tree) (log : Option (Location × List Line)) : Tree :=
  match log with
  | some (l, lines) =>
    match t.entryAt? l with
    | some (.file [] executable) => t.put l (.file (logContent lines) executable)
    | _ => t
  | none => t

/-- The complaint of a failed run as lines. -/
def complain (s : String) : List Line := (linesOf s).map .plain

/-- A run with a loaded configuration. -/
def runLoaded (request : Request) (loaded : LoadedConfig) (s : Surroundings) (m : Machine) : Report × Machine :=
  let settings := loaded.config.logSettings
  match openLog? settings s.cwd m.tree with
  | (.error c, t) =>
    let complaint := "Failed to initialize logging: " ++ (Failure.of c).headline
    ({ ending := .failed complaint, stderr := complain complaint }, { m with tree := t })
  | (.ok log, t) =>
    let (result, m) := runBuild request loaded s { m with tree := t }
    let log := log.map fun l => (l, logLines settings.file m.events)
    let shown := errorLines settings.console [] m.shown
    let stdout := outputBytes m.shown
    let ended := { m with tree := writeLog m.tree log }
    match result with
    | .ok () => ({ ending := .succeeded, stdout, stderr := shown, log }, ended)
    | .error failure =>
      let complaint := "Error: " ++ failure.message
      ({ ending := .failed complaint, stdout, stderr := shown ++ complain complaint, log }, ended)

/-- The complaint of a run whose directory has been removed. -/
def lostDirectory : String := "Error: cannot determine current directory: " ++ Fault.noEntry.text

/-- A run with arguments that have been read. -/
def runParsed (options : Options) (request : Request) (s : Surroundings) (m : Machine) : Report × Machine :=
  if m.tree.entryAt? s.cwd ≠ some .directory then
    ({ ending := .failed lostDirectory, stderr := complain lostDirectory }, m)
  else
    match Config.load m.tree s.cwd s.environment options s.cwd.path with
    | .error c =>
      let complaint := "Failed to load config: " ++ (Failure.of c).message
      ({ ending := .failed complaint, stderr := complain complaint }, m)
    | .ok loaded => runLoaded request loaded s m

/-- A run with the arguments that follow the name of the program. -/
def run (args : List Bytes) (s : Surroundings) (m : Machine) : Report × Machine :=
  match Arguments.parse (encode name :: args) with
  | .error e =>
    let ending := Ending.ofArgumentError e
    let stdout := if ending = .version then encode (name ++ " " ++ version ++ "\n") else []
    ({ ending, stdout }, m)
  | .ok (options, request) => runParsed options request s m

end Program

end GradleBuild
