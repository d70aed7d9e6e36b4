import GradleBuild.Options.Usage
import GradleBuild.Program

/-!
# The command line

What a run looks at before it builds is read from the disk: the markers of a project and the configuration files.  The
rest is up to `Program.run`, on a tree that holds just these files.  No program can be started from here, so that only
dry runs are carried out; of those, nothing but the log file reaches the disk.
-/

namespace GradleBuild.CommandLine

/-- The content of a file on the disk, if there is one that can be read. -/
def fromDisk? (p : Path) : IO (Option Bytes) := do
  match decode? p.bytes with
  | none => return none
  | some name =>
    try return some (← IO.FS.readBinFile name).toList
    catch _ => return none

/-- The tree with some of the files that are on the disk. -/
def withFiles (t : Tree) (ps : List Path) : IO Tree :=
  ps.foldlM (fun t p => do
    match ← fromDisk? p with
    | some content => return (Files.writeFile [] p content t).2
    | none => return t) t

/-- The variables of this process. -/
def environment : IO Config.Environment := do
  let bytes := (← fromDisk? (.ofText "/proc/self/environ")).getD []
  return (pieces (· == 0) bytes).filterMap fun entry =>
    match cutAt (· == Arguments.equals) entry with
    | (name, some value) => (decode? name).map fun name => (name, value)
    | (_, none) => none

/-- The files that mark a project, in a directory or above it. -/
def markersFrom (dir : Path) : List Path :=
  dir.ancestors.flatMap fun d => rootMarkers.map fun m => d.join (.ofText m)

/-- The places where configuration files are looked for. -/
def configFiles (t : Tree) (cwd : Location) (o : Options) : List Path :=
  let root := Config.lookupRoot t cwd o cwd.path
  (root.join (.ofText Config.projectFile) :: o.configs.map cwd.path.absoluteFrom).flatMap fun p =>
    p :: (p.withSuffix? ".toml").toList

/-- What a run with some options can see of the disk. -/
def visibleTree (cwd : Location) (o : Options) : IO Tree := do
  let t := (Files.createDirectories [] cwd.path .empty).2
  let t ← withFiles t (markersFrom cwd.path)
  withFiles t (configFiles t cwd o)

/-- The lines of the log file reach the disk; whether that has worked. -/
def saveLog (l : Location) (lines : List Program.Line) : IO Bool := do
  let dir := (Location.path l.dropLast).display
  try
    IO.FS.createDirAll dir
    IO.FS.writeBinFile (Location.path l).display (Program.logContent lines).toByteArray
    return true
  catch _ => return false

/-- Show what a run reports; its exit code. -/
def present (report : Program.Report) : IO UInt32 := do
  (← IO.getStdout).write report.stdout.toByteArray
  match report.ending with
  | .help => usage.forM fun line => IO.println line
  | .refused e => IO.eprintln ("error: " ++ e.message)
  | _ => pure ()
  report.stderr.forM fun line => IO.eprintln line.text
  match report.log with
  | some (l, lines) =>
    if ← saveLog l lines then return report.ending.exitCode.toUInt32
    else do
      IO.eprintln ("cannot write the log file " ++ (Location.path l).display)
      return 1
  | none => return report.ending.exitCode.toUInt32

/-- Whether a run with some options would do more than show its steps. -/
def wouldBuild (t : Tree) (s : Surroundings) (o : Options) : Bool :=
  match Config.load t s.cwd s.environment o s.cwd.path with
  | .ok loaded => !loaded.config.globals.dry
  | .error _ => false

/-- A child that does nothing; it stands in for those that a dry run does not start. -/
def idleChild : ChildBehaviour := fun _ _ t => { tree := t }

/-- Run the program with the arguments behind its name. -/
def run (args : List Bytes) : IO UInt32 := do
  let cwd : Location := (Path.ofText (← IO.currentDir).toString).segments.filter (!Path.isIdle ·)
  let s : Surroundings := { cwd, environment := ← environment, child := idleChild }
  match Arguments.parse (encode Program.name :: args) with
  | .error _ => present (Program.run args s { tree := .empty }).1
  | .ok (o, _) =>
    let t ← visibleTree cwd o
    if wouldBuild t s o then do
      IO.eprintln "Error: no program can be started from here; --dry shows the steps of the build"
      return 1
    else present (Program.run args s { tree := t }).1

end GradleBuild.CommandLine

def main (args : List String) : IO UInt32 := GradleBuild.CommandLine.run (args.map GradleBuild.encode)
