import GradleBuild.Machine
import GradleBuild.Process.Command
import GradleBuild.Process.Executable
import GradleBuild.Process.Lines

/-!
# Running commands

A command is logged, started and awaited.  Its output goes to the log line by line, or straight to the terminal.  Both
streams are read to their end, whichever way the child ends, and a code other than 0 is a failure.
-/

namespace GradleBuild

/-- The search path among the variables. -/
def Surroundings.searchPath (s : Surroundings) : Option Bytes := s.environment.lookup "PATH"

namespace Command

/-- The event for a line of output. -/
def lineEvent (name : String) (s : Stream) (line : Bytes) : Log.Event where
  level := .info
  source := .output
  message := decodeLossy line
  fields := [.of "process" name, .quoted "stream" s.name]

/-- The lines that have begun on the two streams, in reverse. -/
structure Readers where
  stdout : Bytes := []
  stderr : Bytes := []

def Readers.held (r : Readers) : Stream → Bytes
  | .stdout => r.stdout
  | .stderr => r.stderr

def Readers.hold (r : Readers) (held : Bytes) : Stream → Readers
  | .stdout => { r with stdout := held }
  | .stderr => { r with stderr := held }

/-- The events for some reads.  The last read of a stream completes the line that has begun. -/
def forward (name : String) (r : Readers) : List Chunk → List Log.Event
  | [] => []
  | c :: rest =>
    let (lines, held) := Lines.feed (r.held c.stream) c.bytes
    let last := if rest.any (·.stream = c.stream) then [] else Lines.flush held
    (lines ++ last).map (lineEvent name c.stream) ++ forward name (r.hold held c.stream) rest

/-- What is shown of the output of a child. -/
def shownOutput (c : Command) (chunks : List Chunk) : List Shown :=
  match c.output with
  | .log => (forward c.displayName {} chunks).map .event
  | .inherit => chunks.map .raw

/-- The directory a child runs in: that of the command, seen from the current one. -/
def directoryFor (c : Command) (t : Tree) (cwd : Location) : Except Fault Location :=
  match c.directory with
  | none => .ok cwd
  | some d =>
    match Files.stat t cwd d true with
    | .ok (l, n) => if n.isDirectory then .ok l else .error .notDirectory
    | .error fault => .error fault

/-- Whether a byte 0 stands where none can be passed on. -/
def holdsNul (c : Command) : Bool :=
  c.program.bytes.contains 0 || c.arguments.any (·.toList.contains '\x00') || c.directory.any (·.bytes.contains 0)

/-- The call by which a command is started: first the directory is entered, then the program is looked for there. -/
def call (c : Command) (s : Surroundings) (t : Tree) : Except Fault Call :=
  if c.holdsNul then .error .nulByte
  else do
    let directory ← c.directoryFor t s.cwd
    let program ← executed? t directory s.searchPath c.program
    return { program, directory, arguments := c.arguments }

/-- The event for a child that has started. -/
def spawned (c : Command) : Log.Event where
  level := .trace
  source := .runner
  message := "spawned"
  fields := [.of "process" c.displayName, ⟨"pid", none, false⟩]

/-- Start a command and wait for its end: the exit code. -/
def start (c : Command) (s : Surroundings) : Run Int := fun m =>
  match c.call s m.tree with
  | .error fault => (.error (.of (.spawnFailed c.line fault)), m)
  | .ok call =>
    let o := s.child m.calls call m.tree
    (.ok o.status.code,
      { tree := o.tree
        calls := m.calls ++ [call]
        shown := m.shown ++ .event c.spawned :: c.shownOutput o.chunks })

/-- Run a command to its end. -/
def run (c : Command) (s : Surroundings) : Run Unit := do
  match c.directory with
  | some d => Run.log .debug .runner "cd" [.of "cwd" d.display]
  | none => pure ()
  Run.log .debug .runner "exec" [.of "cmd" c.line]
  let code ← c.start s
  if code = 0 then Run.log .trace .runner "completed" [.of "process" c.displayName]
  else Run.fail (.nonZeroExit c.line code)

end Command

end GradleBuild
