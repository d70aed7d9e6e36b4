import GradleBuild.Config.Environment
import GradleBuild.Error
import GradleBuild.Files.Create
import GradleBuild.Log.Event
import GradleBuild.Process.Child

/-!
# The machine a build runs on

The surroundings of a run do not change: the current directory, the variables, and what children do.  A run changes
the state of the machine: the file tree, the calls of children so far, and what has been shown.
-/

namespace GradleBuild

/-- What a run finds and cannot change. -/
structure Surroundings where
  /-- The current directory. -/
  cwd : Location
  environment : Config.Environment
  child : ChildBehaviour

/-- Something that is shown: an event, or output of a child that goes straight to the terminal. -/
inductive Shown where
  | event (e : Log.Event)
  | raw (c : Chunk)
  deriving DecidableEq, Repr

structure Machine where
  tree : Tree
  calls : List Call := []
  shown : List Shown := []

/-- The events so far. -/
def Machine.events (m : Machine) : List Log.Event :=
  m.shown.filterMap fun
    | .event e => some e
    | .raw _ => none

/-- What runs on a machine and may fail; what has happened by then stays. -/
abbrev Run (α : Type) := ExceptT Failure (StateM Machine) α

namespace Run

def log (level : Log.Level) (source : Log.Source) (message : String) (fields : List Log.Field := []) : Run Unit :=
  modify fun m => { m with shown := m.shown ++ [.event ⟨level, source, message, fields⟩] }

/-- Act on the file tree. -/
def onFiles {α : Type} (a : FileAction Cause α) : Run α := fun m =>
  match a m.tree with
  | (.ok x, t) => (.ok x, { m with tree := t })
  | (.error c, t) => (.error (.of c), { m with tree := t })

def fail {α : Type} (c : Cause) : Run α := throw (.of c)

/-- The failure of a part as seen from the whole. -/
def inContext {α : Type} (context : String) (r : Run α) : Run α := r.adapt (·.inContext context)

end Run

end GradleBuild
