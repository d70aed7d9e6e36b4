import GradleBuild.Files.Fault

/-!
# Errors

A failure has a cause and the contexts it passed through, the outermost first.  Its message is the row of all their
texts: contexts, then the cause, then what the cause rests on.

Causes belong to one of three areas.  A failure of the file area names its area before its own text; `areaText` is
that form for any cause.
-/

namespace GradleBuild

inductive Area where
  | config
  | process
  | files
  deriving DecidableEq, Repr

def Area.name : Area → String
  | config => "config error"
  | process => "process error"
  | files => "filesystem error"

inductive Cause where
  /-- The configuration sources, of which `files` are files, cannot be read or decoded. -/
  | unreadableConfig (files : String) (message : String)
  | missingKey (group key : String)
  | invalidValue (group key message : String)
  /-- An override or a default has a key that is no path of names and indices. -/
  | invalidKey (role key : String)
  | executableNotFound (name : String)
  | spawnFailed (command : String) (fault : Fault)
  | nonZeroExit (command : String) (code : Int)
  | pathNotFound (path : String)
  | fileFault (path : String) (fault : Fault)
  | logDirectory (path : String) (fault : Fault)
  | logFile (path : String) (fault : Fault)
  deriving DecidableEq, Repr

namespace Cause

def text : Cause → String
  | unreadableConfig files message => "failed to parse config '" ++ files ++ "': " ++ message
  | missingKey s key => "missing required config key '" ++ key ++ "' in section '[" ++ s ++ "]'"
  | invalidValue s key message => "invalid value for '" ++ key ++ "' in section '[" ++ s ++ "]': " ++ message
  | invalidKey role key => "invalid config " ++ role ++ " '" ++ key ++ "'"
  | executableNotFound name => "executable not found: '" ++ name ++ "'"
  | spawnFailed command fault => "failed to spawn process '" ++ command ++ "': " ++ fault.text
  | nonZeroExit command code => "process '" ++ command ++ "' exited with code " ++ toString code
  | pathNotFound path => "path not found: " ++ path
  | fileFault path fault => "I/O error on '" ++ path ++ "': " ++ fault.text
  | logDirectory path _ => "failed to create log directory " ++ path
  | logFile path _ => "failed to create log file " ++ path

/-- What a cause rests on. -/
def rest : Cause → List String
  | spawnFailed _ fault => [fault.text]
  | fileFault _ fault => [fault.text]
  | logDirectory _ fault => [fault.text]
  | logFile _ fault => [fault.text]
  | _ => []

def area : Cause → Area
  | executableNotFound _ | spawnFailed _ _ | nonZeroExit _ _ => .process
  | pathNotFound _ | fileFault _ _ => .files
  | _ => .config

/-- The text of a cause with the name of its area in front. -/
def areaText (c : Cause) : String := c.area.name ++ ": " ++ c.text

/-- The texts of a cause under the name of its area. -/
def areaChain (c : Cause) : List String := c.areaText :: c.text :: c.rest

/-- The texts of a cause as a failure shows them. -/
def chain (c : Cause) : List String :=
  match c.area with
  | .files => c.areaChain
  | _ => c.text :: c.rest

end Cause

structure Failure where
  contexts : List String
  cause : Cause
  deriving DecidableEq, Repr

namespace Failure

def of (c : Cause) : Failure := ⟨[], c⟩

/-- The failure seen from one step further out. -/
def inContext (context : String) (f : Failure) : Failure := { f with contexts := context :: f.contexts }

def chain (f : Failure) : List String := f.contexts ++ f.cause.chain

def message (f : Failure) : String := String.intercalate ": " f.chain

/-- The outermost text alone. -/
def headline (f : Failure) : String := f.chain.headD ""

end Failure

end GradleBuild
