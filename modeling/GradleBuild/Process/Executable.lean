import GradleBuild.Files.Lookup

/-!
# Finding programs

A plain name is looked up in the directories of the search path, a path is taken as it is.

* `findProgram`: the file that a name stands for, if it can be executed.
* `executed?`: the file that is executed for a command, or the fault.
-/

namespace GradleBuild

/-- The directories of a search path, between colons. -/
def searchDirectories (searchPath : Bytes) : List Path := (pieces (· == 0x3A) searchPath).map Path.mk

/-- Whether a path names a file that may be executed, links being followed. -/
def isExecutable (t : Tree) (cwd : Location) (p : Path) : Bool :=
  match Files.stat t cwd p true with
  | .ok (_, .file _ executable) => executable
  | _ => false

/-- The parts of a path behind a `.` at its start, with single slashes between them. -/
def Path.withoutCurrent (p : Path) : Path := .ofParts (p.parts.dropWhile (· = .current))

/-- The program that a name stands for.  A name of several parts is a path, seen from the current directory.  A `~` at
the head of a directory of the search path is a name like any other here, not the home directory. -/
def findProgram (t : Tree) (cwd : Location) (searchPath : Option Bytes) (name : String) : Option Path :=
  let p := Path.ofText name
  if p.isEmpty then none
  else if 1 < p.parts.length then
    let p := if p.isAbsolute then p else cwd.path.join p.withoutCurrent
    if isExecutable t cwd p then some p else none
  else
    match searchPath with
    | none => none
    | some path => ((searchDirectories path).map (·.join p)).find? (isExecutable t cwd)

/-- Whether the system knows how to run a file: a script that names its interpreter, or machine code. -/
def hasRunnableFormat (content : Bytes) : Bool :=
  content.take 2 == encode "#!" || content.take 4 == 0x7F :: encode "ELF"

/-- A path to be executed, with what stands in the way. -/
def checkExecutable (t : Tree) (cwd : Location) (p : Path) : Except Fault Path := do
  match ← Files.stat t cwd p true with
  | (_, .file content executable) =>
    if !executable then .error .denied
    else if hasRunnableFormat content then .ok p
    else .error .badFormat
  | _ => .error .denied

/-- The first of some paths that can be executed.  Where nothing is, the search goes on; so it does at a file that may
not be executed, which is reported if no other is found. -/
def firstExecutable (t : Tree) (cwd : Location) (seenDenied : Bool) : List Path → Except Fault Path
  | [] => .error (if seenDenied then .denied else .noEntry)
  | p :: rest =>
    match checkExecutable t cwd p with
    | .ok p => .ok p
    | .error .denied => firstExecutable t cwd true rest
    | .error .noEntry | .error .notDirectory => firstExecutable t cwd seenDenied rest
    | .error fault => .error fault

/-- A program in a directory of the search path; an empty entry is the current directory. -/
def candidate (program directory : Path) : Path :=
  if directory.isEmpty then program else ⟨directory.bytes ++ Path.slash :: program.bytes⟩

/-- The file executed for a program, seen from the directory the child runs in. -/
def executed? (t : Tree) (cwd : Location) (searchPath : Option Bytes) (program : Path) : Except Fault Path :=
  if program.isEmpty then .error .noEntry
  else if program.bytes.contains Path.slash then checkExecutable t cwd program
  else
    firstExecutable t cwd false
      ((searchDirectories (searchPath.getD (encode "/bin:/usr/bin"))).map (candidate program))

end GradleBuild
