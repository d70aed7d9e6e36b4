import GradleBuild.Error
import GradleBuild.Files.Create

/-!
# Copying

`copyDirectory` copies everything below one directory into another, which is created if it is missing.  Directories
are merged, files are overwritten, and a link is replaced by the file it leads to.  The walk stops at the first fault;
what has been copied by then stays.

A directory is listed once, when the walk comes to it.  So a walk into a directory that lies in its own source finds
what it has created itself, and ends only where paths grow too long.
-/

namespace GradleBuild.Files

/-- How much was copied. -/
structure CopyStats where
  files : Nat := 0
  dirs : Nat := 0
  deriving DecidableEq, Repr

def CopyStats.add (a b : CopyStats) : CopyStats := ⟨a.files + b.files, a.dirs + b.dirs⟩

/-- A fault is reported for a path. -/
def onPath {α : Type} (p : Path) (a : FileAction Fault α) : FileAction Cause α :=
  a.adapt fun fault => .fileFault p.display fault

/-- The names in a directory, and which of them are directories themselves, links not being followed. -/
def list (cwd : Location) (p : Path) : FileAction Fault (List (Name × Bool)) := do
  match ← query (stat · cwd p true) with
  | (_, .directory cs) => return cs.map fun (name, n) => (name, n.isDirectory)
  | _ => throw .notDirectory

/-- Copy one file with its execute permission.  The target is emptied before the source is read, and its permissions are
taken to be open to change, whoever it belongs to. -/
def copyFile (cwd : Location) (source target : Path) : FileAction Fault Unit := do
  match ← query (stat · cwd source true) with
  | (s, .file _ executable) => do
    let l ← createFile cwd target
    match (← get).entryAt? s with
    | some (.file content _) => modify (·.put l (.file content executable))
    | _ => pure ()
  | _ => throw .notRegular

/-- Copy one entry of a directory, given whether it is a directory itself; `descend` copies a directory. -/
def copyEntry (cwd : Location) (descend : Path → Path → FileAction Cause CopyStats) (source target : Path) :
    Name × Bool → FileAction Cause CopyStats
  | (name, true) => do
    let below ← descend (source.join ⟨name⟩) (target.join ⟨name⟩)
    return CopyStats.add ⟨0, 1⟩ below
  | (name, false) => do
    onPath (source.join ⟨name⟩) (copyFile cwd (source.join ⟨name⟩) (target.join ⟨name⟩))
    return ⟨1, 0⟩

/-- Copy the entries of a directory one after another. -/
def copyEntries (cwd : Location) (descend : Path → Path → FileAction Cause CopyStats) (source target : Path) :
    List (Name × Bool) → FileAction Cause CopyStats
  | [] => return {}
  | e :: rest => do
    let first ← copyEntry cwd descend source target e
    let others ← copyEntries cwd descend source target rest
    return first.add others

/-- Copy a directory through at most `depth` levels. -/
def copyLevels (cwd : Location) : Nat → Path → Path → FileAction Cause CopyStats
  | 0, _, target => throw (.fileFault target.display .nameTooLong)
  | depth + 1, source, target => do
    onPath target (createDirectories cwd target)
    let entries ← onPath source (list cwd source)
    copyEntries cwd (copyLevels cwd depth) source target entries

/-- Copy everything below `source` into `target`.  Each level makes the paths longer, so that the number of levels is
never what ends the walk. -/
def copyDirectory (cwd : Location) (source target : Path) : FileAction Cause CopyStats :=
  copyLevels cwd (longestPath + 2) source target

end GradleBuild.Files
