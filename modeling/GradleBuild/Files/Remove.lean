import GradleBuild.Error
import GradleBuild.Files.Create

/-!
# Removing

`remove` deletes whatever a path names: a file, a link, or a directory with everything below it.  Links are deleted,
never followed; only a slash behind the path makes it name what the link leads to.  Nothing there is no error, and the
answer says whether something was.
-/

namespace GradleBuild.Files

/-- The segments up to the last one that is not empty, and that one. -/
def splitLast (p : Path) : Option (List Bytes × Bytes) :=
  match p.segments.reverse.dropWhile List.isEmpty with
  | [] => none
  | last :: before => some (before.reverse, last)

/-- Delete an empty directory under its own name. -/
def removeDirectory (cwd : Location) (p : Path) : FileAction Fault Unit := do
  match splitLast p with
  | none => throw .busy
  | some (before, last) =>
    match ← query (walkFrom · cwd p before true) with
    | .absent .. => throw .noEntry
    | .present parent n =>
      if last = [Path.dot] then throw .badArgument
      else if last = [Path.dot, Path.dot] then throw .notEmpty
      else
        match n.children.lookup last with
        | some (.directory []) => modify (·.erase (parent ++ [last]))
        | some (.directory _) => throw .notEmpty
        | some _ => throw .notDirectory
        | none => throw .noEntry

/-- Delete a directory with everything below it: it is emptied first, then deleted under its own name.  A name that
leads there no more, because its way went through what has been deleted, is no error. -/
def removeTree (cwd : Location) (p : Path) (l : Location) : FileAction Fault Unit := do
  modify (·.put l .directory)
  try removeDirectory cwd p
  catch fault => if fault = .noEntry then pure () else throw fault

/-- Delete what a path names; whether there was something. -/
def remove (cwd : Location) (p : Path) : FileAction Cause Bool := do
  let outcome : FileAction Fault Unit := do
    let (l, n) ← query (stat · cwd p false)
    if n.isDirectory then removeTree cwd p l else modify (·.erase l)
  match ← outcome.run with
  | .ok () => return true
  | .error .noEntry => return false
  | .error fault => throw (.fileFault p.display fault)

end GradleBuild.Files
