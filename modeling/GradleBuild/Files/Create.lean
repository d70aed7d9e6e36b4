import GradleBuild.Files.Lookup

/-!
# Creating files and directories

Actions on a file tree can fail at any point and leave the tree as it is by then.
-/

namespace GradleBuild

/-- What may change a tree and fail. -/
abbrev FileAction (ε α : Type) := ExceptT ε (StateM Tree) α

namespace Files

/-- Look at the tree. -/
def query {ε α : Type} (f : Tree → Except ε α) : FileAction ε α := fun t => (f t, t)

/-- Create one directory; whatever has the name already is an error. -/
def makeDirectory (cwd : Location) (p : Path) : FileAction Fault Unit := do
  match ← query (findPlace · cwd p) with
  | .present .. => throw .alreadyExists
  | .absent parent name _ => modify (·.put (parent ++ [name]) .directory)

/-- Create a directory, doing `above` first if the directory above it is missing.  One that is there already, or a
link to one, is no error. -/
def makeDirectoryBelow (cwd : Location) (p : Path) (above : Unit → FileAction Fault Unit) :
    FileAction Fault Unit := do
  let unlessThere (e : Fault) : FileAction Fault Unit := do
    if e = .alreadyExists ∧ isDirectory (← get) cwd p then pure () else throw e
  try makeDirectory cwd p
  catch e =>
    if e = .noEntry then do
      above ()
      try makeDirectory cwd p
      catch e => unlessThere e
    else unlessThere e

/-- Create the first of some directories, each of which lies in the next one, with those it needs. -/
def createFirst (cwd : Location) : List Path → FileAction Fault Unit
  | [] => pure ()
  | p :: above =>
    if p.parts.all (· = .root) then pure ()
    else makeDirectoryBelow cwd p fun _ => createFirst cwd above

/-- Create a directory with those above it that are missing. -/
def createDirectories (cwd : Location) (p : Path) : FileAction Fault Unit :=
  if p.parts.all (· = .root) then pure ()
  else makeDirectoryBelow cwd p fun _ => createFirst cwd p.ancestors.tail

/-- Empty a file, which is created if it is missing; its location. -/
def createFile (cwd : Location) (p : Path) : FileAction Fault Location := do
  match ← query (find · cwd p true) with
  | .present l (.file _ executable) => do
    modify (·.put l (.file [] executable))
    return l
  | .present .. => throw .isDirectory
  | .absent parent name slashed =>
    if slashed then throw .isDirectory
    else do
      modify (·.put (parent ++ [name]) (.file [] false))
      return parent ++ [name]

/-- Write a file, with the directories above it; its location. -/
def writeFile (cwd : Location) (p : Path) (content : Bytes) : FileAction Fault Location := do
  (p.parent?).forM (createDirectories cwd)
  let l ← createFile cwd p
  modify (·.put l (.file content false))
  return l

end Files

end GradleBuild
