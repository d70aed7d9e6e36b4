import GradleBuild.Files.Fault
import GradleBuild.Files.Tree

/-!
# Finding what a path names

A path is followed name by name from the root or from the current directory.  A link in the middle is replaced by its
target, as seen from the directory that holds it; so is a link at the end unless it is asked for itself.  At most
`maxLinks` links are followed.

* `walk`: the way from a directory along some segments.
* `find`: what a path names.
-/

namespace GradleBuild.Files

/-- What a path names: a node, or a free name in a directory.  `slashed` says whether a slash follows the free name,
which only a directory can then take. -/
inductive Found where
  | present (l : Location) (n : Node)
  | absent (parent : Location) (name : Name) (slashed : Bool)
  deriving Repr

def maxLinks : Nat := 40

/-- One byte less than the first length that is refused. -/
def longestPath : Nat := 4095

/-- Follow segments from the directory `node`, to which the names in `trail` lead, the last name first.  Links are
left to `onLink`, which is given the directory, the target and the segments behind the link. -/
def walkWith (root : Node) (followLast : Bool)
    (onLink : List Name → Node → Path → List Bytes → Except Fault Found) :
    List Name → Node → List Bytes → Except Fault Found
  | trail, node, [] => .ok (.present trail.reverse node)
  | trail, node, s :: rest =>
    if Path.isIdle s then walkWith root followLast onLink trail node rest
    else if s = [Path.dot, Path.dot] then
      walkWith root followLast onLink trail.tail ((root.get? trail.tail.reverse).getD root) rest
    else if Name.longest < s.length then .error .nameTooLong
    else
      match node.children.lookup s with
      | none => if rest.all List.isEmpty then .ok (.absent trail.reverse s !rest.isEmpty) else .error .noEntry
      | some (.directory cs) => walkWith root followLast onLink (s :: trail) (.directory cs) rest
      | some (.file content executable) =>
        if rest.isEmpty then .ok (.present (s :: trail).reverse (.file content executable))
        else .error .notDirectory
      | some (.link target) =>
        if rest.isEmpty && !followLast then .ok (.present (s :: trail).reverse (.link target))
        else onLink trail node target rest

/-- Follow segments through at most the given number of links. -/
def walk (root : Node) (followLast : Bool) : Nat → List Name → Node → List Bytes → Except Fault Found
  | 0 => walkWith root followLast fun _ _ _ _ => .error .tooManyLinks
  | links + 1 =>
    walkWith root followLast fun trail node target rest =>
      if target.isAbsolute then walk root followLast links [] root (target.segments ++ rest)
      else walk root followLast links trail node (target.segments ++ rest)

/-- Whether the operating system takes a path at all. -/
def checkPath (p : Path) : Except Fault Unit :=
  if p.bytes.contains 0 then .error .nulInPath
  else if p.isEmpty then .error .noEntry
  else if longestPath < p.bytes.length then .error .nameTooLong
  else .ok ()

/-- Where a path starts: at the root, or in the directory `cwd`. -/
def start (cwd : Location) (p : Path) : Location := if p.isAbsolute then [] else cwd

/-- Follow some segments from where a path starts.  A current directory that is gone leads nowhere. -/
def walkFrom (t : Tree) (cwd : Location) (p : Path) (segments : List Bytes) (followLast : Bool) : Except Fault Found :=
  match t.get? (start cwd p) with
  | some (.directory cs) => walk t.root followLast maxLinks (start cwd p).reverse (.directory cs) segments
  | _ => .error .noEntry

/-- What a path names, seen from the directory `cwd`. -/
def find (t : Tree) (cwd : Location) (p : Path) (followLast : Bool) : Except Fault Found := do
  checkPath p
  walkFrom t cwd p p.segments followLast

/-- The segments of a path without the empty ones at its end. -/
def trimmedSegments (p : Path) : List Bytes := (p.segments.reverse.dropWhile List.isEmpty).reverse

/-- What a path names as a place for something new: slashes behind its last name do not count, and a link there is
not followed. -/
def findPlace (t : Tree) (cwd : Location) (p : Path) : Except Fault Found := do
  checkPath p
  walkFrom t cwd p (trimmedSegments p) false

/-- The node that a path names, with its location. -/
def stat (t : Tree) (cwd : Location) (p : Path) (followLast : Bool) : Except Fault (Location × Node) := do
  match ← find t cwd p followLast with
  | .present l n => .ok (l, n)
  | .absent .. => .error .noEntry

/-- Whether a path names a file, links being followed. -/
def isFile (t : Tree) (cwd : Location) (p : Path) : Bool :=
  match stat t cwd p true with
  | .ok (_, n) => n.isFile
  | .error _ => false

/-- Whether a path names a directory, links being followed. -/
def isDirectory (t : Tree) (cwd : Location) (p : Path) : Bool :=
  match stat t cwd p true with
  | .ok (_, n) => n.isDirectory
  | .error _ => false

/-- The content of a file. -/
def read (t : Tree) (cwd : Location) (p : Path) : Except Fault Bytes := do
  match ← stat t cwd p true with
  | (_, .file content _) => .ok content
  | _ => .error .isDirectory

end GradleBuild.Files
