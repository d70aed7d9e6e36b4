import GradleBuild.Files.Tree
import GradleBuild.Path

/-!
# Children

A child is a program that runs on the file tree.  What it does is not up to this library, so a child is given by its
behaviour: a function of the calls before, of the call itself and of the tree.
-/

namespace GradleBuild

/-- What a child is started with. -/
structure Call where
  /-- The path of the program that is executed. -/
  program : Path
  /-- The directory it runs in. -/
  directory : Location
  arguments : List String
  deriving DecidableEq, Repr

inductive Stream where
  | stdout
  | stderr
  deriving DecidableEq, Repr

def Stream.name : Stream → String
  | stdout => "stdout"
  | stderr => "stderr"

/-- How a child ends. -/
inductive Status where
  | exited (code : Nat)
  | killed (signal : Nat)
  deriving DecidableEq, Repr

/-- The exit code, -1 for a child that was killed. -/
def Status.code : Status → Int
  | exited code => code
  | killed _ => -1

/-- A part of the output of a child as one read gives it.  A read without bytes is where the end of a stream is seen. -/
structure Chunk where
  stream : Stream
  bytes : Bytes
  deriving DecidableEq, Repr

/-- What comes of running a child: the reads of its output in the order in which they happen, those before its end is
seen and those after, and the tree that it leaves. -/
structure Outcome where
  before : List Chunk := []
  status : Status := .exited 0
  after : List Chunk := []
  tree : Tree

/-- All reads of the output. -/
def Outcome.chunks (o : Outcome) : List Chunk := o.before ++ o.after

abbrev ChildBehaviour := List Call → Call → Tree → Outcome

end GradleBuild
