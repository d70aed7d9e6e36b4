import GradleBuild.Path

/-!
# Commands

A command is a program with its arguments, the directory it runs in and where its output goes.  The text of a command
has its arguments separated by single blanks, with quotation marks around those that hold a blank.
-/

namespace GradleBuild

/-- Where the output of a child goes. -/
inductive OutputMode where
  /-- Line by line into the log. -/
  | log
  /-- Straight to the terminal. -/
  | inherit
  deriving DecidableEq, Repr

structure Command where
  program : Path
  arguments : List String := []
  directory : Option Path := none
  output : OutputMode := .log
  /-- The name shown in the log, if not that of the program. -/
  label : Option String := none
  deriving DecidableEq, Repr

namespace Command

/-- One more argument; bytes that are no text are read leniently. -/
def arg (c : Command) (a : Bytes) : Command := { c with arguments := c.arguments ++ [decodeLossy a] }

def args (c : Command) (as : List Bytes) : Command :=
  { c with arguments := c.arguments ++ as.map decodeLossy }

/-- The name shown in the log: the program's own, without its directory and its extension. -/
def displayName (c : Command) : String :=
  c.label.getD ((c.program.fileStem?.map decodeLossy).getD "process")

def quoteArgument (a : String) : String := if a.toList.contains ' ' then "\"" ++ a ++ "\"" else a

/-- The command in one line. -/
def line (c : Command) : String := String.intercalate " " (c.program.display :: c.arguments.map quoteArgument)

end Command

end GradleBuild
