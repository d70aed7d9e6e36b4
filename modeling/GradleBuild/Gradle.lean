import GradleBuild.Config.Basic
import GradleBuild.Plan
import GradleBuild.Process.Run

/-!
# Gradle

Gradle is run through its wrapper script: the one that is configured, or else the one in the project's directory, or
else the program `gradle` of the search path.  A configured wrapper must be there.

A dry run shows the command for the wrapper's place without looking whether it is there.
-/

namespace GradleBuild

/-- The wrapper script where none is configured. -/
def defaultWrapper : String := "gradlew"

/-- Gradle with its settings, about to do something in a directory. -/
structure Gradle where
  directory : Path
  action : Action
  wrapper : Option Path := none
  console : ConsoleMode := .plain
  extraArgs : List String := []
  deriving DecidableEq, Repr

namespace Gradle

/-- Where the wrapper is, or would be. -/
def wrapperPath (g : Gradle) : Path := g.directory.absoluteFrom (g.wrapper.getD (.ofText defaultWrapper))

/-- The program to run. -/
def program (g : Gradle) (s : Surroundings) (t : Tree) : Except Cause Path :=
  let wrapper := g.wrapperPath
  if Files.isFile t s.cwd wrapper then .ok wrapper
  else if g.wrapper.isSome then .error (.executableNotFound wrapper.display)
  else
    match findProgram t s.cwd s.searchPath "gradle" with
    | some p => .ok p
    | none => .error (.executableNotFound (wrapper.display ++ " (or `gradle` in PATH)"))

/-- The arguments: how to draw output, the project, the extra arguments, and the action. -/
def arguments (g : Gradle) : List String :=
  ["--console=" ++ g.console.name, "-p", g.directory.display] ++ g.extraArgs ++ [g.action.taskPath]

/-- The command that runs a program as Gradle. -/
def command (g : Gradle) (program : Path) : Command where
  program
  arguments := g.arguments
  directory := some g.directory
  output := if g.console.needsTerminal then .inherit else .log
  label := some "gradle"

/-- What a dry run shows in place of running. -/
def preview (g : Gradle) : Run Unit :=
  Run.log .info .gradle ("[dry-run] Would run `" ++ (g.command g.wrapperPath).line ++ "`") [.of "action" g.action.name]

def run (g : Gradle) (s : Surroundings) (dry : Bool) : Run Unit := do
  if dry then g.preview
  else do
    match g.program s (← get).tree with
    | .error c => Run.fail c
    | .ok program => do
      Run.log .debug .gradle "Running Gradle" [.of "program" program.display, .of "action" g.action.name]
      Run.inContext ("Gradle '" ++ g.action.name ++ "' failed") ((g.command program).run s)
      Run.log .info .gradle "Gradle completed successfully" [.of "action" g.action.name]

end Gradle

end GradleBuild
