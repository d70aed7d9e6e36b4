import GradleBuild.Config.Load
import GradleBuild.Files.Copy
import GradleBuild.Files.Remove
import GradleBuild.Gradle

/-!
# Builds

A task runs the steps of its plan one after another and stops at the first that fails.  In a dry run each step shows
what it would do, and does nothing.
-/

namespace GradleBuild

/-- What the steps of a build have in common. -/
structure Project where
  config : Config
  layout : Layout
  dry : Bool
  deriving DecidableEq, Repr

namespace Project

def ofConfig (c : Config) : Except Cause Project := do
  return ⟨c, ← c.layout, c.globals.dry⟩

/-- Gradle with the settings of the project, about to do something at its root. -/
def gradle (p : Project) (a : Action) : Gradle where
  directory := p.layout.projectRoot
  action := a
  wrapper := p.config.gradle.wrapper
  console := p.config.gradle.console
  extraArgs := p.config.gradle.args

end Project

namespace Step

def runRemove (p : Project) (s : Surroundings) (path : Path) : Run Unit := do
  if p.dry then Run.log .info .step ("[dry-run] Would remove " ++ path.display)
  else if ← Run.onFiles (Files.remove s.cwd path) then Run.log .info .step "removed" [.of "path" path.display]
  else pure ()

def runGradle (p : Project) (s : Surroundings) (a : Action) : Run Unit := do
  Run.log .info .step "running" [.quoted "tool" "gradle", .of "action" a.name]
  (p.gradle a).run s p.dry

def runCollect (p : Project) (s : Surroundings) (source destination : Path) : Run Unit := do
  if p.dry then
    Run.log .info .step ("[dry-run] Would copy " ++ source.display ++ " into " ++ destination.display)
  else if Files.isDirectory (← get).tree s.cwd source then do
    let stats ← Run.onFiles (Files.copyDirectory s.cwd source destination)
    if stats.files = 0 then Run.log .warn .step "no artifacts to collect" [.of "source" source.display]
    else
      Run.log .info .step "artifacts collected"
        [.of "files" (toString stats.files), .of "destination" destination.display]
  else Run.fail (.pathNotFound source.display)

/-- Do one step. -/
def run (p : Project) (s : Surroundings) : Step → Run Unit
  | .remove path => runRemove p s path
  | .gradle action => runGradle p s action
  | .collect source destination => runCollect p s source destination

end Step

namespace Task

/-- The headline of the step number `i`, counted from 0, of `total`. -/
def stepHeadline (i total : Nat) (step : Step) : String :=
  "[" ++ toString (i + 1) ++ "/" ++ toString total ++ "] " ++ step.text

/-- How the failure of a step is seen from its task. -/
def failureContext (c : Component) (step : Step) : String :=
  "'" ++ c.name ++ "' build failed at step '" ++ step.text ++ "'"

/-- The steps from number `i` on, up to the first that fails. -/
def runSteps (c : Component) (total : Nat) (p : Project) (s : Surroundings) : Nat → List Step → Run Unit
  | _, [] => pure ()
  | i, step :: rest => do
    Run.log .info .task (stepHeadline i total step) [.of "component" c.name]
    Run.inContext (failureContext c step) (step.run p s)
    runSteps c total p s (i + 1) rest

/-- Run the plan of a task. -/
def run (t : Task) (p : Project) (s : Surroundings) : Run Unit := do
  let steps := t.plan p.layout
  let component := Log.Field.of "component" t.component.name
  Run.log .info .task "Starting build"
    [component, .of "steps" (toString steps.length), .of "dry_run" (toString p.dry)]
  runSteps t.component steps.length p s 0 steps
  Run.log .info .task "Build completed successfully" [component]

end Task

/-- Build what is asked for with a loaded configuration. -/
def runBuild (r : Request) (loaded : LoadedConfig) (s : Surroundings) : Run Unit := do
  loaded.files.forM fun file => Run.log .debug .build "Loaded config" [.of "path" file.display]
  loaded.config.listing.forM fun line => Run.log .debug .build line
  if r.cleanBuild && r.component = .doc then
    Run.log .warn .build "--clean-build only applies to the lib component, ignoring"
  else pure ()
  match Project.ofConfig loaded.config with
  | .error c => Run.fail c
  | .ok p => do
    Run.log .info .build "Building"
      [.of "component" r.component.name, .of "project_root" p.layout.projectRoot.display]
    r.task.run p s

end GradleBuild
