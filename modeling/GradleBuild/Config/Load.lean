import GradleBuild.Config.Loader
import GradleBuild.Options

/-!
# The configuration of a run

Two roots come into play.  The lookup root is the directory where the project's own file is looked for: that of the
option, or else the nearest directory upwards that holds a marker of a Gradle project, or else the directory the run
starts from.  It is also the root of the project, unless a source of higher rank names another.

Layers from the lowest to the highest: the lookup root as a default, the project's file, the files of the command
line, the environment, overrides, and the root given as an option.
-/

namespace GradleBuild

/-- Files that mark the root of a Gradle project. -/
def rootMarkers : List String := ["gradlew", "settings.gradle", "settings.gradle.kts"]

/-- The nearest directory upwards that holds a marker. -/
def discoverRoot (t : Tree) (cwd : Location) (start : Path) : Option Path :=
  start.ancestors.find? fun dir => rootMarkers.any fun m => Files.isFile t cwd (dir.join (.ofText m))

/-- A configuration and the files it was read from. -/
structure LoadedConfig where
  config : Config
  files : List Path
  deriving DecidableEq, Repr

namespace Config

/-- The name of the project's own file. -/
def projectFile : String := "scp-build.toml"

/-- What the names of variables begin with. -/
def environmentPrefix : String := "SCP_BUILD"

/-- The lookup root for a run from the directory `dir`. -/
def lookupRoot (t : Tree) (cwd : Location) (o : Options) (dir : Path) : Path :=
  match o.projectRoot with
  | some p => dir.absoluteFrom p
  | none => (discoverRoot t cwd dir).getD dir

/-- The layers of a run from the directory `dir`. -/
def loaderFor (t : Tree) (cwd : Location) (o : Options) (dir : Path) : Except Cause Loader := do
  let root := lookupRoot t cwd o dir
  let rootKey := "paths." ++ Place.projectRoot.key
  let loader ← ({} : Loader).setDefault rootKey (.text root.display)
  let loader := loader.addOptionalFile t cwd (root.join (.ofText projectFile))
  let loader := o.configs.foldl (fun loader p => loader.addFile (dir.absoluteFrom p)) loader
  let loader ← (loader.withEnvironment environmentPrefix).applyOverrides o.overrides
  match o.projectRoot with
  | some _ => loader.set rootKey (.text root.display)
  | none => return loader

/-- The configuration of a run from the directory `dir`; the root of the project is made absolute. -/
def load (t : Tree) (cwd : Location) (env : Environment) (o : Options) (dir : Path) : Except Cause LoadedConfig := do
  let loader ← loaderFor t cwd o dir
  let c ← loader.build t cwd env
  return ⟨{ c with paths.projectRoot := c.paths.projectRoot.map dir.absoluteFrom }, loader.files⟩

end Config

end GradleBuild
