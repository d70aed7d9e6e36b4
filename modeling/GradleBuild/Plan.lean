import GradleBuild.Config.Layout
import GradleBuild.Options

/-!
# Build plans

A task is planned as a row of steps, which run one after another:

* the library: its outputs of an earlier build are removed, Gradle cleans if asked to and builds, and the libraries
  are collected;
* the documentation: its earlier outputs are removed, Gradle writes the documentation, and that is collected next to
  the libraries.
-/

namespace GradleBuild

/-- What Gradle is asked to do. -/
inductive Action where
  | clean
  | build
  | javadoc
  deriving DecidableEq, Repr

def Action.name : Action → String
  | clean => "clean"
  | build => "build"
  | javadoc => "javadoc"

/-- An action as an argument for Gradle: a task of the root project. -/
def Action.taskPath (a : Action) : String := ":" ++ a.name

inductive Step where
  /-- Delete whatever is at a path; nothing there is no error. -/
  | remove (path : Path)
  | gradle (action : Action)
  /-- Copy everything below one directory into another. -/
  | collect (source destination : Path)
  deriving DecidableEq, Repr

/-- The text of a step. -/
def Step.text : Step → String
  | remove path => "remove " ++ path.display
  | gradle action => "gradle " ++ action.taskPath
  | collect source destination => "collect " ++ source.display ++ " -> " ++ destination.display

inductive Task where
  | library (cleanBuild : Bool)
  | documentation
  deriving DecidableEq, Repr

namespace Task

/-- Only the library can be cleaned before it is built. -/
def ofComponent : Component → Bool → Task
  | .lib, cleanBuild => library cleanBuild
  | .doc, _ => documentation

def component : Task → Component
  | library _ => .lib
  | documentation => .doc

/-- The actions of Gradle that a task needs, in order. -/
def actions : Task → List Action
  | library true => [.clean, .build]
  | library false => [.build]
  | documentation => [.javadoc]

/-- The outputs of an earlier build. -/
def outputs : Task → Layout → List Path
  | library _, l => [l.libs, l.docs, l.java]
  | documentation, l => [l.javaDocs]

/-- Where Gradle leaves what is to be delivered. -/
def products : Task → Layout → Path
  | library _, l => l.libs
  | documentation, l => l.docs

def plan (t : Task) (l : Layout) : List Step :=
  (t.outputs l).map .remove ++ t.actions.map .gradle ++ [.collect (t.products l) l.java]

end Task

def Request.task (r : Request) : Task := .ofComponent r.component r.cleanBuild

end GradleBuild
