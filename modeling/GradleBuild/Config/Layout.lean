import GradleBuild.Error
import GradleBuild.Path

/-!
# The layout of a project

Eight directories belong to a project.  Each but the root lies below another one, in a place that can be overridden:

* the root holds the build directory, with the libraries and the documentation in it;
* the root holds the output directory, with the deliverables in it, then those of the library, then their
  documentation.

A relative override is seen from the directory above, an absolute one is taken as it is (`place`).  `Layout.below`
builds the layout without overrides directly.
-/

namespace GradleBuild

/-- The eight directories. -/
inductive Place where
  | projectRoot
  | build
  | libs
  | docs
  | out
  | deliverables
  | java
  | javaDocs
  deriving DecidableEq, Repr

namespace Place

/-- All directories, each after the one above it. -/
def all : List Place := [projectRoot, build, libs, docs, out, deliverables, java, javaDocs]

/-- The key of a directory in the configuration. -/
def key : Place → String
  | projectRoot => "project_root"
  | build => "build_dir"
  | libs => "libs_dir"
  | docs => "docs_dir"
  | out => "out_dir"
  | deliverables => "deliverables_dir"
  | java => "deliverables_java_dir"
  | javaDocs => "deliverables_docs_dir"

/-- The directory above. -/
def above? : Place → Option Place
  | projectRoot => none
  | build => some projectRoot
  | libs => some build
  | docs => some build
  | out => some projectRoot
  | deliverables => some out
  | java => some deliverables
  | javaDocs => some java

/-- The name of a directory in the one above, where none is configured. -/
def defaultName : Place → String
  | projectRoot => ""
  | build => "build"
  | libs => "libs"
  | docs => "docs"
  | out => ".out"
  | deliverables => "deliverables"
  | java => "java"
  | javaDocs => "docs"

end Place

/-- The directories that are configured. -/
structure PathsConfig where
  projectRoot : Option Path := none
  build : Option Path := none
  libs : Option Path := none
  docs : Option Path := none
  out : Option Path := none
  deliverables : Option Path := none
  java : Option Path := none
  javaDocs : Option Path := none
  deriving DecidableEq, Repr, Inhabited

/-- All eight directories. -/
structure Layout where
  projectRoot : Path
  build : Path
  libs : Path
  docs : Path
  out : Path
  deliverables : Path
  java : Path
  javaDocs : Path
  deriving DecidableEq, Repr, Inhabited

def PathsConfig.get (c : PathsConfig) : Place → Option Path
  | .projectRoot => c.projectRoot
  | .build => c.build
  | .libs => c.libs
  | .docs => c.docs
  | .out => c.out
  | .deliverables => c.deliverables
  | .java => c.java
  | .javaDocs => c.javaDocs

def PathsConfig.set (c : PathsConfig) (v : Option Path) : Place → PathsConfig
  | .projectRoot => { c with projectRoot := v }
  | .build => { c with build := v }
  | .libs => { c with libs := v }
  | .docs => { c with docs := v }
  | .out => { c with out := v }
  | .deliverables => { c with deliverables := v }
  | .java => { c with java := v }
  | .javaDocs => { c with javaDocs := v }

def Layout.get (l : Layout) : Place → Path
  | .projectRoot => l.projectRoot
  | .build => l.build
  | .libs => l.libs
  | .docs => l.docs
  | .out => l.out
  | .deliverables => l.deliverables
  | .java => l.java
  | .javaDocs => l.javaDocs

/-- The configured directories by key, in order. -/
def PathsConfig.entries (c : PathsConfig) : List (String × Option Path) :=
  Place.all.map fun p => (p.key, c.get p)

/-- The layout below a root without overrides. -/
def Layout.below (root : Path) : Layout :=
  let build := root.join (.ofText "build")
  let out := root.join (.ofText ".out")
  let deliverables := out.join (.ofText "deliverables")
  let java := deliverables.join (.ofText "java")
  { projectRoot := root
    build
    libs := build.join (.ofText "libs")
    docs := build.join (.ofText "docs")
    out
    deliverables
    java
    javaDocs := java.join (.ofText "docs") }

namespace PathsConfig

/-- Where a directory lies, given the one above it. -/
def place (configured : Option Path) (above : Path) (p : Place) : Path :=
  match configured with
  | some path => Path.absoluteFrom above path
  | none => above.join (.ofText p.defaultName)

/-- The layout below a root, with the configured directories. -/
def layoutFrom (c : PathsConfig) (root : Path) : Layout :=
  let build := place c.build root .build
  let out := place c.out root .out
  let deliverables := place c.deliverables out .deliverables
  let java := place c.java deliverables .java
  { projectRoot := root
    build
    libs := place c.libs build .libs
    docs := place c.docs build .docs
    out
    deliverables
    java
    javaDocs := place c.javaDocs java .javaDocs }

/-- The layout of a project whose root is configured. -/
def resolve (c : PathsConfig) : Except Cause Layout :=
  match c.projectRoot with
  | some root => .ok (c.layoutFrom root)
  | none => .error (.missingKey "paths" "project_root")

end PathsConfig

end GradleBuild
