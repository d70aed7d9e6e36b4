import GradleBuild.Config.Basic
import GradleBuild.Config.Problem
import GradleBuild.Text.Lowercase

/-!
# Configurations from values

The values that sources give are taken for a configuration with some leniency: sources such as the environment know
texts only, so a truth value may be written as a word or a number, a level as a word, and any scalar serves as a text.
A section is a table, or a list of its fields in their order.  A field that the configuration does not have is an
error, wherever it stands.
-/

namespace GradleBuild.Config

abbrev Decoded (α : Type) := Except ValueProblem α

def fail {α : Type} (cause : ValueCause) : Decoded α := .error ⟨[], cause⟩

/-- What is found one step further in. -/
def inStep {α : Type} (s : KeyStep) (d : Decoded α) : Decoded α :=
  d.mapError fun p => { p with steps := s :: p.steps }

/-- A value where a scalar is wanted. -/
def scalarShape : Value → Shape
  | .scalar _ (.text s) => .text s
  | .scalar _ (.bool b) => .bool b
  | .scalar _ (.integer n) => .integer n
  | .scalar _ (.float x) => .float x
  | .scalar _ .null => .unit
  | .list .. => .sequence
  | .table .. => .map

def wantBool : Value → Decoded Bool
  | .scalar _ (.bool b) => .ok b
  | .scalar _ (.integer n) => .ok (n != 0)
  | .scalar _ (.float x) => .ok !x.isZero
  | .scalar o (.text s) =>
    let word := lowercase s
    if word ∈ ["1", "true", "on", "yes"] then .ok true
    else if word ∈ ["0", "false", "off", "no"] then .ok false
    else fail (.unexpected (.text word) "a boolean" o)
  | v => fail (.unexpected (scalarShape v) "a boolean" v.origin)

/-- An unsigned number of 64 bits. -/
def wantUnsigned : Value → Decoded Nat
  | .scalar _ (.bool b) => .ok b.toNat
  | .scalar o (.integer n) =>
    if 0 ≤ n then .ok n.toNat
    else fail (.unexpected (.signed64 n) "an unsigned 64 bit or less integer" o)
  | .scalar _ (.float x) => .ok x.roundToUInt64
  | .scalar o (.text s) =>
    let word := lowercase s
    if word ∈ ["true", "on", "yes"] then .ok 1
    else if word ∈ ["false", "off", "no"] then .ok 0
    else
      match readUInt64? s with
      | some n => .ok n
      | none => fail (.unexpected (.text s) "an integer" o)
  | v => fail (.unexpected (scalarShape v) "an integer" v.origin)

/-- A number of 8 bits that is a log level. -/
def wantLevel (v : Value) : Decoded Log.Level := do
  let n ← wantUnsigned v
  if n < 256 then
    match Log.Level.ofNat? n with
    | some l => return l
    | none => fail (.noLevel n)
  else fail (.unexpected (.unsigned64 n) "an unsigned 8 bit integer" none)

def wantText : Value → Decoded String
  | .scalar _ (.text s) => .ok s
  | .scalar _ (.bool b) => .ok (toString b)
  | .scalar _ (.integer n) => .ok (toString n)
  | .scalar _ (.float x) => .ok x.text
  | v => fail (.unexpected (scalarShape v) "a string" v.origin)

def wantPath (v : Value) : Decoded Path := return .ofText (← wantText v)

/-- A null stands for nothing. -/
def wantOption {α : Type} (want : Value → Decoded α) : Value → Decoded (Option α)
  | .scalar _ .null => .ok none
  | v => return some (← want v)

def wantTexts : Value → Decoded (List String)
  | .list _ items => (items.zipIdx).mapM fun (v, i) => inStep (.index i) (wantText v)
  | v => fail (.unexpected (scalarShape v) "a sequence" none)

/-- A console mode by its exact name, or a table with that name alone. -/
def wantConsoleMode (v : Value) : Decoded ConsoleMode :=
  let named (name : String) : Decoded ConsoleMode :=
    match ConsoleMode.ofName? name with
    | some m => .ok m
    | none => fail (.noConsoleMode name)
  match v with
  | .scalar _ (.text s) => named s
  | .table _ [(name, _)] => named name
  | _ => fail .notOneName

/-- The fields of a section, each with the step that leads to it.  Of several problems any may be the one that is
reported, as the fields of a table come in no particular order; here an unknown field comes before all others. -/
def sectionFields (title : String) (known : List String) (v : Value) : Decoded (List (String × KeyStep × Value)) :=
  match v with
  | .table _ fields =>
    match fields.find? fun f => !known.contains f.1 with
    | some (name, _) => fail (.unknownField name known)
    | none => .ok (fields.map fun (name, v) => (name, .child name, v))
  | .list _ items => .ok ((known.zip items.zipIdx).map fun (name, v, i) => (name, .index i, v))
  | v => fail (.unexpected (scalarShape v) title none)

/-- A field of a section, or its default. -/
def field {α : Type} (fields : List (String × KeyStep × Value)) (name : String) (default : α)
    (want : Value → Decoded α) : Decoded α :=
  match fields.lookup name with
  | some (step, v) => inStep step (want v)
  | none => .ok default

def globalKeys : List String := ["dry", "output_log_level", "file_log_level", "log_file"]

def gradleKeys : List String := ["wrapper", "console", "args"]

def pathKeys : List String := GradleBuild.Place.all.map GradleBuild.Place.key

def sectionNames : List String := ["global", "paths", "gradle"]

def wantGlobal (v : Value) : Decoded GlobalConfig := do
  let fields ← sectionFields "struct GlobalConfig" globalKeys v
  return {
    dry := ← field fields "dry" false wantBool
    outputLogLevel := ← field fields "output_log_level" .info wantLevel
    fileLogLevel := ← field fields "file_log_level" none (wantOption wantLevel)
    logFile := ← field fields "log_file" none (wantOption wantPath) }

def wantPaths (v : Value) : Decoded PathsConfig := do
  let fields ← sectionFields "struct PathsConfig" pathKeys v
  let dir (p : Place) := field fields p.key none (wantOption wantPath)
  return {
    projectRoot := ← dir .projectRoot
    build := ← dir .build
    libs := ← dir .libs
    docs := ← dir .docs
    out := ← dir .out
    deliverables := ← dir .deliverables
    java := ← dir .java
    javaDocs := ← dir .javaDocs }

def wantGradle (v : Value) : Decoded GradleConfig := do
  let fields ← sectionFields "struct GradleConfig" gradleKeys v
  return {
    wrapper := ← field fields "wrapper" none (wantOption wantPath)
    console := ← field fields "console" .plain wantConsoleMode
    args := ← field fields "args" [] wantTexts }

/-- A whole configuration. -/
def ofValue (v : Value) : Decoded Config := do
  let fields ← sectionFields "struct Config" sectionNames v
  return {
    globals := ← field fields "global" {} wantGlobal
    paths := ← field fields "paths" {} wantPaths
    gradle := ← field fields "gradle" {} wantGradle }

end GradleBuild.Config
