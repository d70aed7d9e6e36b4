import GradleBuild.Config.Decode
import GradleBuild.Config.Environment
import GradleBuild.Files.Lookup

/-!
# Layers of configuration

A loader gathers sources: defaults, TOML texts and files, the environment and overrides.  Building merges them in this
order, each over those before it, and takes the result for a configuration.

* A file that must exist is an error if it is missing; any other is skipped.
* A file is found under its path, or else under its path with `.toml` behind its name.
* An override of a key replaces an earlier override of that same key.

The values of a source, the overrides and the fields of a table are kept in maps, which are gone through in no
particular order.  Here they come in the order in which they were given; `Inputs.MayEnd` has all other orders.
-/

namespace GradleBuild.Config

inductive Source where
  | text (content : String)
  | file (path : Path) (required : Bool)
  deriving DecidableEq, Repr

structure Loader where
  defaults : List (Key × Value) := []
  sources : List Source := []
  /-- What the names of variables begin with, if the environment is a source. -/
  environmentPrefix : Option String := none
  overrides : List (Key × Value) := []
  /-- The files among the sources, as far as they were there when they were added. -/
  files : List Path := []
  deriving Inhabited

namespace Loader

/-- The list with `v` for `k`, in its old place if there was one.  The place does not mean that the others are set
before or after: which order they are set in is not settled. -/
def assign (k : Key) (v : Value) : List (Key × Value) → List (Key × Value)
  | [] => [(k, v)]
  | (j, w) :: rest => if j = k then (j, v) :: rest else (j, w) :: assign k v rest

def addText (l : Loader) (content : String) : Loader := { l with sources := l.sources ++ [.text content] }

def addFile (l : Loader) (p : Path) : Loader :=
  { l with sources := l.sources ++ [.file p true], files := l.files ++ [p] }

/-- A file that is skipped if it is missing; it counts among the files if it is there now. -/
def addOptionalFile (l : Loader) (t : Tree) (cwd : Location) (p : Path) : Loader :=
  { l with
    sources := l.sources ++ [.file p false]
    files := if Files.isFile t cwd p then l.files ++ [p] else l.files }

def withEnvironment (l : Loader) (start : String) : Loader := { l with environmentPrefix := some start }

def set (l : Loader) (key : String) (v : Value) : Except Cause Loader :=
  match Key.read? key with
  | some k => .ok { l with overrides := assign k v l.overrides }
  | none => .error (.invalidKey "override" key)

def setDefault (l : Loader) (key : String) (v : Value) : Except Cause Loader :=
  match Key.read? key with
  | some k => .ok { l with defaults := assign k v l.defaults }
  | none => .error (.invalidKey "default" key)

/-! ### Overrides as texts -/

/-- Key and value of a text `key=value`.  Slashes in the key are read as dots, blanks around both are dropped. -/
def splitOverride (entry : String) : Except Cause (String × String) :=
  match cutAt (· == '=') entry.toList with
  | (_, none) => .error (.invalidValue "cli" "set" ("expected KEY=VALUE, got '" ++ entry ++ "'"))
  | (key, some value) =>
    let key := (trimChars key).map fun c => if c = '/' then '.' else c
    if key.isEmpty then .error (.invalidValue "cli" "set" ("empty key in '" ++ entry ++ "'"))
    else .ok (String.ofList key, String.ofList (trimChars value))

/-- The value that the text of an override stands for: a list of words for the keys that hold lists. -/
def overrideValue (key value : String) : Value :=
  if listKeys.contains key then .list none ((words value).map .text) else .text value

def applyOverride (l : Loader) (entry : String) : Except Cause Loader := do
  let (key, value) ← splitOverride entry
  l.set key (overrideValue key value)

def applyOverrides (l : Loader) (entries : List String) : Except Cause Loader := entries.foldlM applyOverride l

/-! ### Building -/

/-- The file under a path, or else under the path with `.toml` behind its name. -/
def locate? (t : Tree) (cwd : Location) (p : Path) : Option Path :=
  if Files.isFile t cwd p then some p
  else (p.withSuffix? ".toml").filter (Files.isFile t cwd)

def readToml (origin : Option String) (content : String) : Except Problem Fields :=
  match Toml.read content with
  | .ok fields => .ok (fieldsOf origin fields)
  | .error .malformed => .error (.malformedToml content origin)
  | .error (.number fault) => .error (.number fault origin)

/-- The text of a file without the mark of its byte order. -/
def fileText (content : Bytes) : String :=
  decodeLossy ((dropStart? [0xEF, 0xBB, 0xBF] content).getD content)

/-- How messages name a file: its path as seen from the current directory. -/
def originOf (cwd : Location) (p : Path) : String :=
  (((Location.path cwd).absoluteFrom p).relativeTo (Location.path cwd)).display

/-- The values of a source. -/
def collect (t : Tree) (cwd : Location) : Source → Except Problem Fields
  | .text content => readToml none content
  | .file p required =>
    match locate? t cwd p with
    | some found =>
      match Files.read t cwd found with
      | .ok content => readToml (some (originOf cwd found)) (fileText content)
      | .error _ => if required then .error (.fileNotFound p.display) else .ok []
    | none => if required then .error (.fileNotFound p.display) else .ok []

/-- The values of a source over what was there, name by name; a name that spells a key is read as one. -/
def merge (fields : Fields) (top : Value) : Value :=
  fields.foldl (fun top (name, v) => (Key.readOrLiteral name).set v top) top

def assignAll (assignments : List (Key × Value)) (top : Value) : Value :=
  assignments.foldl (fun top (k, v) => k.set v top) top

/-- All layers in one. -/
def merged (l : Loader) (t : Tree) (cwd : Location) (env : Environment) : Except Problem Value := do
  let top := assignAll l.defaults (.table none [])
  let top ← l.sources.foldlM (fun top s => do return merge (← collect t cwd s) top) top
  let top ←
    match l.environmentPrefix with
    | some start => do pure (merge (← ofEnvironment start env) top)
    | none => pure top
  return assignAll l.overrides top

/-- The configuration that the layers make, before it is validated. -/
def decoded (l : Loader) (t : Tree) (cwd : Location) (env : Environment) : Except Problem Config := do
  let top ← l.merged t cwd env
  (ofValue top).mapError .value

def build (l : Loader) (t : Tree) (cwd : Location) (env : Environment) : Except Cause Config :=
  match l.decoded t cwd env with
  | .error problem => .error (.unreadableConfig (String.intercalate ", " (l.files.map Path.display)) problem.message)
  | .ok c => do
    c.validate
    return c

end Loader

end GradleBuild.Config
