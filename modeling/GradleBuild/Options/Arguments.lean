import GradleBuild.Number.Integer
import GradleBuild.Options

/-!
# Reading a command line

Arguments are read from left to right, and the first problem found is the answer.  An option with a value attached to
it is checked at once.  An option whose value is the next argument is held back (`Progress.pending`): it is checked
when the next option or flag begins, or at the end, so that a problem standing right behind it is reported instead.

The spelling `-cb` of the flag `--clean-build` is replaced before anything else is read.
-/

namespace GradleBuild

/-- Options that take a value. -/
inductive Setting where
  | component
  | projectRoot
  | config
  | logLevel
  | fileLogLevel
  | logFile
  | set
  deriving DecidableEq, Repr

inductive Flag where
  | dry
  | cleanBuild
  | help
  | version
  deriving DecidableEq, Repr

/-- An option or flag, as its name says. -/
inductive Switch where
  | setting (s : Setting)
  | flag (f : Flag)
  deriving DecidableEq, Repr

inductive ArgumentError where
  | unknown (argument : String)
  /-- An option without a value, with an empty path, or with no component's name. -/
  | invalidValue (option : Setting) (value : String)
  /-- A level that is no number of a level. -/
  | invalidLevel (option : Setting) (value : String)
  | unneededValue (flag : Flag) (value : String)
  | repeated (switch : Switch)
  | missingComponent
  | notUnicode
  | helpRequested
  | versionRequested
  deriving DecidableEq, Repr

/-- How an option is named in full. -/
def Setting.title : Setting → String
  | component => "--component <COMPONENT>"
  | projectRoot => "--project-root <DIR>"
  | config => "--config <FILE>"
  | logLevel => "--log-level <LEVEL>"
  | fileLogLevel => "--file-log-level <LEVEL>"
  | logFile => "--log-file <FILE>"
  | set => "--set <OPTION>"

def Flag.title : Flag → String
  | dry => "--dry"
  | cleanBuild => "--clean-build"
  | help => "--help"
  | version => "--version"

def Switch.title : Switch → String
  | setting s => s.title
  | flag f => f.title

/-- The values that an option admits, where they can be listed. -/
def Setting.validValues : Setting → List String
  | component => ["lib", "doc"]
  | _ => []

def Switch.ofLongName? (name : Bytes) : Option Switch :=
  [("component", Switch.setting .component), ("project-root", .setting .projectRoot), ("config", .setting .config),
    ("log-level", .setting .logLevel), ("file-log-level", .setting .fileLogLevel), ("log-file", .setting .logFile),
    ("set", .setting .set), ("dry", .flag .dry), ("clean-build", .flag .cleanBuild), ("help", .flag .help),
    ("version", .flag .version)].findSome? fun (n, s) => if encode n = name then some s else none

def Switch.ofShortName? (name : UInt8) : Option Switch :=
  if name = 0x63 then some (.setting .component)
  else if name = 0x70 then some (.setting .projectRoot)
  else if name = 0x6C then some (.setting .logLevel)
  else if name = 0x73 then some (.setting .set)
  else if name = 0x68 then some (.flag .help)
  else if name = 0x56 then some (.flag .version)
  else none

namespace Arguments

def dash : UInt8 := 0x2D

def equals : UInt8 := 0x3D

/-- What has been read so far. -/
structure Progress where
  options : Options := {}
  component : Option Component := none
  cleanBuild : Bool := false
  /-- The option that is not checked yet, with its value once there is one. -/
  pending : Option (Setting × Option Bytes) := none
  /-- Whether `--` has been passed, after which no argument is an option. -/
  onlyValues : Bool := false
  deriving Repr

/-- Whether an option that may be given once has been given. -/
def Progress.has (p : Progress) : Setting → Bool
  | .component => p.component.isSome
  | .projectRoot => p.options.projectRoot.isSome
  | .logLevel => p.options.logLevel.isSome
  | .fileLogLevel => p.options.fileLogLevel.isSome
  | .logFile => p.options.logFile.isSome
  | .config | .set => false

def readPath (s : Setting) (value : Bytes) : Except ArgumentError Path :=
  if value.isEmpty then .error (.invalidValue s "") else .ok ⟨value⟩

/-- A level is a whole number from 0 to the highest one. -/
def readLevel (s : Setting) (value : Bytes) : Except ArgumentError Nat :=
  match decode? value with
  | none => .error .notUnicode
  | some text =>
    match readInt? text with
    | some (.ofNat n) => if n ≤ 5 then .ok n else .error (.invalidLevel s text)
    | _ => .error (.invalidLevel s text)

/-- An option with its value. -/
def assign (p : Progress) (s : Setting) (value : Bytes) : Except ArgumentError Progress :=
  match s with
  | .component =>
    match Component.ofName? (decodeLossy value) with
    | some c => .ok { p with component := some c }
    | none => .error (.invalidValue s (decodeLossy value))
  | .projectRoot => do
    let path ← readPath s value
    return { p with options := { p.options with projectRoot := some path } }
  | .config => do
    let path ← readPath s value
    return { p with options := { p.options with configs := p.options.configs ++ [path] } }
  | .logLevel => do
    let level ← readLevel s value
    return { p with options := { p.options with logLevel := some level } }
  | .fileLogLevel => do
    let level ← readLevel s value
    return { p with options := { p.options with fileLogLevel := some level } }
  | .logFile => do
    let path ← readPath s value
    return { p with options := { p.options with logFile := some path } }
  | .set =>
    match decode? value with
    | none => .error .notUnicode
    | some text => .ok { p with options := { p.options with settings := p.options.settings ++ [text] } }

/-- An option is checked for being given again, then for having a value, then for the value. -/
def check (p : Progress) (s : Setting) (value : Option Bytes) : Except ArgumentError Progress :=
  if p.has s then .error (.repeated (.setting s))
  else
    match value with
    | none => .error (.invalidValue s "")
    | some v => assign p s v

/-- The option held back is checked. -/
def settle (p : Progress) : Except ArgumentError Progress :=
  match p.pending with
  | none => .ok p
  | some (s, value) => check { p with pending := none } s value

def raise (p : Progress) (f : Flag) : Except ArgumentError Progress := do
  let p ← settle p
  match f with
  | .dry =>
    if p.options.dry then .error (.repeated (.flag f)) else .ok { p with options := { p.options with dry := true } }
  | .cleanBuild => if p.cleanBuild then .error (.repeated (.flag f)) else .ok { p with cleanBuild := true }
  | .help => .error .helpRequested
  | .version => .error .versionRequested

/-- An option begins, with the value attached to it if there is one. -/
def begin (p : Progress) (s : Setting) (attached : Option Bytes) : Except ArgumentError Progress := do
  let p ← settle p
  match attached with
  | some v => check p s (some v)
  | none => .ok { p with pending := some (s, none) }

/-- An argument after `--`: a name, and a value if there is an equals sign. -/
def long (p : Progress) (body : Bytes) : Except ArgumentError Progress :=
  let (name, value) := cutAt (· == equals) body
  match Switch.ofLongName? name with
  | some (.setting s) => begin p s value
  | some (.flag f) =>
    match value with
    | some v => .error (.unneededValue f (decodeLossy v))
    | none => raise p f
  | none => .error (.unknown ("--" ++ decodeLossy name))

/-- The text of an unknown letter: one character, or everything from the first byte that begins none. -/
def unknownLetter (body : Bytes) : String :=
  match Utf8.parts body with
  | .inl c :: _ => String.ofList ['-', c]
  | _ => "-" ++ decodeLossy body

/-- An argument after a single dash: letters of flags, up to the letter of an option, whose value is the rest. -/
def short (p : Progress) : Bytes → Except ArgumentError Progress
  | [] => .ok p
  | b :: rest =>
    match Switch.ofShortName? b with
    | some (.flag f) => do
      let p ← raise p f
      short p rest
    | some (.setting s) =>
      match rest with
      | [] => begin p s none
      | e :: value => begin p s (some (if e = equals then value else rest))
    | none => .error (.unknown (unknownLetter (b :: rest)))

/-- An argument that is no option is the value of the option before it, if that still lacks one. -/
def value (p : Progress) (arg : Bytes) : Except ArgumentError Progress :=
  match p.pending with
  | some (s, none) => .ok { p with pending := some (s, some arg) }
  | _ => .error (.unknown (decodeLossy arg))

def next (p : Progress) (arg : Bytes) : Except ArgumentError Progress :=
  if p.onlyValues then .error (.unknown (decodeLossy arg))
  else
    match arg with
    | a :: b :: rest =>
      if a = dash ∧ b = dash then
        if rest.isEmpty then .ok { p with onlyValues := true } else long p rest
      else if a = dash then short p (b :: rest)
      else value p arg
    | _ => value p arg

/-- The component is asked for when everything else has been read. -/
def finish (p : Progress) : Except ArgumentError (Options × Request) := do
  let p ← settle p
  match p.component with
  | some c => .ok (p.options, ⟨c, p.cleanBuild⟩)
  | none => .error .missingComponent

/-- `-cb` becomes `--clean-build`, up to an argument `--`. -/
def normalize : List Bytes → List Bytes
  | [] => []
  | arg :: args =>
    if arg = encode "--" then arg :: args
    else (if arg = encode "-cb" then encode "--clean-build" else arg) :: normalize args

/-- A command line, with the name of the program in front. -/
def parse (args : List Bytes) : Except ArgumentError (Options × Request) := do
  let p ← (normalize args).tail.foldlM next {}
  finish p

end Arguments

end GradleBuild
