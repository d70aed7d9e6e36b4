import GradleBuild.Config.Key
import GradleBuild.Error
import GradleBuild.Log.Level
import GradleBuild.Number.Shortest
import GradleBuild.Text.Quoted
import GradleBuild.Toml.Reader

/-!
# Problems of configuration sources

Why sources cannot be read, or why the values they give make no configuration.  A problem of a value names the key it
was found at and, where the value itself is to blame, the source it came from.
-/

namespace GradleBuild.Config

/-- What a value is, where something else is wanted. -/
inductive Shape where
  | text (s : String)
  | sequence
  | map
  | unit
  | bool (b : Bool)
  | integer (n : Int)
  | signed64 (n : Int)
  | unsigned64 (n : Int)
  | float (x : Binary64)
  deriving DecidableEq, Repr

def Shape.title : Shape → String
  | text s => "string " ++ quoted s
  | sequence => "sequence"
  | map => "map"
  | unit => "unit value"
  | bool b => "boolean `" ++ toString b ++ "`"
  | integer n => "integer `" ++ toString n ++ "`"
  | signed64 n => "64-bit integer `" ++ toString n ++ "`"
  | unsigned64 n => "64-bit unsigned integer `" ++ toString n ++ "`"
  | float x => "floating point `" ++ x.textWithPoint ++ "`"

inductive ValueCause where
  /-- Something of another kind is wanted; the origin is shown where the value itself is to blame. -/
  | unexpected (found : Shape) (wanted : String) (origin : Option String)
  | unknownField (name : String) (known : List String)
  | noLevel (n : Nat)
  | noConsoleMode (name : String)
  | notOneName
  deriving DecidableEq, Repr

/-- The complaint about a number that is no log level. -/
def noLevel (n : Nat) : Cause :=
  .invalidValue "global" "log_level" ("log level must be 0-" ++ toString Log.Level.highest ++ ", got " ++ toString n)

namespace ValueCause

def text : ValueCause → String
  | unexpected found wanted _ => "invalid type: " ++ found.title ++ ", expected " ++ wanted
  | unknownField name known =>
    "unknown field `" ++ name ++ "`, expected one of "
      ++ String.intercalate ", " (known.map fun k => "`" ++ k ++ "`")
  | noLevel n => (Config.noLevel n).text
  | noConsoleMode name => "enum ConsoleMode does not have variant constructor " ++ name
  | notOneName => "value of enum ConsoleMode should be represented by either string or table with exactly one key"

def origin : ValueCause → Option String
  | unexpected _ _ o => o
  | _ => none

end ValueCause

/-- A problem of a value, and the steps from the top to it. -/
structure ValueProblem where
  steps : List KeyStep
  cause : ValueCause
  deriving DecidableEq, Repr

/-- The steps to a value in one text. -/
def stepsText (steps : List KeyStep) : String :=
  String.join (steps.mapIdx fun i s =>
    match s with
    | .child name => if i = 0 then name else "." ++ name
    | .index n => "[" ++ toString n ++ "]")

def originText (origin : Option String) : String :=
  match origin with
  | some o => " in " ++ o
  | none => ""

def ValueProblem.message (p : ValueProblem) : String :=
  let key := if p.steps.isEmpty then "" else " for key `" ++ stepsText p.steps ++ "`"
  p.cause.text ++ key ++ originText p.cause.origin

inductive Problem where
  /-- A text that is no TOML, and the file it is from.  The parser explains what is wrong with the text, and the file
  comes at the end. -/
  | malformedToml (content : String) (origin : Option String)
  | number (fault : Toml.NumberFault) (origin : Option String)
  | fileNotFound (path : String)
  /-- The value of a variable is no text. -/
  | variableNotText (name : String) (bytes : Bytes)
  | value (problem : ValueProblem)
  deriving DecidableEq, Repr

/-- The text of a problem.  Of the parser's words about a malformed text, and of the file that they end with, only the
beginning is kept: `Problem.malformedToml` says what they depend on. -/
def Problem.message : Problem → String
  | malformedToml .. => "TOML parse error"
  | number .tooLarge origin => "number too large to fit in target type" ++ originText origin
  | number .tooSmall origin => "number too small to fit in target type" ++ originText origin
  | number .overflow origin => "floating-point number overflowed" ++ originText origin
  | fileNotFound path => "configuration file \"" ++ path ++ "\" not found"
  | variableNotText name bytes =>
    "env variable " ++ quoted name ++ " contains non-Unicode data: " ++ quotedBytes bytes
  | value problem => problem.message

end GradleBuild.Config
