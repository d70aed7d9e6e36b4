import GradleBuild.Log.Level

/-!
# Log events

An event has a level, the part of the program it comes from, a message and named fields.  Its text is the message
with ` name=value` behind it for each field, and for a log file the name of its source in front.
-/

namespace GradleBuild.Log

/-- The parts of the program that log. -/
inductive Source where
  | build
  | task
  | step
  | gradle
  | runner
  | output
  deriving DecidableEq, Repr

/-- The name shown in front of an event in a log file. -/
def Source.name : Source → String
  | .build => "scp_build::cmd::build"
  | .task => "scp_build::task"
  | .step => "scp_build::task::step"
  | .gradle => "scp_build::task::tools::gradle"
  | .runner => "scp_build::core::process::runner"
  | .output => "scp_build::core::process::io"

/-- A field of an event.  One whose value says nothing about the run, such as the number of a process, shows its name
alone; `quotes` says whether the text form of the value has quotation marks. -/
structure Field where
  name : String
  value : Option String
  quotes : Bool := false
  deriving DecidableEq, Repr

/-- A field with a value. -/
def Field.of (name value : String) : Field := ⟨name, some value, false⟩

def Field.quoted (name value : String) : Field := ⟨name, some value, true⟩

structure Event where
  level : Level
  source : Source
  message : String
  fields : List Field := []
  deriving DecidableEq, Repr

def Field.text (f : Field) : String :=
  match f.value with
  | none => f.name
  | some v => if f.quotes then f.name ++ "=\"" ++ v ++ "\"" else f.name ++ "=" ++ v

/-- A character of a message with its power over a terminal taken away. -/
def disarm (c : Char) : List Char :=
  match c with
  | '\x1b' => "\\x1b".toList
  | '\x07' => "\\x07".toList
  | '\x08' => "\\x08".toList
  | '\x0c' => "\\x0c".toList
  | '\x7f' => "\\x7f".toList
  | c =>
    if 0x80 ≤ c.toNat ∧ c.toNat ≤ 0x9F then ['\\', 'u', '\x7b'] ++ Nat.toDigits 16 c.toNat ++ ['\x7d'] else [c]

/-- The message and the fields, as a console shows them. -/
def Event.text (e : Event) : String :=
  String.intercalate " " (String.ofList (e.message.toList.flatMap disarm) :: e.fields.map Field.text)

/-- The text with its source in front, as a log file shows it. -/
def Event.fileText (e : Event) : String := e.source.name ++ ": " ++ e.text

end GradleBuild.Log
