import GradleBuild.Toml.Scanner
import GradleBuild.Toml.Table
import GradleBuild.Toml.Word

/-!
# Reading TOML

A text is read in two stages: first its lines, each a header or an assignment, which build the tables; then the
numbers, which must fit 64 bits.  A text that is no TOML is told apart from one whose numbers do not fit
(`Problem`), and the former is found first.

Lists and inline tables may stand inside one another `maxDepth` deep.
-/

namespace GradleBuild.Toml

inductive Problem where
  | malformed
  | number (fault : NumberFault)
  deriving DecidableEq, Repr

def maxDepth : Nat := 80

/-- The items of a list after its opening bracket, or after a comma; the last comma may have no item behind it.  The
number bounds the items read. -/
def itemsFrom (item : List Char → Option (Value × List Char)) :
    Nat → List Char → Option (List Value × List Char)
  | 0, _ => none
  | fuel + 1, cs =>
    match skipTrivia cs with
    | ']' :: rest => some ([], rest)
    | rest => do
      let (v, rest) ← item rest
      match skipTrivia rest with
      | ',' :: rest => (itemsFrom item fuel rest).map fun (vs, r) => (v :: vs, r)
      | ']' :: rest => some ([v], rest)
      | _ => none

/-- A key, an equals sign and a value. -/
def assignment? (item : List Char → Option (Value × List Char)) (cs : List Char) :
    Option ((List String × Value) × List Char) := do
  let (key, rest) ← key? cs
  match skipBlanks rest with
  | '=' :: rest =>
    let (v, rest) ← item (skipBlanks rest)
    some ((key, v), rest)
  | _ => none

/-- The assignments of an inline table after its opening brace, or after a comma.  The number bounds those read. -/
def inlineFrom (item : List Char → Option (Value × List Char)) :
    Nat → Fields → List Char → Option (Fields × List Char)
  | 0, _, _ => none
  | fuel + 1, t, cs =>
    match skipTrivia cs with
    | '\x7d' :: rest => some (t, rest)
    | rest => do
      let ((key, v), rest) ← assignment? item rest
      let t ← Fields.assign v key t
      match skipTrivia rest with
      | ',' :: rest => inlineFrom item fuel t rest
      | '\x7d' :: rest => some (t, rest)
      | _ => none

/-- A value, with lists and inline tables inside one another up to the given depth. -/
def value? : Nat → List Char → Option (Value × List Char)
  | depth, cs =>
    match cs with
    | '[' :: rest =>
      match depth with
      | 0 => none
      | d + 1 => (itemsFrom (value? d) (rest.length + 1) rest).map fun (vs, r) => (.list vs, r)
    | '\x7b' :: rest =>
      match depth with
      | 0 => none
      | d + 1 =>
        (inlineFrom (value? d) (rest.length + 1) [] rest).map fun (t, r) => (.table (valuesOf t), r)
    | c :: _ =>
      if c = '"' ∨ c = '\'' then (string? cs).map fun (s, r) => (.scalar (.text s), r)
      else
        let (word, rest) := Word.take cs
        (Word.read? word).map fun v => (v, rest)
    | [] => none

/-- The names of a header up to its closing bracket. -/
def header? (cs : List Char) : Option ((List String × String) × List Char) := do
  let (key, rest) ← key? cs
  let name ← key.getLast?
  some ((key.dropLast, name), skipBlanks rest)

/-- One line, which may say nothing. -/
def line? (cs : List Char) : Option (Option Statement × List Char) :=
  match skipBlanks cs with
  | [] => some (none, [])
  | '[' :: '[' :: rest => do
    let ((path, name), rest) ← header? rest
    match rest with
    | ']' :: ']' :: rest => some (some (.itemHeader path name), ← endOfLine? rest)
    | _ => none
  | '[' :: rest => do
    let ((path, name), rest) ← header? rest
    match rest with
    | ']' :: rest => some (some (.header path name), ← endOfLine? rest)
    | _ => none
  | c :: rest =>
    if c = '#' ∨ c = '\n' ∨ c = '\r' then (endOfLine? (c :: rest)).map fun r => (none, r)
    else do
      let ((key, v), rest) ← assignment? (value? maxDepth) (c :: rest)
      some (some (.assignment key v), ← endOfLine? rest)

/-- The lines of a text, one after another; each takes a character at least. -/
def linesFrom : Nat → Assembly → List Char → Option Assembly
  | _, a, [] => some a
  | 0, _, _ :: _ => none
  | fuel + 1, a, cs => do
    let (statement, rest) ← line? cs
    let a ← match statement with
      | none => some a
      | some s => a.add s
    linesFrom fuel a rest

/-- The text without a mark of its byte order. -/
def dropByteOrderMark : List Char → List Char
  | '\uFEFF' :: cs => cs
  | cs => cs

/-- The fields of a text at the top level. -/
def read (s : String) : Except Problem (List (String × Document)) :=
  let cs := dropByteOrderMark s.toList
  match linesFrom (cs.length + 1) {} cs with
  | none => .error .malformed
  | some a => (documentsOfFields (valuesOf a.fields)).mapError .number

end GradleBuild.Toml
