import GradleBuild.Config.Value
import GradleBuild.Number.Integer

/-!
# Keys

A key leads from the top of a configuration to a value in it: a name, then further names after dots and indices in
brackets.  A negative index counts from the end of a list.

Setting a key makes its way: where a table or a list is needed and something else is found, it is replaced by an
empty one, and a list is filled up with nulls as far as the index asks.

* `Key.set`: a table is merged into what is there name by name, anything else replaces it.
-/

namespace GradleBuild.Config

inductive KeyStep where
  | child (name : String)
  | index (n : Int)
  deriving DecidableEq, Repr

structure Key where
  name : String
  steps : List KeyStep := []
  deriving DecidableEq, Repr

namespace Key

/-! ### Reading -/

def isNameChar (c : Char) : Bool := c.isAlphanum || c = '_' || c = '-'

def isBlankInBrackets (c : Char) : Bool := c = ' ' || c = '\t'

/-- An index up to its closing bracket, with blanks around it. -/
def index? (cs : List Char) : Option (Int × List Char) :=
  let cs := cs.dropWhile isBlankInBrackets
  let (negative, cs) := match cs with
    | '-' :: cs => (true, cs)
    | cs => (false, cs)
  let digits := cs.takeWhile Char.isDigit
  match Digits.read? 10 digits, (cs.drop digits.length).dropWhile isBlankInBrackets with
  | some n, ']' :: rest =>
    let n : Int := if negative then -(n : Int) else n
    if fitsInt64 n then some (n, rest) else none
  | _, _ => none

/-- What follows the first name.  The number bounds the steps read. -/
def stepsFrom : Nat → List Char → Option (List KeyStep)
  | _, [] => some []
  | 0, _ :: _ => none
  | fuel + 1, '.' :: cs =>
    let name := cs.takeWhile isNameChar
    if name.isEmpty then none
    else (stepsFrom fuel (cs.drop name.length)).map (.child (String.ofList name) :: ·)
  | fuel + 1, '[' :: cs => do
    let (n, rest) ← index? cs
    (stepsFrom fuel rest).map (.index n :: ·)
  | _ + 1, _ :: _ => none

/-- A written key. -/
def read? (s : String) : Option Key :=
  let cs := s.toList
  let name := cs.takeWhile isNameChar
  if name.isEmpty then none
  else (stepsFrom cs.length (cs.drop name.length)).map fun steps => ⟨String.ofList name, steps⟩

/-- A written key, or else a single name, whatever its characters. -/
def readOrLiteral (s : String) : Key := (read? s).getD ⟨s, []⟩

/-! ### Setting -/

/-- The fields of a table; anything else has none. -/
def fieldsOrNone : Value → Option String × Fields
  | .table o fields => (o, fields)
  | _ => (none, [])

def itemsOrNone : Value → Option String × List Value
  | .list o items => (o, items)
  | _ => (none, [])

/-- Change the value under a name; a name that is not there has a null. -/
def changeField (change : Value → Value) (name : String) (v : Value) : Value :=
  let (o, fields) := fieldsOrNone v
  .table o (putField name (change ((fields.lookup name).getD .null)) fields)

/-- The position of an index in a list, and how many nulls come in front of the list before that. -/
def position (n : Int) (length : Nat) : Nat × Nat :=
  if 0 ≤ n then (n.toNat, 0)
  else if n.natAbs ≤ length then (length - n.natAbs, 0)
  else (0, n.natAbs - length)

/-- Change an item of a list, which is made long enough for that. -/
def changeItem (change : Value → Value) (n : Int) (v : Value) : Value :=
  let (o, items) := itemsOrNone v
  let (i, before) := position n items.length
  let items := List.replicate before .null ++ items
  let items := items ++ List.replicate (i + 1 - items.length) .null
  .list o (items.modify i change)

/-- Change the value to which some steps lead. -/
def changeAt (change : Value → Value) : List KeyStep → Value → Value
  | [], v => change v
  | .child name :: steps, v => changeField (changeAt change steps) name v
  | .index n :: steps, v => changeItem (changeAt change steps) n v

mutual

/-- Put one value over another: tables are merged name by name, anything else replaces what was there. -/
def overlay : Value → Value → Value
  | .table _ fields, old => overlayFields fields (.table (fieldsOrNone old).1 (fieldsOrNone old).2)
  | .scalar o s, _ => .scalar o s
  | .list o items, _ => .list o items

def overlayFields : List (String × Value) → Value → Value
  | [], v => v
  | (name, new) :: rest, v => overlayFields rest (changeField (overlay new) name v)

end

/-- Set a key to a value. -/
def set (k : Key) (new : Value) (top : Value) : Value := changeField (changeAt (overlay new) k.steps) k.name top

end Key

end GradleBuild.Config
