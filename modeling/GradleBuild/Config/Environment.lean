import GradleBuild.Config.Problem
import GradleBuild.Text.Lowercase
import GradleBuild.Text.Split

/-!
# Configuration from the environment

A variable `PREFIX_SECTION__KEY` gives a value to a key.  Its name is read in lower case, without the prefix, and with
a dot for each double underscore.  Its text is taken for a truth value, an integer or a number if it looks like one;
keys that hold lists are split at every blank.
-/

namespace GradleBuild.Config

/-- The variables of a process. -/
abbrev Environment := List (String × Bytes)

def environmentOrigin : String := "the environment"

/-- Keys that hold a list, which a text gives as its pieces between blanks. -/
def listKeys : List String := ["gradle.args"]

/-- A dot for each double underscore, from left to right. -/
def dotted : List Char → List Char
  | '_' :: '_' :: cs => '.' :: dotted cs
  | c :: cs => c :: dotted cs
  | [] => []

/-- What stands behind `start`. -/
def dropStart? {α : Type} [BEq α] : (start l : List α) → Option (List α)
  | [], l => some l
  | _ :: _, [] => none
  | a :: as, b :: bs => if a == b then dropStart? as bs else none

/-- The value that the text of a variable stands for. -/
def guess (key text : String) : Value :=
  let o := some environmentOrigin
  let word := lowercase text
  if word = "true" then .scalar o (.bool true)
  else if word = "false" then .scalar o (.bool false)
  else
    match readInt64? text with
    | some n => .scalar o (.integer n)
    | none =>
      match Binary64.read? text with
      | some x => .scalar o (.float x)
      | none =>
        if listKeys.contains key then
          .list o ((pieces (· == ' ') text.toList).map fun w => .scalar o (.text (String.ofList w)))
        else .scalar o (.text text)

/-- The value that a variable gives, if its name begins with the prefix. -/
def ofVariable (start : String) (name : String) (value : Bytes) : Except Problem (Option (String × Value)) :=
  match dropStart? (lowercase (start ++ "_")).toList (lowercase name).toList with
  | none => .ok none
  | some rest =>
    match decode? value with
    | none => .error (.variableNotText (String.ofList rest) value)
    | some text =>
      let key := String.ofList (dotted rest)
      .ok (some (key, guess key text))

/-- The values that the variables with a prefix give. -/
def ofEnvironment (start : String) (env : Environment) : Except Problem (List (String × Value)) := do
  let values ← env.mapM fun (name, value) => ofVariable start name value
  return values.filterMap id

end GradleBuild.Config
