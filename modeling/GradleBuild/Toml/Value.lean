import GradleBuild.Document

/-!
# Values of TOML

A text may spell integers and numbers of any size; those that do not fit 64 bits are told apart only when the text as
a whole has been read (`Value.toDocument`).
-/

namespace GradleBuild.Toml

/-- Why a number cannot be taken over. -/
inductive NumberFault where
  | tooLarge
  | tooSmall
  | overflow
  deriving DecidableEq, Repr

inductive Value where
  | scalar (s : Scalar)
  | unfit (fault : NumberFault)
  | list (items : List Value)
  | table (fields : List (String × Value))
  deriving Repr, Inhabited

/-- An integer of any size. -/
def Value.ofInt (n : Int) : Value :=
  if n < -(Nat.pow 2 63 : Int) then .unfit .tooSmall
  else if Nat.pow 2 63 ≤ n then .unfit .tooLarge
  else .scalar (.integer n)

/-- A number spelt with digits. -/
def Value.ofBinary64 (x : Binary64) : Value := if x.isInfinite then .unfit .overflow else .scalar (.float x)

mutual

/-- The data of a value, if its numbers fit. -/
def Value.toDocument : Value → Except NumberFault Document
  | .scalar s => .ok (.scalar s)
  | .unfit fault => .error fault
  | .list items => do return .list (← documentsOf items)
  | .table fields => do return .table (← documentsOfFields fields)

def documentsOf : List Value → Except NumberFault (List Document)
  | [] => .ok []
  | v :: vs => do return (← v.toDocument) :: (← documentsOf vs)

def documentsOfFields : List (String × Value) → Except NumberFault (List (String × Document))
  | [] => .ok []
  | (name, v) :: vs => do return (name, ← v.toDocument) :: (← documentsOfFields vs)

end

end GradleBuild.Toml
