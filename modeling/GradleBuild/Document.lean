import GradleBuild.Number.Binary64

/-!
# Plain data

What a TOML text holds: scalars, lists, and tables with their names in order.
-/

namespace GradleBuild

inductive Scalar where
  | null
  | bool (b : Bool)
  | integer (n : Int)
  | float (x : Binary64)
  | text (s : String)
  deriving DecidableEq, Repr, Inhabited

inductive Document where
  | scalar (s : Scalar)
  | list (items : List Document)
  | table (fields : List (String × Document))
  deriving Repr, Inhabited

end GradleBuild
