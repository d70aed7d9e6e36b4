import GradleBuild.Document

/-!
# Configuration values

The values that sources give to keys.  Each part knows which source it came from (its origin), unless that source has
no name: texts handed over directly and overrides have none, and neither has a table that merging has made.
-/

namespace GradleBuild.Config

inductive Value where
  | scalar (origin : Option String) (s : Scalar)
  | list (origin : Option String) (items : List Value)
  | table (origin : Option String) (fields : List (String × Value))
  deriving Repr, Inhabited

abbrev Fields := List (String × Value)

namespace Value

def null : Value := .scalar none .null

def text (s : String) : Value := .scalar none (.text s)

def origin : Value → Option String
  | scalar o _ => o
  | list o _ => o
  | table o _ => o

end Value

mutual

/-- Plain data with every part from one source. -/
def Value.ofDocument (origin : Option String) : Document → Value
  | .scalar s => .scalar origin s
  | .list items => .list origin (valuesOf origin items)
  | .table fields => .table origin (fieldsOf origin fields)

def valuesOf (origin : Option String) : List Document → List Value
  | [] => []
  | d :: ds => Value.ofDocument origin d :: valuesOf origin ds

def fieldsOf (origin : Option String) : List (String × Document) → List (String × Value)
  | [] => []
  | (name, d) :: ds => (name, Value.ofDocument origin d) :: fieldsOf origin ds

end

/-- The fields with `v` under `name`, in its old place if there was one. -/
def putField (name : String) (v : Value) : Fields → Fields
  | [] => [(name, v)]
  | (k, w) :: rest => if k = name then (k, v) :: rest else (k, w) :: putField name v rest

theorem lookup_putField_self (name : String) (v : Value) (t : Fields) : (putField name v t).lookup name = some v := by
  induction t with
  | nil => simp [putField]
  | cons p t ih =>
    obtain ⟨k, w⟩ := p
    unfold putField
    split
    · rename_i h; subst h; simp
    · rename_i h
      have : (name == k) = false := by simpa using fun e => h e.symm
      simp [List.lookup_cons, this, ih]

theorem lookup_putField_of_ne {name other : String} (h : other ≠ name) (v : Value) (t : Fields) :
    (putField name v t).lookup other = t.lookup other := by
  induction t with
  | nil =>
    have : (other == name) = false := by simpa using h
    simp [putField, List.lookup_cons, this]
  | cons p t ih =>
    obtain ⟨k, w⟩ := p
    unfold putField
    split
    · rename_i hk; subst hk
      have : (other == k) = false := by simpa using h
      simp [List.lookup_cons, this]
    · simp [List.lookup_cons, ih]

end GradleBuild.Config
