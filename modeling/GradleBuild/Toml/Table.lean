import GradleBuild.Toml.Value

/-!
# Tables of TOML under construction

A table is built by headers and by assignments.  No part may be defined twice, and there are three ways in which a
table can come about (`Kind`): a table that a header names is complete once the next header begins, one that a longer
header merely passes through can still be named by a header of its own, and one that a dotted key passes through can
only be extended by dotted keys.
-/

namespace GradleBuild.Toml

/-- How a table has come about. -/
inductive Kind where
  /-- Named by a header. -/
  | named
  /-- Passed through by a header. -/
  | passed
  /-- Passed through by a dotted key. -/
  | dotted
  deriving DecidableEq, Repr

inductive Node where
  | value (v : Value)
  | table (kind : Kind) (fields : List (String × Node))
  /-- A list of tables, each begun by a header in double brackets. -/
  | tables (items : List (List (String × Node)))
  deriving Repr, Inhabited

abbrev Fields := List (String × Node)

namespace Fields

/-- The fields with `node` under `name`, in its old place if there was one. -/
def put (name : String) (node : Node) : Fields → Fields
  | [] => [(name, node)]
  | (k, n) :: rest => if k = name then (k, node) :: rest else (k, n) :: put name node rest

/-- Change the table that a header's names lead to; of a list of tables that is the last one. -/
def within (change : Fields → Option Fields) : List String → Fields → Option Fields
  | [], t => change t
  | name :: names, t =>
    match t.lookup name with
    | none => (within change names []).map fun s => put name (.table .passed s) t
    | some (.table kind s) => (within change names s).map fun s => put name (.table kind s) t
    | some (.tables items) =>
      (within change names (items.getLastD [])).map fun s => put name (.tables (items.dropLast ++ [s])) t
    | some (.value _) => none

/-- A header names a table, which must be new or merely passed through so far. -/
def openTable (name : String) (t : Fields) : Option Fields :=
  match t.lookup name with
  | none => some (put name (.table .named []) t)
  | some (.table .passed s) => some (put name (.table .named s) t)
  | some _ => none

/-- A header in double brackets begins another table of a list. -/
def openItem (name : String) (t : Fields) : Option Fields :=
  match t.lookup name with
  | none => some (put name (.tables [[]]) t)
  | some (.tables items) => some (put name (.tables (items ++ [[]])) t)
  | some _ => none

/-- Give a value to a key, dotted or not, that has none yet. -/
def assign (v : Value) : List String → Fields → Option Fields
  | [], _ => none
  | [name], t => if (t.lookup name).isSome then none else some (put name (.value v) t)
  | name :: next :: names, t =>
    match t.lookup name with
    | none => (assign v (next :: names) []).map fun s => put name (.table .dotted s) t
    | some (.table .named _) => none
    | some (.table .passed s) =>
      if names.isEmpty then none else (assign v (next :: names) s).map fun s => put name (.table .passed s) t
    | some (.table .dotted s) => (assign v (next :: names) s).map fun s => put name (.table .dotted s) t
    | some (.tables items) =>
      if names.isEmpty then none
      else
        (assign v (next :: names) (items.getLastD [])).map fun s => put name (.tables (items.dropLast ++ [s])) t
    | some (.value _) => none

end Fields

mutual

/-- The value of a finished part. -/
def Node.toValue : Node → Value
  | .value v => v
  | .table _ fields => .table (valuesOf fields)
  | .tables items => .list (tablesOf items)

def valuesOf : List (String × Node) → List (String × Value)
  | [] => []
  | (name, n) :: rest => (name, n.toValue) :: valuesOf rest

def tablesOf : List (List (String × Node)) → List Value
  | [] => []
  | t :: rest => .table (valuesOf t) :: tablesOf rest

end

/-- A line of a text that says something. -/
inductive Statement where
  | header (path : List String) (name : String)
  | itemHeader (path : List String) (name : String)
  | assignment (key : List String) (v : Value)
  deriving Repr

/-- The fields read so far, and the table that assignments go to. -/
structure Assembly where
  fields : Fields := []
  current : List String := []

def Assembly.add (a : Assembly) : Statement → Option Assembly
  | .header path name => do
    return ⟨← a.fields.within (Fields.openTable name) path, path ++ [name]⟩
  | .itemHeader path name => do
    return ⟨← a.fields.within (Fields.openItem name) path, path ++ [name]⟩
  | .assignment key v => do
    return { a with fields := ← a.fields.within (Fields.assign v key) a.current }

end GradleBuild.Toml
