import GradleBuild.Files.Node

/-!
# File trees

A file tree is a well-formed directory.  It is seen through `entryAt?`, which says what is at a location, and changed by
putting an entry at a location or erasing what is there with everything below.  Both leave the tree as it is where
there is no directory to hold the entry; the root itself stays.

Of the files of a system a tree has the names, the contents, the links and the permission to execute.  It has no other
permissions, no owners, and no second names for one file.

* `entryAt?_put_self`, `entryAt?_erase_below`: what is put somewhere is there, what is erased is gone.
* `entryAt?_put`, `entryAt?_erase`: neither touches what is not at or below its location.
-/

namespace GradleBuild

/-- The absolute path of a location. -/
def Location.path (l : Location) : Path := ⟨Path.slash :: List.intercalate [Path.slash] l⟩

structure Tree where
  root : Node
  isDirectory : root.isDirectory = true
  wellFormed : root.WellFormed

namespace Tree

theorem isDirectory_put {l : Location} {new t : Node} (h : t.isDirectory = true) (hl : l ≠ []) :
    (Node.put new l t).isDirectory = true := by
  cases t with
  | directory cs =>
    match l with
    | [] => exact absurd rfl hl
    | [name] => rfl
    | name :: next :: names =>
      unfold Node.put
      split <;> rfl
  | file | link => simp [Node.isDirectory] at h

theorem isDirectory_erase {l : Location} {t : Node} (h : t.isDirectory = true) :
    (Node.erase l t).isDirectory = true := by
  cases t with
  | directory cs =>
    match l with
    | [] => rfl
    | [name] => rfl
    | name :: next :: names =>
      unfold Node.erase
      split <;> rfl
  | file | link => simp [Node.isDirectory] at h

def empty : Tree := ⟨.directory [], rfl, Node.WellFormed.ofEntry .directory⟩

instance : Inhabited Tree := ⟨empty⟩

def get? (t : Tree) (l : Location) : Option Node := t.root.get? l

/-- What is at a location. -/
def entryAt? (t : Tree) (l : Location) : Option Entry := (t.get? l).map Node.entry

/-- The tree with an entry at a location, and nothing below it. -/
def put (t : Tree) (l : Location) (e : Entry) : Tree :=
  if h : l ≠ [] ∧ ∀ n ∈ l, Name.IsValid n then
    ⟨Node.put (.ofEntry e) l t.root, isDirectory_put t.isDirectory h.1, t.wellFormed.put h.2 (.ofEntry e)⟩
  else t

/-- The tree without what is at a location and below it. -/
def erase (t : Tree) (l : Location) : Tree :=
  ⟨t.root.erase l, isDirectory_erase t.isDirectory, t.wellFormed.erase⟩

/-- In a directory an entry can be put under any valid name. -/
theorem entryAt?_put_self {t : Tree} {l : Location} {name : Name} (hl : ∀ n ∈ l ++ [name], n.IsValid)
    (h : t.entryAt? l = some .directory) (e : Entry) : (t.put (l ++ [name]) e).entryAt? (l ++ [name]) = some e := by
  obtain ⟨n, hn, he⟩ := Option.map_eq_some_iff.1 h
  cases n with
  | directory cs =>
    have hne : l ++ [name] ≠ [] ∧ ∀ n ∈ l ++ [name], n.IsValid := ⟨by simp, hl⟩
    have hput : (Node.put (.ofEntry e) (l ++ [name]) t.root).get? (l ++ [name]) = some (.ofEntry e) :=
      Node.get?_put_self hn
    simp only [entryAt?, get?, put, dif_pos hne, hput]
    cases e <;> rfl
  | file | link => simp [Node.entry] at he

/-- Putting an entry somewhere leaves what is neither there nor below as it is. -/
theorem entryAt?_put {t : Tree} {l k : Location} (h : ¬ l <+: k) (e : Entry) :
    (t.put l e).entryAt? k = t.entryAt? k := by
  unfold put
  split
  · exact Node.entry_get?_put h
  · rfl

/-- Nothing is left where something has been erased, nor below. -/
theorem entryAt?_erase_below {t : Tree} {l k : Location} (hl : l ≠ []) (h : l <+: k) :
    (t.erase l).entryAt? k = none := by
  simp [entryAt?, get?, erase, Node.get?_erase_below hl h]

/-- Erasing leaves what is neither there nor below as it is. -/
theorem entryAt?_erase {t : Tree} {l k : Location} (h : ¬ l <+: k) : (t.erase l).entryAt? k = t.entryAt? k :=
  Node.entry_get?_erase h

/-- The names in the directory at a location. -/
def names (t : Tree) (l : Location) : List Name := ((t.get? l).map Node.children |>.getD []).map Prod.fst

/-- A tree built from entries, those of directories first. -/
def ofEntries (es : List (Location × Entry)) : Tree := es.foldl (fun t (l, e) => t.put l e) empty

end Tree

mutual

/-- Everything below a node, with the locations as seen from there. -/
def Node.contents : Node → List (Location × Entry)
  | .directory cs => contentsOf cs
  | .file .. => []
  | .link _ => []

def contentsOf : List (Name × Node) → List (Location × Entry)
  | [] => []
  | (name, n) :: cs =>
    ([name], n.entry) :: n.contents.map (fun (l, e) => (name :: l, e)) ++ contentsOf cs

end

end GradleBuild
