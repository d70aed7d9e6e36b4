import GradleBuild.Path

/-!
# Directories, files and links

A node is a directory with named children, a file, or a symbolic link that is not followed.  A location is the row of
names that leads to a node from the root.

* `get?`, `put` and `erase` read and change the node at a location.
* `get?_put_self`, `get?_erase_below`: what is put somewhere is there, what is erased is gone with all below it.
* `entry_get?_put`, `entry_get?_erase`: neither touches what is not at or below its location.
* `WellFormed`: the children of a directory have names of their own, and each is a name that a path can spell.
-/

namespace GradleBuild

namespace Name

def longest : Nat := 255

/-- Whether a path can spell a name: neither empty nor one of the two dotted segments, without slash and NUL, and not
too long. -/
def IsValid (n : Name) : Prop :=
  n ≠ [] ∧ n ≠ [Path.dot] ∧ n ≠ [Path.dot, Path.dot] ∧ Path.slash ∉ n ∧ 0 ∉ n ∧ n.length ≤ longest

instance (n : Name) : Decidable (IsValid n) := by unfold IsValid; infer_instance

end Name

/-- The names that lead to a node from the root. -/
abbrev Location := List Name

/-- What a node is, its children left aside. -/
inductive Entry where
  | directory
  | file (content : Bytes) (executable : Bool)
  | link (target : Path)
  deriving DecidableEq, Repr, Inhabited

inductive Node where
  | directory (children : List (Name × Node))
  | file (content : Bytes) (executable : Bool)
  | link (target : Path)
  deriving Repr, Inhabited

namespace Node

def ofEntry : Entry → Node
  | .directory => .directory []
  | .file content executable => .file content executable
  | .link target => .link target

def entry : Node → Entry
  | .directory _ => .directory
  | .file content executable => .file content executable
  | .link target => .link target

def isDirectory : Node → Bool
  | .directory _ => true
  | _ => false

def isFile : Node → Bool
  | .file .. => true
  | _ => false

def children : Node → List (Name × Node)
  | .directory cs => cs
  | _ => []

/-- The children with `n` under `name`, in its old place if there was one. -/
def setChild (name : Name) (n : Node) : List (Name × Node) → List (Name × Node)
  | [] => [(name, n)]
  | (k, m) :: cs => if k = name then (k, n) :: cs else (k, m) :: setChild name n cs

def eraseChild (name : Name) (cs : List (Name × Node)) : List (Name × Node) := cs.filter (·.1 ≠ name)

/-- The node at a location. -/
def get? : Location → Node → Option Node
  | [], n => some n
  | name :: names, .directory cs => (cs.lookup name).bind (get? names)
  | _ :: _, _ => none

/-- The tree with `new` at a location, if the directory above it is there. -/
def put (new : Node) : Location → Node → Node
  | [], _ => new
  | [name], .directory cs => .directory (setChild name new cs)
  | name :: next :: names, .directory cs =>
    match cs.lookup name with
    | some n => .directory (setChild name (put new (next :: names) n) cs)
    | none => .directory cs
  | _ :: _, n => n

/-- The tree without anything at or below a location. -/
def erase : Location → Node → Node
  | [], n => n
  | [name], .directory cs => .directory (eraseChild name cs)
  | name :: next :: names, .directory cs =>
    match cs.lookup name with
    | some n => .directory (setChild name (erase (next :: names) n) cs)
    | none => .directory cs
  | _ :: _, n => n

/-! ### What changes show -/

theorem lookup_setChild_self (name : Name) (n : Node) (cs : List (Name × Node)) :
    (setChild name n cs).lookup name = some n := by
  induction cs with
  | nil => simp [setChild]
  | cons c cs ih =>
    obtain ⟨k, m⟩ := c
    unfold setChild
    split
    · rename_i h; subst h; simp
    · rename_i h
      have : (name == k) = false := by simpa using Ne.symm h
      simp [List.lookup_cons, this, ih]

theorem lookup_setChild_of_ne {name other : Name} (h : other ≠ name) (n : Node) (cs : List (Name × Node)) :
    (setChild name n cs).lookup other = cs.lookup other := by
  induction cs with
  | nil =>
    have : (other == name) = false := by simpa using h
    simp [setChild, List.lookup_cons, this]
  | cons c cs ih =>
    obtain ⟨k, m⟩ := c
    unfold setChild
    split
    · rename_i hk; subst hk
      have : (other == k) = false := by simpa using h
      simp [List.lookup_cons, this]
    · simp [List.lookup_cons, ih]

theorem lookup_eraseChild_self (name : Name) (cs : List (Name × Node)) : (eraseChild name cs).lookup name = none := by
  induction cs with
  | nil => rfl
  | cons c cs ih =>
    obtain ⟨k, m⟩ := c
    by_cases h : k = name
    · simpa [eraseChild, h] using ih
    · have hb : (name == k) = false := by simpa using Ne.symm h
      have : eraseChild name ((k, m) :: cs) = (k, m) :: eraseChild name cs := by simp [eraseChild, h]
      rw [this, List.lookup_cons, hb, ih]

theorem lookup_eraseChild_of_ne {name other : Name} (h : other ≠ name) (cs : List (Name × Node)) :
    (eraseChild name cs).lookup other = cs.lookup other := by
  induction cs with
  | nil => rfl
  | cons c cs ih =>
    obtain ⟨k, m⟩ := c
    by_cases hk : k = name
    · have hb : (other == k) = false := by simpa [hk] using h
      have : eraseChild name ((k, m) :: cs) = eraseChild name cs := by simp [eraseChild, hk]
      rw [this, ih, List.lookup_cons, hb]
    · have : eraseChild name ((k, m) :: cs) = (k, m) :: eraseChild name cs := by simp [eraseChild, hk]
      rw [this, List.lookup_cons, List.lookup_cons, ih]

/-- Where there is a directory to hold it, a node that is put at a location is there. -/
theorem get?_put_self {l : Location} {name : Name} {t new : Node} {cs : List (Name × Node)}
    (h : t.get? l = some (.directory cs)) : (put new (l ++ [name]) t).get? (l ++ [name]) = some new := by
  induction l generalizing t with
  | nil =>
    simp only [get?, Option.some.injEq] at h
    subst h
    simp [put, get?, lookup_setChild_self]
  | cons a l ih =>
    cases t with
    | file | link => simp [get?] at h
    | directory ds =>
      simp only [get?] at h
      cases hd : ds.lookup a with
      | none => simp [hd] at h
      | some n =>
        rw [hd] at h
        obtain ⟨b, l', hb⟩ : ∃ b l', l ++ [name] = b :: l' := by cases l <;> simp
        have := ih h
        rw [hb] at this
        rw [List.cons_append, hb, put, hd]
        simp [get?, lookup_setChild_self, this]

/-- Putting a node somewhere leaves what is neither there nor below as it is. -/
theorem entry_get?_put {l k : Location} {t new : Node} (h : ¬ l <+: k) :
    ((put new l t).get? k).map entry = (t.get? k).map entry := by
  fun_induction put new l t generalizing k with
  | case1 => simp at h
  | case2 name cs =>
    cases k with
    | nil => rfl
    | cons b k =>
      have hb : b ≠ name := fun e => h (by subst e; exact ⟨k, rfl⟩)
      simp [get?, lookup_setChild_of_ne hb]
  | case3 name next names cs n hn ih =>
    cases k with
    | nil => rfl
    | cons b k =>
      by_cases hb : b = name
      · subst hb
        have := @ih k (fun hp => h (List.cons_prefix_cons.2 ⟨rfl, hp⟩))
        simp [get?, lookup_setChild_self, hn, this]
      · simp [get?, lookup_setChild_of_ne hb]
  | case4 => rfl
  | case5 => rfl

/-- Nothing is left where something has been erased, nor below. -/
theorem get?_erase_below {l k : Location} {t : Node} (hl : l ≠ []) (h : l <+: k) : (erase l t).get? k = none := by
  fun_induction erase l t generalizing k with
  | case1 => exact absurd rfl hl
  | case2 name cs =>
    obtain ⟨r, rfl⟩ := h
    simp [get?, lookup_eraseChild_self]
  | case3 name next names cs n hn ih =>
    obtain ⟨r, rfl⟩ := h
    have := @ih (next :: names ++ r) (by simp) ⟨r, rfl⟩
    simp only [List.cons_append] at this ⊢
    simp [get?, lookup_setChild_self, this]
  | case4 name next names cs hn =>
    obtain ⟨r, rfl⟩ := h
    simp [get?, hn]
  | case5 name names n h1 h2 =>
    obtain ⟨r, rfl⟩ := h
    cases n with
    | directory cs =>
      cases names with
      | nil => exact (h1 cs rfl rfl).elim
      | cons next names => exact (h2 next names cs rfl rfl).elim
    | file | link => rfl

/-- Erasing leaves what is neither there nor below as it is. -/
theorem entry_get?_erase {l k : Location} {t : Node} (h : ¬ l <+: k) :
    ((erase l t).get? k).map entry = (t.get? k).map entry := by
  fun_induction erase l t generalizing k with
  | case1 => simp at h
  | case2 name cs =>
    cases k with
    | nil => rfl
    | cons b k =>
      have hb : b ≠ name := fun e => h (by subst e; exact ⟨k, rfl⟩)
      simp [get?, lookup_eraseChild_of_ne hb]
  | case3 name next names cs n hn ih =>
    cases k with
    | nil => rfl
    | cons b k =>
      by_cases hb : b = name
      · subst hb
        have := @ih k (fun hp => h (List.cons_prefix_cons.2 ⟨rfl, hp⟩))
        simp [get?, lookup_setChild_self, hn, this]
      · simp [get?, lookup_setChild_of_ne hb]
  | case4 => rfl
  | case5 => rfl

/-! ### Well-formed nodes -/

/-- The children of every directory have valid names, each once. -/
inductive WellFormed : Node → Prop where
  | file (content : Bytes) (executable : Bool) : WellFormed (.file content executable)
  | link (target : Path) : WellFormed (.link target)
  | directory (cs : List (Name × Node)) : (cs.map Prod.fst).Nodup → (∀ c ∈ cs, Name.IsValid c.1) →
      (∀ c ∈ cs, WellFormed c.2) → WellFormed (.directory cs)

theorem mem_setChild {name : Name} {n : Node} {cs : List (Name × Node)} {c : Name × Node}
    (h : c ∈ setChild name n cs) : c = (name, n) ∨ c ∈ cs := by
  induction cs with
  | nil => simpa [setChild] using h
  | cons d cs ih =>
    obtain ⟨k, m⟩ := d
    unfold setChild at h
    split at h
    · rename_i hk
      rcases List.mem_cons.1 h with rfl | h
      · subst hk; exact Or.inl rfl
      · exact Or.inr (List.mem_cons_of_mem _ h)
    · rcases List.mem_cons.1 h with rfl | h
      · exact Or.inr (List.mem_cons_self ..)
      · rcases ih h with h | h
        · exact Or.inl h
        · exact Or.inr (List.mem_cons_of_mem _ h)

theorem nodup_setChild {name : Name} {n : Node} {cs : List (Name × Node)} (h : (cs.map Prod.fst).Nodup) :
    ((setChild name n cs).map Prod.fst).Nodup := by
  induction cs with
  | nil => simp [setChild]
  | cons d cs ih =>
    obtain ⟨k, m⟩ := d
    simp only [List.map_cons, List.nodup_cons] at h
    unfold setChild
    split
    · simpa using h
    · rename_i hk
      simp only [List.map_cons, List.nodup_cons]
      refine ⟨fun hm => ?_, ih h.2⟩
      obtain ⟨c, hc, he⟩ := List.mem_map.1 hm
      rcases mem_setChild hc with rfl | hc
      · exact hk he.symm
      · exact h.1 (List.mem_map.2 ⟨c, hc, he⟩)

theorem WellFormed.ofEntry (e : Entry) : WellFormed (.ofEntry e) := by
  cases e with
  | directory => exact .directory [] (by simp) (by simp) (by simp)
  | file content executable => exact .file content executable
  | link target => exact .link target

theorem WellFormed.setChild {name : Name} {n : Node} {cs : List (Name × Node)} (hn : name.IsValid)
    (h : WellFormed n) (hc : WellFormed (.directory cs)) : WellFormed (.directory (Node.setChild name n cs)) := by
  cases hc with
  | directory _ hd hv hw =>
    refine .directory _ (nodup_setChild hd) (fun c hm => ?_) (fun c hm => ?_)
    · rcases mem_setChild hm with rfl | hm
      · exact hn
      · exact hv c hm
    · rcases mem_setChild hm with rfl | hm
      · exact h
      · exact hw c hm

private theorem mem_of_lookup {name : Name} {n : Node} {cs : List (Name × Node)} (h : cs.lookup name = some n) :
    (name, n) ∈ cs := by
  induction cs with
  | nil => simp at h
  | cons d cs ih =>
    obtain ⟨k, m⟩ := d
    rw [List.lookup_cons] at h
    split at h
    · rename_i hk
      have : name = k := by simpa using hk
      simp only [Option.some.injEq] at h
      subst h; subst this; simp
    · exact List.mem_cons_of_mem _ (ih h)

theorem WellFormed.child {name : Name} {n : Node} {cs : List (Name × Node)} (hc : WellFormed (.directory cs))
    (h : cs.lookup name = some n) : name.IsValid ∧ WellFormed n := by
  cases hc with
  | directory _ _ hv hw => exact ⟨hv _ (mem_of_lookup h), hw _ (mem_of_lookup h)⟩

theorem WellFormed.get? {l : Location} {t n : Node} (ht : WellFormed t) (h : Node.get? l t = some n) :
    WellFormed n := by
  induction l generalizing t with
  | nil => simp only [Node.get?, Option.some.injEq] at h; exact h ▸ ht
  | cons name names ih =>
    cases t with
    | directory cs =>
      simp only [Node.get?] at h
      cases hl : cs.lookup name with
      | none => simp [hl] at h
      | some m => rw [hl] at h; exact ih (ht.child hl).2 h
    | file | link => simp [Node.get?] at h

theorem WellFormed.put {l : Location} {t new : Node} (ht : WellFormed t) (hn : ∀ n ∈ l, Name.IsValid n)
    (h : WellFormed new) : WellFormed (Node.put new l t) := by
  fun_induction Node.put new l t with
  | case1 => exact h
  | case2 name cs => exact WellFormed.setChild (hn name (by simp)) h ht
  | case3 name next names cs n hl ih =>
    exact WellFormed.setChild (hn name (by simp))
      (ih (ht.child hl).2 (fun m hm => hn m (List.mem_cons_of_mem _ hm))) ht
  | case4 => exact ht
  | case5 => exact ht

theorem WellFormed.erase {l : Location} {t : Node} (ht : WellFormed t) : WellFormed (Node.erase l t) := by
  fun_induction Node.erase l t with
  | case1 => exact ht
  | case2 name cs =>
    cases ht with
    | directory _ hd hv hw =>
      exact .directory _ (hd.sublist (List.filter_sublist.map _)) (fun c hc => hv c (List.mem_filter.1 hc).1)
        (fun c hc => hw c (List.mem_filter.1 hc).1)
  | case3 name next names cs n hl ih => exact WellFormed.setChild (ht.child hl).1 (ih (ht.child hl).2) ht
  | case4 => exact ht
  | case5 => exact ht

end Node

end GradleBuild
