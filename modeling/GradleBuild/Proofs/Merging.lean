import GradleBuild.Process.Child
import GradleBuild.Proofs.ByName
import GradleBuild.Proofs.Creation

/-!
# Children that merge

A child that merges adds to what it finds: directories stay, and so do links, and files at most get another content.
`MergesBeside` says so of a child that moreover stays clear of one place.

* `merging`: the child that merges given entries into the directory it runs in, the entries depending on its arguments.
* `mergesBeside_merging`: what is to be checked of the entries.
-/

namespace GradleBuild

/-- Run in `base`, the child merges what its arguments and the tree say.  It writes nothing at `l` or below, and makes
no link above. -/
structure MergesBeside (child : ChildBehaviour) (base l : Location) : Prop where
  same : ∀ calls calls' (call call' : Call) (tree tree' : Tree), call.directory = base → call'.directory = base →
    call.arguments = call'.arguments → tree.Agrees tree' →
      (child calls call tree).tree.Agrees (child calls' call' tree').tree
  keeps : ∀ calls (call : Call) (tree : Tree), call.directory = base → tree.Extends (child calls call tree).tree
  beside : ∀ calls (call : Call) (tree : Tree) k, call.directory = base → l <+: k →
    (child calls call tree).tree.entryAt? k = tree.entryAt? k
  noLink : ∀ calls (call : Call) (tree : Tree) k q, call.directory = base → k <+: l →
    (child calls call tree).tree.entryAt? k = some (.link q) → tree.entryAt? k = some (.link q)

namespace Tree

variable {t t' : Tree} {l k : Location} {e : Entry} {es : List (Location × Entry)}

/-- The tree with an entry where nothing was, or with another content in a file. -/
def merge (t : Tree) (l : Location) (e : Entry) : Tree :=
  match t.entryAt? l, e with
  | none, e => t.put l e
  | some (.file ..), .file content executable => t.put l (.file content executable)
  | _, _ => t

/-- The tree with entries merged into the directory `base`, one after another. -/
def mergeAll (t : Tree) (base : Location) (es : List (Location × Entry)) : Tree :=
  es.foldl (fun t (l, e) => t.merge (base ++ l) e) t

private theorem merge_cases (t : Tree) (l : Location) (e : Entry) : t.merge l e = t ∨ t.merge l e = t.put l e ∧
    (t.entryAt? l = none ∨ ∃ c x c' x', t.entryAt? l = some (.file c x) ∧ e = .file c' x') := by
  unfold merge
  rcases h : t.entryAt? l with _ | (_ | _ | _)
  · exact Or.inr ⟨rfl, Or.inl rfl⟩
  · exact Or.inl rfl
  · cases e with
    | file => exact Or.inr ⟨rfl, Or.inr ⟨_, _, _, _, rfl, rfl⟩⟩
    | directory | link => exact Or.inl rfl
  · exact Or.inl rfl

theorem extends_merge (t : Tree) (l : Location) (e : Entry) : t.Extends (t.merge l e) := by
  rcases merge_cases t l e with h | ⟨h, hl⟩
  · rw [h]
    exact .refl t
  · rw [h]
    exact extends_put hl

/-- Merging changes at most one entry. -/
theorem entryAt?_merge (t : Tree) (l : Location) (e : Entry) (k : Location) :
    (t.merge l e).entryAt? k = t.entryAt? k ∨ k = l ∧ (t.merge l e).entryAt? k = some e := by
  by_cases hk : (t.merge l e).entryAt? k = t.entryAt? k
  · exact Or.inl hk
  · rcases merge_cases t l e with h | ⟨h, hl⟩
    · exact Or.inl (by rw [h])
    -- an entry is put only where nothing is, or a file
    · have hwritable : t.Writable l := hl.imp_right fun ⟨c, x, _, _, hc, _⟩ => ⟨c, x, hc⟩
      rw [h] at hk ⊢
      obtain rfl := put_only hwritable hk
      exact Or.inr ⟨rfl, put_ne hk⟩

theorem Agrees.put (h : t.Agrees t') (l : Location) (e : Entry) : (t.put l e).Agrees (t'.put l e) := by
  intro k
  by_cases hk : l <+: k
  swap
  · rw [entryAt?_put hk, entryAt?_put hk, h k]
  obtain ⟨r, rfl⟩ := hk
  rcases List.eq_nil_or_concat' l with rfl | ⟨d, name, rfl⟩
  · simpa [Tree.put] using h r
  by_cases hput : t.entryAt? d = some .directory ∧ name.IsValid
  · rw [entryAt?_put_below hput.1 hput.2, entryAt?_put_below (by rw [← h d, hput.1]) hput.2]
  · rw [put_eq_self hput, put_eq_self (by rwa [← h d]), h]

theorem Agrees.merge (h : t.Agrees t') (l : Location) (e : Entry) : (t.merge l e).Agrees (t'.merge l e) := by
  unfold Tree.merge
  rw [← h l]
  split
  · exact h.put l _
  · exact h.put l _
  · exact h

theorem Agrees.mergeAll (h : t.Agrees t') (base : Location) (es : List (Location × Entry)) :
    (t.mergeAll base es).Agrees (t'.mergeAll base es) := by
  induction es generalizing t t' with
  | nil => exact h
  | cons x es ih => exact ih (h.merge (base ++ x.1) x.2)

theorem extends_mergeAll (t : Tree) (base : Location) (es : List (Location × Entry)) :
    t.Extends (t.mergeAll base es) := by
  induction es generalizing t with
  | nil => exact .refl t
  | cons x es ih => exact (extends_merge t (base ++ x.1) x.2).trans (ih _)

/-- What merging changes is one of the entries that are merged. -/
theorem entryAt?_mergeAll (t : Tree) (base : Location) (es : List (Location × Entry)) (k : Location) :
    (t.mergeAll base es).entryAt? k = t.entryAt? k ∨
      ∃ x ∈ es, k = base ++ x.1 ∧ (t.mergeAll base es).entryAt? k = some x.2 := by
  induction es generalizing t with
  | nil => exact Or.inl rfl
  | cons x es ih =>
    rcases ih (t.merge (base ++ x.1) x.2) with h | ⟨y, hy, hk, he⟩
    · rcases entryAt?_merge t (base ++ x.1) x.2 k with h' | ⟨hk, he⟩
      · exact Or.inl (h.trans h')
      · exact Or.inr ⟨x, by simp, hk, h.trans he⟩
    · exact Or.inr ⟨y, List.mem_cons_of_mem _ hy, hk, he⟩

end Tree

/-- The child that merges entries into the directory it runs in. -/
def merging (written : List String → List (Location × Entry)) : ChildBehaviour :=
  fun _ call t => { tree := t.mergeAll call.directory (written call.arguments) }

/-- What is merged must not be at the place or below it, nor be a link above it. -/
theorem mergesBeside_merging {written : List String → List (Location × Entry)} {base l : Location}
    (h : ∀ arguments, ∀ x ∈ written arguments, ¬ l <+: base ++ x.1 ∧ ∀ q, base ++ x.1 <+: l → x.2 ≠ .link q) :
    MergesBeside (merging written) base l where
  same _ _ call call' tree tree' hd hd' harguments ht := by
    simp only [merging, hd, hd', harguments]
    exact ht.mergeAll base _
  keeps _ call tree _ := tree.extends_mergeAll _ _
  beside _ call tree k hd hk := by
    rcases tree.entryAt?_mergeAll call.directory (written call.arguments) k with he | ⟨x, hx, rfl, -⟩
    · exact he
    · rw [hd] at hk
      exact absurd hk (h _ x hx).1
  noLink _ call tree k q hd hk hq := by
    rcases tree.entryAt?_mergeAll call.directory (written call.arguments) k with he | ⟨x, hx, rfl, he⟩
    · exact he.symm.trans hq
    · rw [hd] at hk
      exact absurd (Option.some.inj (he.symm.trans hq)) ((h _ x hx).2 q hk)

end GradleBuild
