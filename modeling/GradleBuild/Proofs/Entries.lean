import GradleBuild.Files.Tree
import Mathlib.Data.List.Basic
import Mathlib.Data.List.Induction

/-!
# What a tree shows

A tree is compared with another one by their entries.  `Agrees` says that both show the same everywhere; `Extends`
says that nothing of the first is missing in the second, where only the content of files may differ.  Removing makes
a tree that its predecessor extends, creating makes one that extends its predecessor.

* `get?_concat`: one step further down is a look at the children.
* `entryAt?_put_below`: what is put in a directory is there, and nothing is below it.
* `mem_children_iff`: the children of a directory are the entries one step below it.
* `not_prefix_of_apart`: locations that lie apart share nothing that is below them.
-/

namespace GradleBuild

namespace Node

theorem get?_append (l r : Location) (t : Node) : get? (l ++ r) t = (get? l t).bind (get? r) := by
  induction l generalizing t with
  | nil => rfl
  | cons a l ih =>
    cases t with
    | directory cs =>
      cases h : cs.lookup a with
      | none => simp [get?, h]
      | some n => simp [get?, h, ih]
    | file | link => rfl

theorem get?_singleton (name : Name) (n : Node) : get? [name] n = n.children.lookup name := by
  cases n with
  | directory cs => cases h : cs.lookup name <;> simp [get?, children, h]
  | file | link => rfl

theorem get?_concat (l : Location) (name : Name) (t : Node) :
    get? (l ++ [name]) t = (get? l t).bind fun n => n.children.lookup name := by
  rw [get?_append]
  congr 1
  funext n
  exact get?_singleton name n

theorem entry_eq_directory {n : Node} (h : n.entry = .directory) : ∃ cs, n = .directory cs := by
  cases n with
  | directory cs => exact ⟨cs, rfl⟩
  | file | link => simp [entry] at h

theorem entry_eq_file {n : Node} {content : Bytes} {executable : Bool} (h : n.entry = .file content executable) :
    n = .file content executable := by
  cases n <;> simp_all [entry]

theorem entry_eq_link {n : Node} {target : Path} (h : n.entry = .link target) : n = .link target := by
  cases n <;> simp_all [entry]

theorem get?_ofEntry {r : Location} (h : r ≠ []) (e : Entry) : get? r (ofEntry e) = none := by
  cases r with
  | nil => exact absurd rfl h
  | cons a r => cases e <;> simp [ofEntry, get?]

private theorem setChild_of_lookup {name : Name} {n : Node} {cs : List (Name × Node)}
    (h : cs.lookup name = some n) : setChild name n cs = cs := by
  induction cs with
  | nil => simp at h
  | cons c cs ih =>
    obtain ⟨k, m⟩ := c
    unfold setChild
    by_cases hk : k = name
    · subst hk
      simp only [List.lookup_cons_self, Option.some.injEq] at h
      simp [h]
    · have hb : (name == k) = false := by simpa using Ne.symm hk
      rw [List.lookup_cons, hb] at h
      simp [hk, ih h]

/-- Where no directory holds it, nothing can be put. -/
theorem put_of_not_directory {l : Location} {name : Name} {t new : Node}
    (h : ∀ cs, t.get? l ≠ some (.directory cs)) : put new (l ++ [name]) t = t := by
  induction l generalizing t with
  | nil =>
    cases t with
    | directory cs => exact absurd rfl (h cs)
    | file | link => rfl
  | cons a l ih =>
    cases t with
    | file | link => cases l <;> rfl
    | directory ds =>
      obtain ⟨b, l', hb⟩ : ∃ b l', l ++ [name] = b :: l' := by cases l <;> simp
      cases hd : ds.lookup a with
      | none => rw [List.cons_append, hb, put, hd]
      | some n =>
        have hn : ∀ cs, n.get? l ≠ some (.directory cs) := fun cs hc => h cs (by simp [get?, hd, hc])
        have := ih hn
        rw [hb] at this
        rw [List.cons_append, hb, put, hd]
        simp [this, setChild_of_lookup hd]

theorem lookup_of_mem {name : Name} {n : Node} {cs : List (Name × Node)} (hd : (cs.map Prod.fst).Nodup)
    (h : (name, n) ∈ cs) : cs.lookup name = some n := by
  induction cs with
  | nil => simp at h
  | cons c cs ih =>
    obtain ⟨k, m⟩ := c
    simp only [List.map_cons, List.nodup_cons] at hd
    rcases List.mem_cons.1 h with he | hm
    · simp only [Prod.mk.injEq] at he
      simp [he.1, he.2]
    · have hne : name ≠ k := by
        rintro rfl
        exact hd.1 (List.mem_map.2 ⟨(name, n), hm, rfl⟩)
      have hb : (name == k) = false := by simpa using hne
      rw [List.lookup_cons, hb]
      exact ih hd.2 hm

theorem mem_of_lookup_eq {name : Name} {n : Node} {cs : List (Name × Node)} (h : cs.lookup name = some n) :
    (name, n) ∈ cs := by
  obtain ⟨l₁, l₂, rfl, -⟩ := List.lookup_eq_some_iff.1 h
  simp

private theorem mem_contentsOf {name : Name} {m : Node} {cs : List (Name × Node)} (h : (name, m) ∈ cs) :
    ([name], m.entry) ∈ contentsOf cs ∧ ∀ e ∈ m.contents, (name :: e.1, e.2) ∈ contentsOf cs := by
  induction cs with
  | nil => simp at h
  | cons c cs ih =>
    obtain ⟨k, n⟩ := c
    unfold contentsOf
    rcases List.mem_cons.1 h with he | hm
    · obtain ⟨rfl, rfl⟩ := Prod.mk.inj he
      refine ⟨by simp, fun e he => ?_⟩
      simp only [List.cons_append, List.mem_cons, List.mem_append, List.mem_map]
      exact Or.inr (Or.inl ⟨e, he, rfl⟩)
    · obtain ⟨htop, hbelow⟩ := ih hm
      exact ⟨List.mem_append_right _ htop, fun e he => List.mem_append_right _ (hbelow e he)⟩

/-- Everything below a node is among its contents. -/
theorem mem_contents {r : Location} {n m : Node} (h : n.get? r = some m) (hr : r ≠ []) :
    (r, m.entry) ∈ n.contents := by
  induction r generalizing n with
  | nil => exact absurd rfl hr
  | cons name r ih =>
    cases n with
    | file | link => simp [get?] at h
    | directory cs =>
      simp only [get?] at h
      obtain ⟨c, hc, hrest⟩ := Option.bind_eq_some_iff.1 h
      obtain ⟨htop, hbelow⟩ := mem_contentsOf (mem_of_lookup_eq hc)
      unfold contents
      rcases eq_or_ne r [] with rfl | hne
      · simp only [get?, Option.some.injEq] at hrest
        exact hrest ▸ htop
      · exact hbelow _ (ih hrest hne)

end Node

/-- Nothing is below both of two locations that lie apart. -/
theorem not_prefix_of_apart {a b k : Location} (hapart : ¬ a <+: b ∧ ¬ b <+: a) (ha : a <+: k) : ¬ b <+: k := by
  intro hb
  rcases List.prefix_or_prefix_of_prefix ha hb with h | h
  · exact hapart.1 h
  · exact hapart.2 h

/-- Whether two entries are of the same kind; links must have the same target. -/
def Entry.SameKind : Entry → Entry → Prop
  | .directory, .directory => True
  | .file .., .file .. => True
  | .link a, .link b => a = b
  | _, _ => False

theorem Entry.SameKind.refl (e : Entry) : e.SameKind e := by
  cases e <;> simp [SameKind]

theorem Entry.SameKind.trans {a b c : Entry} (h : a.SameKind b) (h' : b.SameKind c) : a.SameKind c := by
  cases a <;> cases b <;> cases c <;> simp_all [SameKind]

namespace Tree

variable {t t' t'' : Tree} {l k r : Location} {name : Name} {e : Entry}

theorem entryAt?_eq_some_iff : t.entryAt? l = some e ↔ ∃ n, t.get? l = some n ∧ n.entry = e :=
  Option.map_eq_some_iff

theorem entryAt?_eq_none_iff : t.entryAt? l = none ↔ t.get? l = none :=
  Option.map_eq_none_iff

theorem entryAt?_eq_directory_iff : t.entryAt? l = some .directory ↔ ∃ cs, t.get? l = some (.directory cs) := by
  rw [entryAt?_eq_some_iff]
  constructor
  · rintro ⟨n, hn, he⟩
    obtain ⟨cs, rfl⟩ := Node.entry_eq_directory he
    exact ⟨cs, hn⟩
  · rintro ⟨cs, h⟩
    exact ⟨_, h, rfl⟩

theorem entryAt?_eq_file_iff {content : Bytes} {executable : Bool} :
    t.entryAt? l = some (.file content executable) ↔ t.get? l = some (.file content executable) := by
  rw [entryAt?_eq_some_iff]
  constructor
  · rintro ⟨n, hn, he⟩
    rw [hn, Node.entry_eq_file he]
  · intro h
    exact ⟨_, h, rfl⟩

theorem entryAt?_eq_link_iff {target : Path} :
    t.entryAt? l = some (.link target) ↔ t.get? l = some (.link target) := by
  rw [entryAt?_eq_some_iff]
  constructor
  · rintro ⟨n, hn, he⟩
    rw [hn, Node.entry_eq_link he]
  · intro h
    exact ⟨_, h, rfl⟩

theorem get?_concat (t : Tree) (l : Location) (name : Name) :
    t.get? (l ++ [name]) = (t.get? l).bind fun n => n.children.lookup name :=
  Node.get?_concat l name t.root

theorem entryAt?_root (t : Tree) : t.entryAt? [] = some .directory := by
  obtain ⟨root, hd, hw⟩ := t
  cases root with
  | directory cs => rfl
  | file | link => simp [Node.isDirectory] at hd

/-- Above an entry there are directories only. -/
theorem entryAt?_of_append (hr : r ≠ []) (h : t.entryAt? (l ++ r) = some e) : t.entryAt? l = some .directory := by
  obtain ⟨n, hn, -⟩ := entryAt?_eq_some_iff.1 h
  obtain ⟨a, r, rfl⟩ := List.exists_cons_of_ne_nil hr
  have hb : (t.root.get? l).bind (Node.get? (a :: r)) = some n := by rw [← Node.get?_append]; exact hn
  cases hl : t.root.get? l with
  | none => simp [hl] at hb
  | some m =>
    rw [hl] at hb
    cases m with
    | directory cs => exact entryAt?_eq_directory_iff.2 ⟨cs, hl⟩
    | file | link => simp [Node.get?] at hb

theorem entryAt?_above (hk : l <+: k) (hne : l ≠ k) (h : t.entryAt? k = some e) :
    t.entryAt? l = some .directory := by
  obtain ⟨r, rfl⟩ := hk
  exact entryAt?_of_append (fun hr => hne (by simp [hr])) h

/-- What is at or above a directory is a directory. -/
theorem directory_above (hk : l <+: k) (h : t.entryAt? k = some .directory) : t.entryAt? l = some .directory := by
  by_cases hne : l = k
  · rw [hne, h]
  · exact entryAt?_above hk hne h

theorem entryAt?_append_eq_none (h : t.entryAt? l = none) (r : Location) : t.entryAt? (l ++ r) = none := by
  cases hr : t.entryAt? (l ++ r) with
  | none => rfl
  | some e =>
    cases r with
    | nil => simp_all
    | cons a r => simp [entryAt?_of_append (by simp) hr] at h

/-- The names that lead to an entry are names that paths can spell. -/
theorem isValid_of_entryAt? (h : t.entryAt? l = some e) : ∀ n ∈ l, n.IsValid := by
  induction l using List.reverseRecOn generalizing e with
  | nil => simp
  | append_singleton l a ih =>
    have hd := entryAt?_of_append (by simp) h
    obtain ⟨cs, hcs⟩ := entryAt?_eq_directory_iff.1 hd
    obtain ⟨n, hn, -⟩ := entryAt?_eq_some_iff.1 h
    rw [get?_concat, hcs] at hn
    have hw : Node.WellFormed (.directory cs) := t.wellFormed.get? hcs
    intro m hm
    rcases List.mem_append.1 hm with hm | hm
    · exact ih hd m hm
    · rw [List.mem_singleton.1 hm]
      exact (hw.child hn).1

/-- The children of a directory are the entries one step below it. -/
theorem mem_children_iff {cs : List (Name × Node)} (h : t.get? l = some (.directory cs)) {n : Node} :
    (name, n) ∈ cs ↔ t.get? (l ++ [name]) = some n := by
  rw [get?_concat, h]
  cases t.wellFormed.get? h with
  | directory _ hd _ _ => exact ⟨Node.lookup_of_mem hd, Node.mem_of_lookup_eq⟩

theorem nodup_children {cs : List (Name × Node)} (h : t.get? l = some (.directory cs)) : (cs.map Prod.fst).Nodup := by
  cases t.wellFormed.get? h with
  | directory _ hd _ _ => exact hd

/-- Everything at or below an entry is the entry itself or among its contents. -/
theorem mem_contents {e' : Entry} (hl : t.entryAt? l = some e)
    (h : t.entryAt? (l ++ r) = some e') :
    (r, e') ∈ ([], e) :: ((t.get? l).map Node.contents).getD [] := by
  rcases eq_or_ne r [] with rfl | hr
  · rw [List.append_nil, hl, Option.some.injEq] at h
    simp [h]
  · obtain ⟨n, hn, -⟩ := entryAt?_eq_some_iff.1 hl
    obtain ⟨m, hm, rfl⟩ := entryAt?_eq_some_iff.1 h
    have hbelow : n.get? r = some m := by
      have hn' : t.root.get? l = some n := hn
      have := Node.get?_append l r t.root
      rw [hn', Option.bind_some] at this
      exact this.symm.trans hm
    rw [hn]
    exact List.mem_cons_of_mem _ (Node.mem_contents hbelow hr)

/-! ### Putting and erasing -/

/-- What is put in a directory under a valid name is there, and nothing is below it. -/
theorem entryAt?_put_below (hl : t.entryAt? l = some .directory) (hn : name.IsValid) (e : Entry) :
    (t.put (l ++ [name]) e).entryAt? (l ++ [name] ++ r) = if r = [] then some e else none := by
  have hv : ∀ n ∈ l ++ [name], n.IsValid := by
    intro n hm
    rcases List.mem_append.1 hm with hm | hm
    · exact isValid_of_entryAt? hl n hm
    · rw [List.mem_singleton.1 hm]; exact hn
  split
  · rename_i hr
    rw [hr, List.append_nil]
    exact entryAt?_put_self hv hl e
  · rename_i hr
    obtain ⟨cs, hcs⟩ := entryAt?_eq_directory_iff.1 hl
    have hne : l ++ [name] ≠ [] ∧ ∀ n ∈ l ++ [name], n.IsValid := ⟨by simp, hv⟩
    -- below the new entry is only what the entry itself holds, and that is nothing
    have hput : (Node.put (.ofEntry e) (l ++ [name]) t.root).get? (l ++ [name]) = some (.ofEntry e) :=
      Node.get?_put_self hcs
    rw [entryAt?_eq_none_iff]
    simp only [get?, put, dif_pos hne]
    rw [Node.get?_append, hput]
    exact Node.get?_ofEntry hr e

/-- Where no directory holds it, or under a name that no path can spell, nothing can be put. -/
theorem put_eq_self (h : ¬ (t.entryAt? l = some .directory ∧ name.IsValid)) (e : Entry) :
    t.put (l ++ [name]) e = t := by
  unfold put
  split
  · rename_i hv
    have hl : ∀ cs, t.root.get? l ≠ some (.directory cs) := fun cs hc =>
      h ⟨entryAt?_eq_directory_iff.2 ⟨cs, hc⟩, hv.2 name (by simp)⟩
    obtain ⟨root, hd, hw⟩ := t
    simp [Node.put_of_not_directory hl]
  · rfl

/-- Putting an entry changes nothing, or the entry is there with nothing below it. -/
theorem put_cases (t : Tree) (l : Location) (e : Entry) :
    t.put l e = t ∨ ∀ r, (t.put l e).entryAt? (l ++ r) = if r = [] then some e else none := by
  rcases List.eq_nil_or_concat' l with rfl | ⟨d, name, rfl⟩
  · exact Or.inl (by simp [put])
  · by_cases hput : t.entryAt? d = some .directory ∧ name.IsValid
    · exact Or.inr fun r => entryAt?_put_below hput.1 hput.2 e
    · exact Or.inl (put_eq_self hput e)

theorem entryAt?_erase_self (hl : l ≠ []) : (t.erase l).entryAt? l = none :=
  entryAt?_erase_below hl (List.prefix_refl l)

/-! ### Links -/

/-- A tree without links. -/
def NoLinks (t : Tree) : Prop := ∀ l target, t.entryAt? l ≠ some (.link target)

theorem noLinks_empty : empty.NoLinks := by
  intro l target h
  cases l with
  | nil => simp [entryAt?_root] at h
  | cons a l => simp [entryAt?, get?, empty, Node.get?] at h

theorem NoLinks.put (h : t.NoLinks) (he : ∀ target, e ≠ .link target) (l : Location) : (t.put l e).NoLinks := by
  intro k target hk
  by_cases hl : l <+: k
  · obtain ⟨r, rfl⟩ := hl
    rcases put_cases t l e with hput | hput
    · rw [hput] at hk
      exact h _ target hk
    · rw [hput r] at hk
      split at hk
      · exact he target (Option.some.inj hk)
      · cases hk
  · rw [entryAt?_put hl] at hk
    exact h k target hk

theorem noLinks_ofEntries {es : List (Location × Entry)} (h : ∀ e ∈ es, ∀ target, e.2 ≠ .link target) :
    (ofEntries es).NoLinks := by
  have hfold : ∀ t : Tree, t.NoLinks → (es.foldl (fun t e => t.put e.1 e.2) t).NoLinks := by
    induction es with
    | nil => exact fun _ ht => ht
    | cons x es ih =>
      intro t ht
      exact ih (fun e he => h e (List.mem_cons_of_mem _ he)) _ (ht.put (h x (by simp)) x.1)
  exact hfold _ noLinks_empty

/-! ### Comparing trees -/

/-- Both trees show the same everywhere. -/
def Agrees (t t' : Tree) : Prop := ∀ l, t.entryAt? l = t'.entryAt? l

theorem Agrees.symm (h : t.Agrees t') : t'.Agrees t := fun l => (h l).symm

/-- Nothing of the first tree is missing in the second; only the content of files may differ. -/
def Extends (t t' : Tree) : Prop := ∀ l e, t.entryAt? l = some e → ∃ e', t'.entryAt? l = some e' ∧ e.SameKind e'

theorem Extends.refl (t : Tree) : t.Extends t := fun _ e h => ⟨e, h, .refl e⟩

theorem Extends.trans (h : t.Extends t') (h' : t'.Extends t'') : t.Extends t'' := by
  intro l e he
  obtain ⟨e', he', hk⟩ := h l e he
  obtain ⟨e'', he'', hk'⟩ := h' l e' he'
  exact ⟨e'', he'', hk.trans hk'⟩

theorem Agrees.extends (h : t.Agrees t') : t.Extends t' := fun l e he => ⟨e, by rw [← h l, he], .refl e⟩

theorem Extends.directory (h : t.Extends t') (hl : t.entryAt? l = some .directory) :
    t'.entryAt? l = some .directory := by
  obtain ⟨e', he', hk⟩ := h l _ hl
  cases e' <;> simp_all [Entry.SameKind]

theorem Extends.link (h : t.Extends t') {target : Path} (hl : t.entryAt? l = some (.link target)) :
    t'.entryAt? l = some (.link target) := by
  obtain ⟨e', he', hk⟩ := h l _ hl
  cases e' <;> simp_all [Entry.SameKind]

theorem Extends.file (h : t.Extends t') {content : Bytes} {executable : Bool}
    (hl : t.entryAt? l = some (.file content executable)) :
    ∃ content' executable', t'.entryAt? l = some (.file content' executable') := by
  obtain ⟨e', he', hk⟩ := h l _ hl
  cases e' <;> simp_all [Entry.SameKind]

/-- What is missing in a tree is missing in those that it extends. -/
theorem Extends.eq_none (h : t.Extends t') (hl : t'.entryAt? l = none) : t.entryAt? l = none := by
  cases he : t.entryAt? l with
  | none => rfl
  | some e =>
    obtain ⟨e', he', -⟩ := h l e he
    simp [hl] at he'

theorem NoLinks.of_extends (h : t'.NoLinks) (ht : t.Extends t') : t.NoLinks :=
  fun l target hl => h l target (ht.link hl)

theorem erase_extends (t : Tree) (l : Location) : (t.erase l).Extends t := by
  intro k e he
  by_cases hk : l <+: k
  · by_cases hl : l = []
    · subst hl
      have : (t.erase []).root = t.root := by simp [erase, Node.erase]
      exact ⟨e, by simpa [entryAt?, get?, this] using he, .refl e⟩
    · simp [entryAt?_erase_below hl hk] at he
  · exact ⟨e, by rwa [entryAt?_erase hk] at he, .refl e⟩

/-- A directory that is emptied is still a directory. -/
theorem emptied_extends (h : t.entryAt? l = some .directory) : (t.put l .directory).Extends t := by
  intro k e he
  by_cases hk : l <+: k
  · obtain ⟨r, rfl⟩ := hk
    rcases put_cases t l .directory with hput | hput
    · rw [hput] at he
      exact ⟨e, he, .refl e⟩
    · rw [hput r] at he
      split at he
      · rename_i hr
        obtain rfl := Option.some.inj he
        exact ⟨.directory, by rw [hr, List.append_nil, h], .refl _⟩
      · cases he
  · exact ⟨e, by rwa [entryAt?_put hk] at he, .refl e⟩

/-- Where nothing was, or a file that stays one, putting an entry leaves everything else there. -/
theorem extends_put (h : t.entryAt? l = none ∨
      ∃ c x c' x', t.entryAt? l = some (.file c x) ∧ e = .file c' x') : t.Extends (t.put l e) := by
  intro k ek hek
  by_cases hk : l <+: k
  · obtain ⟨r, rfl⟩ := hk
    rcases h with h | ⟨c, x, c', x', h, rfl⟩
    · simp [entryAt?_append_eq_none h r] at hek
    · by_cases hr : r = []
      · subst hr
        rw [List.append_nil, h, Option.some.injEq] at hek
        subst hek
        rcases put_cases t l (.file c' x') with hput | hput
        · exact ⟨.file c x, by rw [hput, List.append_nil, h], .refl _⟩
        · exact ⟨.file c' x', by simpa using hput [], by simp [Entry.SameKind]⟩
      · have := entryAt?_of_append hr hek
        simp [h] at this
  · exact ⟨ek, by rw [entryAt?_put hk, hek], .refl ek⟩

end Tree

end GradleBuild
