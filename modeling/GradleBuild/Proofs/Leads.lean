import GradleBuild.Proofs.Segments
import GradleBuild.Proofs.Walks

/-!
# Where paths lead

`Leads` follows segments through a tree as a walk does, but through any number of links, and every name that is no link
counts as a directory.  So a path can lead to a place where nothing is yet.  Where it leads is up to the links of the
tree alone.

* `Leads.unique`, `Leads.append`, `Leads.split`: segments lead to one place, piece by piece.
* `Leads.sameLinks`: in a tree with the same links they lead to the same place.
* `Walks.leads`, `Walks.leads_free`: a walk ends where its segments lead, at something or at a free name.
-/

namespace GradleBuild

/-- Both trees have the same links. -/
def Tree.SameLinks (t t' : Tree) : Prop :=
  ∀ l target, t.entryAt? l = some (.link target) ↔ t'.entryAt? l = some (.link target)

theorem Tree.SameLinks.refl (t : Tree) : t.SameLinks t := fun _ _ => Iff.rfl

theorem Tree.SameLinks.symm {t t' : Tree} (h : t.SameLinks t') : t'.SameLinks t := fun l target => (h l target).symm

theorem Tree.SameLinks.trans {t t' t'' : Tree} (h : t.SameLinks t') (h' : t'.SameLinks t'') : t.SameLinks t'' :=
  fun l target => (h l target).trans (h' l target)

namespace Files

inductive Leads (t : Tree) : Location → List Bytes → Location → Prop
  | here {l : Location} : Leads t l [] l
  | idle {l r : Location} {s : Bytes} {rest : List Bytes} : Path.isIdle s = true → Leads t l rest r →
      Leads t l (s :: rest) r
  | up {l r : Location} {rest : List Bytes} : Leads t l.dropLast rest r →
      Leads t l ([Path.dot, Path.dot] :: rest) r
  | enter {l r : Location} {s : Bytes} {rest : List Bytes} : IsPlain s →
      (∀ target, t.entryAt? (l ++ [s]) ≠ some (.link target)) → Leads t (l ++ [s]) rest r → Leads t l (s :: rest) r
  | follow {l r : Location} {s : Bytes} {rest : List Bytes} {target : Path} : IsPlain s →
      t.entryAt? (l ++ [s]) = some (.link target) → Leads t (linkBase l target) (target.segments ++ rest) r →
      Leads t l (s :: rest) r

/-- Where a path leads. -/
def LeadsTo (t : Tree) (cwd : Location) (p : Path) (l : Location) : Prop := Leads t (start cwd p) p.segments l

/-- The places that a path leads through: where it starts, and where its first segments lead. -/
def OnWay (t : Tree) (cwd : Location) (p : Path) (l : Location) : Prop :=
  ∃ xs, xs <+: p.segments ∧ Leads t (start cwd p) xs l

variable {t t' : Tree} {cwd l m r r' : Location} {p a : Path} {s : Bytes} {rest xs ys : List Bytes} {followLast : Bool}
  {links : Nat} {f : Found} {name : Name}

theorem Leads.unique (h : Leads t l xs r) (h' : Leads t l xs r') : r = r' := by
  induction h with
  | here => cases h'; rfl
  | idle hi _ ih =>
    cases h' with
    | idle _ h' => exact ih h'
    | up => exact absurd hi (by decide)
    | enter hs | follow hs => exact absurd hi hs.not_idle
  | up _ ih =>
    cases h' with
    | idle hi => exact absurd hi (by decide)
    | up h' => exact ih h'
    | enter hs | follow hs => exact absurd rfl hs.ne_up
  | enter hs hn _ ih =>
    cases h' with
    | idle hi => exact absurd hi hs.not_idle
    | up => exact absurd rfl hs.ne_up
    | enter _ _ h' => exact ih h'
    | follow _ hn' => exact absurd hn' (hn _)
  | follow hs hn _ ih =>
    cases h' with
    | idle hi => exact absurd hi hs.not_idle
    | up => exact absurd rfl hs.ne_up
    | enter _ hn' => exact absurd hn (hn' _)
    | follow _ hn' h' =>
      rw [hn, Option.some.injEq, Entry.link.injEq] at hn'
      subst hn'
      exact ih h'

theorem Leads.append (h : Leads t l xs m) (h' : Leads t m ys r) : Leads t l (xs ++ ys) r := by
  induction h with
  | here => exact h'
  | idle hi _ ih => exact .idle hi (ih h')
  | up _ ih => exact .up (ih h')
  | enter hs hn _ ih => exact .enter hs hn (ih h')
  | follow hs hn _ ih =>
    have := ih h'
    rw [List.append_assoc] at this
    exact .follow hs hn this

theorem Leads.split (h : Leads t l rest r) (hx : rest = xs ++ ys) : ∃ m, Leads t l xs m ∧ Leads t m ys r := by
  induction h generalizing xs with
  | here =>
    obtain ⟨rfl, rfl⟩ := List.nil_eq_append_iff.1 hx
    exact ⟨_, .here, .here⟩
  | idle hi h ih =>
    rcases xs with _ | ⟨x, xs⟩
    · subst hx
      exact ⟨_, .here, .idle hi h⟩
    · obtain ⟨rfl, hx'⟩ := List.cons.inj hx
      obtain ⟨m, h₁, h₂⟩ := ih hx'
      exact ⟨m, .idle hi h₁, h₂⟩
  | up h ih =>
    rcases xs with _ | ⟨x, xs⟩
    · subst hx
      exact ⟨_, .here, .up h⟩
    · obtain ⟨rfl, hx'⟩ := List.cons.inj hx
      obtain ⟨m, h₁, h₂⟩ := ih hx'
      exact ⟨m, .up h₁, h₂⟩
  | enter hs hn h ih =>
    rcases xs with _ | ⟨x, xs⟩
    · subst hx
      exact ⟨_, .here, .enter hs hn h⟩
    · obtain ⟨rfl, hx'⟩ := List.cons.inj hx
      obtain ⟨m, h₁, h₂⟩ := ih hx'
      exact ⟨m, .enter hs hn h₁, h₂⟩
  | follow hs hn h ih =>
    rcases xs with _ | ⟨x, xs⟩
    · subst hx
      exact ⟨_, .here, .follow hs hn h⟩
    · obtain ⟨rfl, rfl⟩ := List.cons.inj hx
      obtain ⟨m, h₁, h₂⟩ := ih (List.append_assoc ..).symm
      exact ⟨m, .follow hs hn h₁, h₂⟩

/-- Only the links of a tree matter. -/
theorem Leads.sameLinks (ht : t.SameLinks t') (h : Leads t l xs r) : Leads t' l xs r := by
  induction h with
  | here => exact .here
  | idle hi _ ih => exact .idle hi ih
  | up _ ih => exact .up ih
  | enter hs hn _ ih => exact .enter hs (fun target hl => hn target ((ht _ _).2 hl)) ih
  | follow hs hn _ ih => exact .follow hs ((ht _ _).1 hn) ih

theorem leads_idle (h : ∀ e ∈ xs, Path.isIdle e = true) : Leads t l xs l := by
  induction xs with
  | nil => exact .here
  | cons x xs ih => exact .idle (h x (by simp)) (ih fun e he => h e (List.mem_cons_of_mem _ he))

/-- Idle segments at the end lead nowhere else. -/
theorem leads_append_idle_iff (hy : ∀ e ∈ ys, Path.isIdle e = true) : Leads t l (xs ++ ys) r ↔ Leads t l xs r := by
  refine ⟨fun h => ?_, fun h => h.append (leads_idle hy)⟩
  obtain ⟨m, h₁, h₂⟩ := h.split rfl
  rwa [(leads_idle hy).unique h₂] at h₁

/-- Where segments lead by their names alone. -/
def lexical : Location → List Bytes → Location
  | l, [] => l
  | l, s :: rest =>
    if Path.isIdle s then lexical l rest
    else if s = [Path.dot, Path.dot] then lexical l.dropLast rest
    else lexical (l ++ [s]) rest

/-- Without links, names alone decide. -/
theorem leads_lexical (ht : t.NoLinks) (l : Location) (xs : List Bytes) : Leads t l xs (lexical l xs) := by
  induction xs generalizing l with
  | nil => exact .here
  | cons s xs ih =>
    unfold lexical
    split
    · rename_i hi
      exact .idle hi (ih l)
    · split
      · rename_i hs
        rw [hs]
        exact .up (ih l.dropLast)
      · rename_i hi hs
        exact .enter ⟨by simpa using hi, hs⟩ (ht _) (ih (l ++ [s]))

theorem Leads.eq_lexical (ht : t.NoLinks) (h : Leads t l xs r) : r = lexical l xs := h.unique (leads_lexical ht l xs)

/-! ### Walks end where segments lead -/

private theorem not_link_of_get? {n : Node} (h : t.get? l = some n) (hn : ∀ target, n ≠ .link target) (target : Path) :
    t.entryAt? l ≠ some (.link target) := by
  intro hl
  rw [Tree.entryAt?_eq_link_iff, h, Option.some.injEq] at hl
  exact hn target hl

theorem Walks.leads {n : Node} (h : Walks t followLast links l xs f) (hf : f = .present r n)
    (hn : followLast = true ∨ ∀ target, n ≠ .link target) : Leads t l xs r := by
  induction h with
  | here => cases hf; exact .here
  | idle hi _ ih => exact .idle hi (ih hf)
  | up _ ih => exact .up (ih hf)
  | missing => simp at hf
  | enter hs _ hd _ ih => exact .enter hs (not_link_of_get? hd (by simp)) (ih hf)
  | file hs _ hd =>
    cases hf
    exact .enter hs (not_link_of_get? hd (by simp)) .here
  | stay hfl _ _ _ =>
    cases hf
    simp [hfl] at hn
  | follow _ hs _ hd _ ih => exact .follow hs (Tree.entryAt?_eq_link_iff.2 hd) (ih hf)

theorem Walks.leads_free {slashed : Bool} (h : Walks t followLast links l xs f) (hf : f = .absent r name slashed) :
    Leads t l xs (r ++ [name]) := by
  induction h with
  | here => simp at hf
  | idle hi _ ih => exact .idle hi (ih hf)
  | up _ ih => exact .up (ih hf)
  | missing hs _ _ hn hall =>
    cases hf
    refine .enter hs (fun target hl => ?_) (leads_idle fun e he => ?_)
    · rw [Tree.entryAt?_eq_link_iff, hn] at hl
      simp at hl
    · simp [Path.isIdle, List.all_eq_true.1 hall e he]
  | enter hs _ hd _ ih => exact .enter hs (not_link_of_get? hd (by simp)) (ih hf)
  | file => simp at hf
  | stay => simp at hf
  | follow _ hs _ hd _ ih => exact .follow hs (Tree.entryAt?_eq_link_iff.2 hd) (ih hf)

/-- What a path names is where it leads, unless that is a link that was not to be followed. -/
theorem stat_leadsTo {n : Node} (h : stat t cwd p followLast = .ok (l, n))
    (hn : followLast = true ∨ ∀ target, n ≠ .link target) : LeadsTo t cwd p l :=
  (find_eq_ok_iff.1 (stat_eq_ok_iff.1 h)).2.2.leads rfl hn

/-! ### The places on the way -/

theorem OnWay.sameLinks (ht : t.SameLinks t') (h : OnWay t cwd p l) : OnWay t' cwd p l := by
  obtain ⟨xs, hxs, h⟩ := h
  exact ⟨xs, hxs, h.sameLinks ht⟩

/-- An ancestor of a path leads to a place on the way of the path. -/
theorem onWay_of_mem_ancestors (ha : a ∈ p.ancestors) (h : LeadsTo t cwd a l) : OnWay t cwd p l := by
  obtain ⟨xs, es, hxs, hes, hseg⟩ := Path.heads_of_mem_ancestors ha
  refine ⟨xs, hxs, ?_⟩
  have hstart : start cwd a = start cwd p := by unfold start; rw [Path.isAbsolute_of_mem_ancestors ha]
  rw [← hstart, ← leads_append_idle_iff hes, ← hseg]
  exact h

/-- A name joined to a path leads one step further. -/
theorem leadsTo_join (hv : name.IsValid) (h : LeadsTo t cwd p l)
    (hn : ∀ target, t.entryAt? (l ++ [name]) ≠ some (.link target)) : LeadsTo t cwd (p.join ⟨name⟩) (l ++ [name]) := by
  obtain ⟨xs, es, hes, hp, hj⟩ := Path.segments_join p hv
  have hstart : start cwd (p.join ⟨name⟩) = start cwd p := by unfold start; rw [Path.isAbsolute_join_name p hv]
  unfold LeadsTo at h ⊢
  rw [hp, leads_append_idle_iff hes] at h
  rw [hj, hstart]
  have hs : IsPlain name := ⟨by simp [Path.isIdle, hv.1, hv.2.1], hv.2.2.1⟩
  exact h.append (.enter hs hn .here)

/-- From where a path leads, a name joined to it leads on. -/
theorem leads_of_join (hv : name.IsValid) (h : LeadsTo t cwd p l) (h' : LeadsTo t cwd (p.join ⟨name⟩) r) :
    Leads t l [name] r := by
  obtain ⟨xs, es, hes, hp, hj⟩ := Path.segments_join p hv
  have hstart : start cwd (p.join ⟨name⟩) = start cwd p := by unfold start; rw [Path.isAbsolute_join_name p hv]
  unfold LeadsTo at h h'
  rw [hp, leads_append_idle_iff hes] at h
  rw [hj, hstart] at h'
  obtain ⟨m, hm, hname⟩ := h'.split rfl
  rwa [hm.unique h] at hname

/-- One name leads to its place, or on along a link. -/
theorem Leads.name_cases (hv : name.IsValid) (h : Leads t l [name] r) :
    r = l ++ [name] ∨ ∃ target, t.entryAt? (l ++ [name]) = some (.link target) ∧
      Leads t (linkBase l target) target.segments r := by
  cases h with
  | idle hi => exact absurd hi (by simp [Path.isIdle, hv.1, hv.2.1])
  | up => exact absurd rfl hv.2.2.1
  | enter _ _ hend =>
    cases hend
    exact Or.inl rfl
  | follow _ hlink hrest =>
    rw [List.append_nil] at hrest
    exact Or.inr ⟨_, hlink, hrest⟩

/-- The way of a joined path is that of the path, and where the joined path itself leads. -/
theorem onWay_join (hv : name.IsValid) (h : OnWay t cwd (p.join ⟨name⟩) l) :
    OnWay t cwd p l ∨ LeadsTo t cwd (p.join ⟨name⟩) l := by
  obtain ⟨xs, es, -, hp, hj⟩ := Path.segments_join p hv
  have hstart : start cwd (p.join ⟨name⟩) = start cwd p := by unfold start; rw [Path.isAbsolute_join_name p hv]
  obtain ⟨zs, hzs, h⟩ := h
  rw [hj, List.prefix_concat_iff] at hzs
  rcases hzs with rfl | hzs
  · right
    unfold LeadsTo
    rwa [hj]
  · left
    rw [hstart] at h
    exact ⟨zs, hzs.trans ⟨es, hp.symm⟩, h⟩

end Files

end GradleBuild
