import GradleBuild.Proofs.Effects
import GradleBuild.Proofs.Leads

/-!
# What creating does

Creating directories and files makes a tree grow: nothing goes away, no link appears, and what is new or overwritten is
where it was to be created.  `Grows K` says this with the places `K` that may change.

* `createDirectories_grows`: only places on the way of the path, where nothing was, change.
* `createDirectories_ok`: without an error, the directory is there.
* `createFile_cases`: a file is created or emptied where its path leads.
-/

namespace GradleBuild

namespace Tree

/-- Something has been added to a tree, or files of it rewritten, at places `K` only. -/
structure Grows (K : Location → Prop) (t t' : Tree) : Prop where
  kept : t.Extends t'
  sameLinks : t.SameLinks t'
  only : ∀ k, t'.entryAt? k ≠ t.entryAt? k → K k

variable {K K' : Location → Prop} {t t' t'' : Tree} {l k : Location} {e : Entry}

theorem Grows.refl (K : Location → Prop) (t : Tree) : t.Grows K t := ⟨.refl t, .refl t, fun _ h => absurd rfl h⟩

theorem Grows.trans (h : t.Grows K t') (h' : t'.Grows K t'') : t.Grows K t'' := by
  refine ⟨h.kept.trans h'.kept, h.sameLinks.trans h'.sameLinks, fun k hk => ?_⟩
  by_cases he : t'.entryAt? k = t.entryAt? k
  · exact h'.only k (by rwa [he])
  · exact h.only k he

theorem Grows.mono (hK : ∀ k, K k → K' k) (h : t.Grows K t') : t.Grows K' t' :=
  ⟨h.kept, h.sameLinks, fun k hk => hK k (h.only k hk)⟩

/-- Places that may not change show what they showed. -/
theorem Grows.eq (h : t.Grows K t') (hk : ¬ K k) : t'.entryAt? k = t.entryAt? k := by
  by_contra hne
  exact hk (h.only k hne)

/-- What stands at a place where a file can be created: nothing, or another file. -/
def Writable (t : Tree) (l : Location) : Prop := t.entryAt? l = none ∨ ∃ c x, t.entryAt? l = some (.file c x)

/-- Where nothing or only a file is, nothing is below either. -/
theorem entryAt?_below_writable (h : t.Writable l) {r : Location} (hr : r ≠ []) : t.entryAt? (l ++ r) = none := by
  rcases h with h | ⟨c, x, h⟩
  · exact entryAt?_append_eq_none h r
  · cases he : t.entryAt? (l ++ r) with
    | none => rfl
    | some e => simp [entryAt?_of_append hr he] at h

/-- What is put where nothing or only a file is changes that place alone. -/
theorem put_only (h : t.Writable l) (hk : (t.put l e).entryAt? k ≠ t.entryAt? k) : k = l := by
  by_cases hl : l <+: k
  · obtain ⟨r, rfl⟩ := hl
    by_contra hne
    have hr : r ≠ [] := fun hr => hne (by simp [hr])
    rcases put_cases t l e with hput | hput
    · rw [hput] at hk
      exact hk rfl
    · rw [hput r, if_neg hr, entryAt?_below_writable h hr] at hk
      exact hk rfl
  · exact absurd (entryAt?_put hl e) hk

/-- What is put, and makes a difference, is there. -/
theorem put_ne (hk : (t.put l e).entryAt? k ≠ t.entryAt? k) : (t.put l e).entryAt? l = some e := by
  rcases put_cases t l e with hput | hput
  · rw [hput] at hk
    exact absurd rfl hk
  · simpa using hput []

private theorem put_sameLinks (h : t.Writable l) (he : ∀ target, e ≠ .link target) : t.SameLinks (t.put l e) := by
  intro k target
  by_cases hk : (t.put l e).entryAt? k = t.entryAt? k
  · rw [hk]
  · obtain rfl := put_only h hk
    constructor
    · intro hl
      rcases h with h | ⟨c, x, h⟩ <;> simp [h] at hl
    · intro hl
      rw [put_ne hk, Option.some.injEq] at hl
      exact absurd hl (he target)

/-- A directory made where nothing is. -/
theorem grows_put_directory (h : t.entryAt? l = none) (hK : K l) : t.Grows K (t.put l .directory) :=
  ⟨extends_put (Or.inl h), put_sameLinks (Or.inl h) (by simp), fun _ hk => put_only (Or.inl h) hk ▸ hK⟩

/-- A file written where nothing is, or another file. -/
theorem grows_put_file (h : t.Writable l) (hK : K l) (c : Bytes) (x : Bool) : t.Grows K (t.put l (.file c x)) := by
  refine ⟨extends_put ?_, put_sameLinks h (by simp), fun _ hk => put_only h hk ▸ hK⟩
  rcases h with h | ⟨c', x', h⟩
  · exact Or.inl h
  · exact Or.inr ⟨c', x', c, x, h, rfl⟩

/-- A place for a file stays one when a file is written there. -/
theorem writable_put (h : t.Writable l) (c : Bytes) (x : Bool) : (t.put l (.file c x)).Writable l := by
  rcases put_cases t l (.file c x) with hput | hput
  · rwa [hput]
  · exact Or.inr ⟨c, x, by simpa using hput []⟩

end Tree

namespace Files

variable {K : Location → Prop} {t t' : Tree} {cwd l k b : Location} {p : Path} {ps : List Path} {r : Except Fault Unit}

theorem LeadsTo.sameLinks (ht : t.SameLinks t') (h : LeadsTo t cwd p l) : LeadsTo t' cwd p l := Leads.sameLinks ht h

/-- Where a place for something new is free, its path leads there. -/
theorem findPlace_free {d : Location} {name : Name} {slashed : Bool}
    (h : findPlace t cwd p = .ok (.absent d name slashed)) :
    LeadsTo t cwd p (d ++ [name]) ∧ t.entryAt? d = some .directory ∧ t.entryAt? (d ++ [name]) = none ∧
      IsPlain name ∧ name.length ≤ Name.longest := by
  obtain ⟨-, -, hw⟩ := findPlace_eq_ok_iff.1 h
  obtain ⟨es, hes, hp⟩ := Path.segments_trimmed p
  refine ⟨?_, hw.free rfl⟩
  unfold LeadsTo
  rw [hp, leads_append_idle_iff hes]
  exact hw.leads_free rfl

/-- A directory is made under a free name, or nothing is. -/
theorem makeDirectory_cases (cwd : Location) (p : Path) (t : Tree) :
    (∃ d name slashed, findPlace t cwd p = .ok (.absent d name slashed) ∧
      makeDirectory cwd p t = (.ok (), t.put (d ++ [name]) .directory)) ∨
    ∃ e, makeDirectory cwd p t = (.error e, t) := by
  unfold makeDirectory
  rcases hf : findPlace t cwd p with e | f
  · exact Or.inr ⟨e, query_bind_error hf⟩
  · rw [query_bind_ok hf]
    cases f with
    | present => exact Or.inr ⟨.alreadyExists, rfl⟩
    | absent d name slashed => exact Or.inl ⟨d, name, slashed, rfl, rfl⟩

theorem makeDirectory_error {e : Fault} (h : makeDirectory cwd p t = (.error e, t')) : t' = t := by
  rcases makeDirectory_cases cwd p t with ⟨_, _, _, -, hm⟩ | ⟨_, hm⟩
  · rw [hm] at h
    cases h
  · rw [hm] at h
    exact (Prod.mk.inj h).2.symm

theorem makeDirectory_ok (h : makeDirectory cwd p t = (.ok (), t')) :
    ∃ d name slashed, findPlace t cwd p = .ok (.absent d name slashed) ∧ t' = t.put (d ++ [name]) .directory := by
  rcases makeDirectory_cases cwd p t with ⟨d, name, slashed, hf, hm⟩ | ⟨_, hm⟩
  · rw [hm] at h
    exact ⟨d, name, slashed, hf, (Prod.mk.inj h).2.symm⟩
  · rw [hm] at h
    cases h

/-- Making a directory ends with one that is found there, or with one that is made, perhaps after those above it. -/
theorem makeDirectoryBelow_cases {above : Unit → FileAction Fault Unit}
    (h : makeDirectoryBelow cwd p above t = (r, t')) : ∃ t₁, (t₁ = t ∨ ∃ r₁, above () t = (r₁, t₁)) ∧
      (t' = t₁ ∧ (r = .ok () → isDirectory t' cwd p = true) ∨ makeDirectory cwd p t₁ = (.ok (), t') ∧ r = .ok ()) := by
  -- a fault is forgiven if a directory is there already
  have hthere : ∀ {e : Fault} {t₁ : Tree},
      (do if e = .alreadyExists ∧ isDirectory (← get) cwd p then pure () else throw e : FileAction Fault Unit) t₁ =
        (r, t') → t' = t₁ ∧ (r = .ok () → isDirectory t' cwd p = true) := by
    intro e t₁ h
    rw [bind_apply_ok (get_apply t₁)] at h
    split at h
    · rename_i hd
      obtain ⟨rfl, rfl⟩ := Prod.mk.inj h
      exact ⟨rfl, fun _ => hd.2⟩
    · obtain ⟨rfl, rfl⟩ := Prod.mk.inj h
      exact ⟨rfl, by simp⟩
  unfold makeDirectoryBelow at h
  rcases of_tryCatch h with ⟨u, hm, rfl⟩ | ⟨e, t₁, hm, hcatch⟩
  · exact ⟨t, Or.inl rfl, Or.inr ⟨hm, rfl⟩⟩
  rw [makeDirectory_error hm] at hcatch
  by_cases he : e = .noEntry
  · rw [if_pos he] at hcatch
    rcases of_bind hcatch with ⟨u, t₂, habove, hagain⟩ | ⟨e', habove, rfl⟩
    · refine ⟨t₂, Or.inr ⟨_, habove⟩, ?_⟩
      rcases of_tryCatch hagain with ⟨u, hm', rfl⟩ | ⟨e', t₃, hm', hcatch'⟩
      · exact Or.inr ⟨hm', rfl⟩
      · rw [makeDirectory_error hm'] at hcatch'
        exact Or.inl (hthere hcatch')
    · exact ⟨t', Or.inr ⟨_, habove⟩, Or.inl ⟨rfl, by simp⟩⟩
  · rw [if_neg he] at hcatch
    exact ⟨t, Or.inl rfl, Or.inl (hthere hcatch)⟩

/-- At all free places where the paths lead, something may change. -/
def MayMake (K : Location → Prop) (t : Tree) (cwd : Location) (ps : List Path) : Prop :=
  ∀ a ∈ ps, ∀ k, LeadsTo t cwd a k → t.entryAt? k = none → K k

theorem MayMake.grows {K' : Location → Prop} (h : MayMake K t cwd ps) (ht : t.Grows K' t') : MayMake K t' cwd ps :=
  fun a ha k hk hn => h a ha k (hk.sameLinks ht.sameLinks.symm) (ht.kept.eq_none hn)

private theorem makeDirectory_grows (h : MayMake K t cwd (p :: ps)) (hm : makeDirectory cwd p t = (.ok (), t')) :
    t.Grows K t' := by
  obtain ⟨d, name, _, hf, rfl⟩ := makeDirectory_ok hm
  obtain ⟨hl, -, hn, -⟩ := findPlace_free hf
  exact Tree.grows_put_directory hn (h p (by simp) _ hl hn)

private theorem makeDirectoryBelow_grows {above : Unit → FileAction Fault Unit} (h : MayMake K t cwd (p :: ps))
    (habove : ∀ r₁ t₁, above () t = (r₁, t₁) → t.Grows K t₁) (hm : makeDirectoryBelow cwd p above t = (r, t')) :
    t.Grows K t' := by
  obtain ⟨t₁, ht₁, hcases⟩ := makeDirectoryBelow_cases hm
  have hgrows : t.Grows K t₁ := by
    rcases ht₁ with rfl | ⟨r₁, h₁⟩
    · exact .refl K _
    · exact habove r₁ t₁ h₁
  rcases hcases with ⟨rfl, -⟩ | ⟨hm', -⟩
  · exact hgrows
  · exact hgrows.trans (makeDirectory_grows (h.grows hgrows) hm')

theorem createFirst_grows (h : MayMake K t cwd ps) (hm : createFirst cwd ps t = (r, t')) : t.Grows K t' := by
  induction ps generalizing r t' with
  | nil =>
    obtain ⟨-, rfl⟩ := Prod.mk.inj hm
    exact .refl K t
  | cons p ps ih =>
    unfold createFirst at hm
    split at hm
    · obtain ⟨-, rfl⟩ := Prod.mk.inj hm
      exact .refl K t
    · exact makeDirectoryBelow_grows h
        (fun r₁ t₁ h₁ => ih (fun a ha => h a (List.mem_cons_of_mem _ ha)) h₁) hm

/-- Creating a directory with those above it changes free places on the way of its path only. -/
theorem createDirectories_grows (hK : ∀ k, OnWay t cwd p k → t.entryAt? k = none → K k)
    (h : createDirectories cwd p t = (r, t')) : t.Grows K t' := by
  have hmay : MayMake K t cwd p.ancestors := fun a ha k hl hn => hK k (onWay_of_mem_ancestors ha hl) hn
  unfold createDirectories at h
  split at h
  · obtain ⟨-, rfl⟩ := Prod.mk.inj h
    exact .refl K t
  · refine makeDirectoryBelow_grows hmay (fun r₁ t₁ h₁ => ?_) h
    exact createFirst_grows (fun a ha => hmay a (List.mem_of_mem_tail ha)) h₁

/-- Without an error, the path leads somewhere, and there is a directory. -/
theorem createDirectories_ok (h : createDirectories cwd p t = (.ok (), t')) :
    ∃ l, LeadsTo t cwd p l ∧ ((∀ n ∈ l, Path.slash ∉ n ∧ 0 ∉ n) → t.entryAt? (start cwd p) = some .directory →
      t'.entryAt? l = some .directory) := by
  have hgrows {t₁ : Tree} {ps : List Path} {r₁ : Except Fault Unit} (h₁ : createFirst cwd ps t = (r₁, t₁)) :
      t.Grows (fun _ => True) t₁ := createFirst_grows (fun _ _ _ _ _ => trivial) h₁
  unfold createDirectories at h
  split at h
  · rename_i hparts
    obtain ⟨-, rfl⟩ := Prod.mk.inj h
    refine ⟨start cwd p, leads_idle ?_, fun _ hs => hs⟩
    rcases Path.idle_of_parts hparts with hp | ⟨-, hp⟩
    · simp [Path.segments, hp, pieces, Path.isIdle]
    · exact hp
  · obtain ⟨t₁, ht₁, hcases⟩ := makeDirectoryBelow_cases h
    have hlinks : t.SameLinks t₁ := by
      rcases ht₁ with rfl | ⟨r₁, h₁⟩
      · exact .refl _
      · exact (hgrows h₁).sameLinks
    -- the directory was there, or it is made now, at a free place where the path leads
    rcases hcases with ⟨rfl, hd⟩ | ⟨hm, -⟩
    · obtain ⟨l, cs, hstat⟩ := isDirectory_iff.1 (hd rfl)
      exact ⟨l, (stat_leadsTo hstat (Or.inl rfl)).sameLinks hlinks.symm, fun _ _ =>
        Tree.entryAt?_eq_directory_iff.2 ⟨cs, stat_get? hstat⟩⟩
    · obtain ⟨d, name, _, hf, rfl⟩ := makeDirectory_ok hm
      obtain ⟨hl, hd, -, hs, hle⟩ := findPlace_free hf
      refine ⟨d ++ [name], hl.sameLinks hlinks.symm, fun hv _ => ?_⟩
      have hnew := Tree.entryAt?_put_below (r := []) hd (hs.isValid hle (hv name (by simp))) .directory
      simpa using hnew

/-! ### Files -/

/-- A file is created or emptied where its path leads, or nothing is done. -/
theorem createFile_cases (cwd : Location) (p : Path) (t : Tree) :
    (∃ l x, LeadsTo t cwd p l ∧ t.Writable l ∧ createFile cwd p t = (.ok l, t.put l (.file [] x))) ∨
    ∃ e, createFile cwd p t = (.error e, t) := by
  unfold createFile
  rcases hf : find t cwd p true with e | f
  · exact Or.inr ⟨e, query_bind_error hf⟩
  · obtain ⟨-, -, hw⟩ := find_eq_ok_iff.1 hf
    rw [query_bind_ok hf]
    cases f with
    | present l n =>
      cases n with
      | file c x =>
        exact Or.inl ⟨l, x, hw.leads rfl (Or.inl rfl),
          Or.inr ⟨c, x, Tree.entryAt?_eq_file_iff.2 (hw.get?_eq rfl)⟩, rfl⟩
      | directory | link => exact Or.inr ⟨.isDirectory, rfl⟩
    | absent d name slashed =>
      cases slashed with
      | true => exact Or.inr ⟨.isDirectory, rfl⟩
      | false => exact Or.inl ⟨d ++ [name], false, hw.leads_free rfl, Or.inl (hw.free rfl).2.1, rfl⟩

end Files

end GradleBuild
