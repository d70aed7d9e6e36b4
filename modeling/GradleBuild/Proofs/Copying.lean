import GradleBuild.Files.Copy
import GradleBuild.Proofs.Creation

/-!
# What copying changes

A copy goes down two trees at once: at each step one path leads to the source and another to its counterpart below the
target.  `Room` collects what holds at each step, so that the tree grows only where it may.

* `copyFile_cases`: a file is copied to where the target leads, or nothing is done.
* `copyDirectory_grows`: whatever comes of a copy, the tree grows, and only where there is room.
* `copyLevels_inside`: a copy into the source itself never comes to a good end.
-/

namespace GradleBuild.Files

variable {K K' : Location → Prop} {t t₁ t' : Tree} {cwd a b l : Location} {source target p : Path} {name : Name}
  {entries : List (Name × Bool)} {stats : CopyStats} {r : Except Cause CopyStats}

theorem onPath_apply {α : Type} (p : Path) (act : FileAction Fault α) (t : Tree) :
    onPath p act t = ((act t).1.mapError fun fault => .fileFault p.display fault, (act t).2) := adapt_apply _ t

theorem onPath_apply_ok {α : Type} {act : FileAction Fault α} {x : α} (h : act t = (.ok x, t')) :
    onPath p act t = (.ok x, t') := by
  rw [onPath_apply, h]
  rfl

theorem of_onPath_ok {α : Type} {act : FileAction Fault α} {x : α} (h : onPath p act t = (.ok x, t')) :
    act t = (.ok x, t') := by
  rw [onPath_apply] at h
  obtain ⟨hr, rfl⟩ := Prod.mk.inj h
  exact Prod.ext (mapError_eq_ok.1 hr) rfl

theorem of_onPath {α : Type} {act : FileAction Fault α} {r : Except Cause α} (h : onPath p act t = (r, t')) :
    ∃ r₁, act t = (r₁, t') ∧ ∀ x, r = .ok x → r₁ = .ok x := by
  rw [onPath_apply] at h
  obtain ⟨rfl, rfl⟩ := Prod.mk.inj h
  exact ⟨_, rfl, fun x hx => mapError_eq_ok.1 hx⟩

/-- An error that is reported names its path. -/
theorem of_onPath_error {α : Type} {act : FileAction Fault α} {c : Cause} (h : onPath p act t = (.error c, t')) :
    ∃ fault, c = .fileFault p.display fault := by
  rw [onPath_apply] at h
  obtain ⟨hr, -⟩ := Prod.mk.inj h
  cases hact : (act t).1 with
  | ok => simp [hact, Except.mapError] at hr
  | error fault => exact ⟨fault, by simpa [hact, Except.mapError, eq_comm] using hr⟩

/-- Listing looks at the directory that the path leads to. -/
theorem list_ok (h : list cwd p t = (.ok entries, t')) : t' = t ∧ ∃ a cs, stat t cwd p true = .ok (a, .directory cs) ∧
    entries = cs.map fun (name, n) => (name, n.isDirectory) := by
  unfold list at h
  obtain ⟨⟨a, n⟩, t₁, hq, h⟩ := of_bind_ok h
  rw [query_apply] at hq
  obtain ⟨hstat, rfl⟩ := Prod.mk.inj hq
  cases n with
  | directory cs =>
    obtain ⟨he, rfl⟩ := Prod.mk.inj h
    exact ⟨rfl, a, cs, hstat, (Except.ok.inj he).symm⟩
  | file | link => cases h

theorem list_apply_ok {cs : List (Name × Node)} (h : stat t cwd p true = .ok (a, .directory cs)) :
    list cwd p t = (.ok (cs.map fun (name, n) => (name, n.isDirectory)), t) := by
  unfold list
  rw [query_bind_ok h]
  rfl

theorem list_tree (cwd : Location) (p : Path) (t : Tree) : (list cwd p t).2 = t := by
  unfold list
  rcases hstat : stat t cwd p true with e | ⟨a, n⟩
  · rw [query_bind_error hstat]
  · rw [query_bind_ok hstat]
    cases n <;> rfl

theorem list_cases {r : Except Fault (List (Name × Bool))} (h : list cwd p t = (r, t')) : t' = t ∧ ∀ es, r = .ok es →
    ∃ a cs, stat t cwd p true = .ok (a, .directory cs) ∧ es = cs.map fun (name, n) => (name, n.isDirectory) := by
  have htree := list_tree cwd p t
  rw [h] at htree
  refine ⟨htree, fun es hes => ?_⟩
  rw [hes] at h
  exact (list_ok h).2

/-- A file is copied to where the target leads, or nothing is done.  It is read once the target is emptied. -/
theorem copyFile_cases (cwd : Location) (source target : Path) (t : Tree) :
    (∃ s c x l y, stat t cwd source true = .ok (s, .file c x) ∧ LeadsTo t cwd target l ∧ t.Writable l ∧
      copyFile cwd source target t = (.ok (),
        match (t.put l (.file [] y)).entryAt? s with
        | some (.file content _) => (t.put l (.file [] y)).put l (.file content x)
        | _ => t.put l (.file [] y))) ∨
    ∃ e, copyFile cwd source target t = (.error e, t) := by
  unfold copyFile
  rcases hstat : stat t cwd source true with e | ⟨s, n⟩
  · exact Or.inr ⟨e, query_bind_error hstat⟩
  · rw [query_bind_ok hstat]
    cases n with
    | file c x =>
      rcases createFile_cases cwd target t with ⟨l, y, hl, hw, hcreate⟩ | ⟨e, hcreate⟩
      · refine Or.inl ⟨s, c, x, l, y, rfl, hl, hw, ?_⟩
        dsimp only
        rw [bind_apply_ok hcreate, bind_apply_ok (get_apply _)]
        rcases (t.put l (.file [] y)).entryAt? s with _ | (_ | _ | _) <;> rfl
      · exact Or.inr ⟨e, bind_apply_error hcreate⟩
    | directory | link => exact Or.inr ⟨.notRegular, rfl⟩

/-! ### The frame -/

/-- What holds where a copy has come to: the paths lead to `a` and `b`, and what a copy from there can write, it may. -/
structure Room (K : Location → Prop) (t : Tree) (cwd : Location) (source target : Path) (a b : Location) : Prop where
  sourceAt : LeadsTo t cwd source a
  targetAt : LeadsTo t cwd target b
  way : ∀ k, OnWay t cwd target k → t.entryAt? k = none → K k
  counterpart : ∀ t', t.Grows K t' → ∀ l name, t'.entryAt? (a ++ l ++ [name]) ≠ none → K (b ++ l ++ [name])
  noLinks : ∀ l q, t.entryAt? (b ++ l) ≠ some (.link q)

namespace Room

theorem grows (h : Room K t cwd source target a b) (ht : t.Grows K t') : Room K t' cwd source target a b where
  sourceAt := h.sourceAt.sameLinks ht.sameLinks
  targetAt := h.targetAt.sameLinks ht.sameLinks
  way k hk hn := h.way k (hk.sameLinks ht.sameLinks.symm) (ht.kept.eq_none hn)
  counterpart t'' ht' := h.counterpart t'' (ht.trans ht')
  noLinks l q hl := h.noLinks l q ((ht.sameLinks _ _).2 hl)

theorem leadsTo_join (h : Room K t cwd source target a b) (hv : name.IsValid) :
    LeadsTo t cwd (target.join ⟨name⟩) (b ++ [name]) :=
  Files.leadsTo_join hv h.targetAt (h.noLinks [name])

/-- There is as much room one step further down. -/
theorem join (h : Room K t cwd source target a b) (hd : t.entryAt? (a ++ [name]) = some .directory) :
    Room K t cwd (source.join ⟨name⟩) (target.join ⟨name⟩) (a ++ [name]) (b ++ [name]) := by
  have hv : name.IsValid := Tree.isValid_of_entryAt? hd name (by simp)
  have htarget := h.leadsTo_join hv
  refine ⟨Files.leadsTo_join hv h.sourceAt (by simp [hd]), htarget, fun k hk hn => ?_, fun t' ht l n hn => ?_,
    fun l q => ?_⟩
  · rcases onWay_join hv hk with hk | hk
    · exact h.way k hk hn
    · rw [hk.unique htarget]
      simpa using h.counterpart t (.refl K t) [] name (by simp [hd])
  · rw [List.append_assoc a, List.append_assoc a] at hn
    rw [List.append_assoc b, List.append_assoc b]
    simpa using h.counterpart t' ht (name :: l) n (by simpa using hn)
  · rw [List.append_assoc]
    exact h.noLinks _ q

end Room

private theorem copyFile_grows (h : Room K t cwd source target a b) (hn : t.entryAt? (a ++ [name]) ≠ none) :
    t.Grows K (copyFile cwd (source.join ⟨name⟩) (target.join ⟨name⟩) t).2 := by
  obtain ⟨e, he⟩ := Option.ne_none_iff_exists'.1 hn
  have hv : name.IsValid := Tree.isValid_of_entryAt? he name (by simp)
  rcases copyFile_cases cwd (source.join ⟨name⟩) (target.join ⟨name⟩) t with
    ⟨s, c, x, l, y, -, hl, hw, hcopy⟩ | ⟨_, hcopy⟩
  · have hK : K l := by
      rw [hl.unique (h.leadsTo_join hv)]
      simpa using h.counterpart t (.refl K t) [] name (by simp [he])
    have hempty := Tree.grows_put_file hw hK [] y
    rw [hcopy]
    dsimp only
    split
    · exact hempty.trans (Tree.grows_put_file (Tree.writable_put hw [] y) hK _ _)
    · exact hempty
  · rw [hcopy]
    exact .refl K t

/-- The entries of a list are in the directory at `a`, and those that are said to be are directories. -/
def Listed (t : Tree) (a : Location) (entries : List (Name × Bool)) : Prop :=
  ∀ e ∈ entries, t.entryAt? (a ++ [e.1]) ≠ none ∧ (e.2 = true ↔ t.entryAt? (a ++ [e.1]) = some .directory)

theorem Listed.tail {e : Name × Bool} (h : Listed t a (e :: entries)) : Listed t a entries :=
  fun e' he => h e' (List.mem_cons_of_mem _ he)

theorem Listed.extends (h : Listed t a entries) (ht : t.Extends t') : Listed t' a entries := by
  intro e he
  obtain ⟨hn, hd⟩ := h e he
  obtain ⟨n, hn'⟩ := Option.ne_none_iff_exists'.1 hn
  obtain ⟨n', hn'', hkind⟩ := ht _ _ hn'
  refine ⟨by simp [hn''], hd.trans ⟨ht.directory, fun hdir => ?_⟩⟩
  rw [hn'', Option.some.injEq] at hdir
  subst hdir
  cases n <;> simp_all [Entry.SameKind]

theorem listed_of_stat {cs : List (Name × Node)} (h : stat t cwd p true = .ok (a, .directory cs)) :
    Listed t a (cs.map fun (name, n) => (name, n.isDirectory)) := by
  intro e he
  obtain ⟨⟨name, n⟩, hc, rfl⟩ := List.mem_map.1 he
  have hget := (Tree.mem_children_iff (stat_get? h)).1 hc
  refine ⟨by simp [Tree.entryAt?, hget], ?_⟩
  simp only [Tree.entryAt?, hget, Option.map_some]
  cases n <;> simp [Node.isDirectory, Node.entry]

theorem of_copyEntry_directory {descend : Path → Path → FileAction Cause CopyStats}
    (h : copyEntry cwd descend source target (name, true) t = (r, t')) :
    ∃ r₁, descend (source.join ⟨name⟩) (target.join ⟨name⟩) t = (r₁, t') ∧ ∀ s, r = .ok s → ∃ s₁, r₁ = .ok s₁ := by
  obtain ⟨r₁, h₁, rfl⟩ := of_bind_pure h
  refine ⟨r₁, h₁, fun s hs => ?_⟩
  cases r₁ with
  | ok s₁ => exact ⟨s₁, rfl⟩
  | error => simp [Except.map] at hs

theorem of_copyEntry_file {descend : Path → Path → FileAction Cause CopyStats}
    (h : copyEntry cwd descend source target (name, false) t = (r, t')) :
    ∃ r₁, copyFile cwd (source.join ⟨name⟩) (target.join ⟨name⟩) t = (r₁, t') ∧ ∀ s, r = .ok s → r₁ = .ok () := by
  obtain ⟨r₁, h₁, rfl⟩ := of_bind_pure h
  rw [onPath_apply] at h₁
  rcases hcopy : copyFile cwd (source.join ⟨name⟩) (target.join ⟨name⟩) t with ⟨e | u, t₁⟩
  · rw [hcopy] at h₁
    obtain ⟨rfl, rfl⟩ := Prod.mk.inj h₁
    exact ⟨.error e, rfl, fun s hs => nomatch hs⟩
  · rw [hcopy] at h₁
    obtain ⟨rfl, rfl⟩ := Prod.mk.inj h₁
    exact ⟨.ok u, rfl, fun _ _ => rfl⟩

section

variable {descend : Path → Path → FileAction Cause CopyStats}
  (hdescend : ∀ {source target a b t r t'}, Room K t cwd source target a b → descend source target t = (r, t') →
    t.Grows K t')

include hdescend

private theorem copyEntry_grows (h : Room K t cwd source target a b) {e : Name × Bool} (hes : Listed t a (e :: entries))
    (hcopy : copyEntry cwd descend source target e t = (r, t')) : t.Grows K t' := by
  obtain ⟨name, isDirectory⟩ := e
  obtain ⟨hn, hd⟩ := hes (name, isDirectory) (by simp)
  cases isDirectory with
  | true =>
    obtain ⟨r₂, h₂, -⟩ := of_copyEntry_directory hcopy
    exact hdescend (h.join (hd.1 rfl)) h₂
  | false =>
    obtain ⟨r₂, h₂, -⟩ := of_copyEntry_file hcopy
    have := copyFile_grows h hn
    rwa [h₂] at this

private theorem copyEntries_grows (h : Room K t cwd source target a b) (hes : Listed t a entries)
    (hcopy : copyEntries cwd descend source target entries t = (r, t')) : t.Grows K t' := by
  induction entries generalizing t r with
  | nil =>
    obtain ⟨-, rfl⟩ := Prod.mk.inj hcopy
    exact .refl K t
  | cons e entries ih =>
    rcases of_bind hcopy with ⟨s₁, t₁, h₁, hrest⟩ | ⟨c, h₁, -⟩
    · have ht := copyEntry_grows hdescend h hes h₁
      obtain ⟨r₂, h₂, -⟩ := of_bind_pure hrest
      exact ht.trans (ih (h.grows ht) (hes.tail.extends ht.kept) h₂)
    · exact copyEntry_grows hdescend h hes h₁

/-- A copy that comes to a good end has copied every directory among the entries. -/
private theorem copyEntries_visits (h : Room K t cwd source target a b) (hes : Listed t a entries)
    (hcopy : copyEntries cwd descend source target entries t = (.ok stats, t')) (hmem : (name, true) ∈ entries) :
    ∃ t₁ t₂ s, t.Grows K t₁ ∧ descend (source.join ⟨name⟩) (target.join ⟨name⟩) t₁ = (.ok s, t₂) := by
  induction entries generalizing t t' stats with
  | nil => simp at hmem
  | cons e entries ih =>
    obtain ⟨s₁, t₁, h₁, hrest⟩ := of_bind_ok hcopy
    rcases List.mem_cons.1 hmem with rfl | hmem
    · obtain ⟨r₃, h₃, hok⟩ := of_copyEntry_directory h₁
      obtain ⟨s, rfl⟩ := hok s₁ rfl
      exact ⟨t, t₁, s, .refl K t, h₃⟩
    · have ht := copyEntry_grows hdescend h hes h₁
      obtain ⟨s₂, t₂, h₂, -⟩ := of_bind_ok hrest
      obtain ⟨t₃, t₄, s, ht₃, hd⟩ := ih (h.grows ht) (hes.tail.extends ht.kept) h₂ hmem
      exact ⟨t₃, t₄, s, ht.trans ht₃, hd⟩

end

/-- A copy of a directory creates the directory, lists the source and copies what is listed. -/
theorem of_copyLevels_succ {depth : Nat} (h : copyLevels cwd (depth + 1) source target t = (r, t')) :
    ∃ r₁ t₁, createDirectories cwd target t = (r₁, t₁) ∧ ((∀ s, r ≠ .ok s) ∧ t' = t₁ ∨
      r₁ = .ok () ∧ ∃ a cs, stat t₁ cwd source true = .ok (a, .directory cs) ∧
        copyEntries cwd (copyLevels cwd depth) source target (cs.map fun (name, n) => (name, n.isDirectory)) t₁ =
          (r, t')) := by
  unfold copyLevels at h
  rcases hcreate : createDirectories cwd target t with ⟨r₁, t₁⟩
  refine ⟨r₁, t₁, rfl, ?_⟩
  rcases of_bind h with ⟨u, t₂, h₁, h⟩ | ⟨e, h₁, rfl⟩
  · have h₁' := of_onPath_ok h₁
    rw [hcreate] at h₁'
    obtain ⟨rfl, rfl⟩ := Prod.mk.inj h₁'
    rcases of_bind h with ⟨entries, t₂, h₂, h⟩ | ⟨e, h₂, rfl⟩
    · obtain ⟨rfl, a, cs, hstat, rfl⟩ := list_ok (of_onPath_ok h₂)
      exact Or.inr ⟨rfl, a, cs, hstat, h⟩
    · rw [onPath_apply, list_tree] at h₂
      exact Or.inl ⟨by simp, (Prod.mk.inj h₂).2.symm⟩
  · rw [onPath_apply, hcreate] at h₁
    exact Or.inl ⟨by simp, (Prod.mk.inj h₁).2.symm⟩

/-- A copy makes the tree grow, provided that there is room wherever the paths lead. -/
private theorem copyLevels_grows (depth : Nat) (hway : ∀ k, OnWay t cwd target k → t.entryAt? k = none → K k)
    (hroom : ∀ a b, LeadsTo t cwd source a → LeadsTo t cwd target b → Room K t cwd source target a b)
    (h : copyLevels cwd depth source target t = (r, t')) : t.Grows K t' := by
  induction depth generalizing source target t r t' with
  | zero =>
    obtain ⟨-, rfl⟩ := Prod.mk.inj h
    exact .refl K t
  | succ depth ih =>
    obtain ⟨r₁, t₁, hcreate, hrest⟩ := of_copyLevels_succ h
    have ht := createDirectories_grows hway hcreate
    rcases hrest with ⟨-, rfl⟩ | ⟨rfl, a, cs, hstat, hcopy⟩
    · exact ht
    · obtain ⟨b, hb, -⟩ := createDirectories_ok hcreate
      have ha : LeadsTo t cwd source a := (stat_leadsTo hstat (Or.inl rfl)).sameLinks ht.sameLinks.symm
      refine ht.trans (copyEntries_grows (fun h hd => ih h.way (fun a' b' ha' hb' => ?_) hd)
        ((hroom a b ha hb).grows ht) (listed_of_stat hstat) hcopy)
      rw [ha'.unique h.sourceAt, hb'.unique h.targetAt]
      exact h

theorem copyDirectory_grows (hway : ∀ k, OnWay t cwd target k → t.entryAt? k = none → K k)
    (hroom : ∀ a b, LeadsTo t cwd source a → LeadsTo t cwd target b → Room K t cwd source target a b)
    (h : copyDirectory cwd source target t = (r, t')) : t.Grows K t' := copyLevels_grows _ hway hroom h

/-! ### A copy into its own source -/

/-- Each level of a copy into its own source finds, in the directory it reads, the way down to the one it writes, and
so there is always another level. -/
theorem copyLevels_inside (depth : Nat) {d : Location} (h : Room (fun _ => True) t cwd source target a (a ++ d))
    (hd : d ≠ []) (hv : ∀ n ∈ a ++ d, Path.slash ∉ n ∧ 0 ∉ n) (hs : t.entryAt? (start cwd target) = some .directory) :
    copyLevels cwd depth source target t ≠ (.ok stats, t') := by
  intro hcopy
  induction depth generalizing source target a d t t' stats with
  | zero => cases hcopy
  | succ depth ih =>
    obtain ⟨r₁, t₁, hcreate, hrest⟩ := of_copyLevels_succ hcopy
    rcases hrest with ⟨hne, -⟩ | ⟨rfl, a', cs, hstat, hentries⟩
    · exact hne stats rfl
    have ht := createDirectories_grows h.way hcreate
    obtain ⟨b, hb, hdir⟩ := createDirectories_ok hcreate
    obtain rfl := hb.unique h.targetAt
    obtain rfl := (stat_leadsTo hstat (Or.inl rfl)).unique (h.grows ht).sourceAt
    -- the first name on the way down from the source is that of a directory in it
    obtain ⟨x, d, rfl⟩ := List.exists_cons_of_ne_nil hd
    have hx : t₁.entryAt? (a' ++ [x]) = some .directory := by
      have hb := hdir hv hs
      by_cases he : d = []
      · rwa [he] at hb
      · rw [List.append_cons] at hb
        exact Tree.entryAt?_of_append he hb
    obtain ⟨ds, hget⟩ := Tree.entryAt?_eq_directory_iff.1 hx
    have hmem : (x, true) ∈ cs.map fun (name, n) => (name, n.isDirectory) :=
      List.mem_map.2 ⟨(x, .directory ds), (Tree.mem_children_iff (stat_get? hstat)).2 hget, rfl⟩
    have hroom := h.grows ht
    obtain ⟨t₂, t₃, s, ht₂, hnext⟩ := copyEntries_visits
      (fun h hcopy => copyLevels_grows depth h.way (fun a b ha hb => by
        rw [ha.unique h.sourceAt, hb.unique h.targetAt]; exact h) hcopy)
      hroom (listed_of_stat hstat) hentries hmem
    have hjoin := (hroom.join hx).grows ht₂
    have hdown : a' ++ x :: d ++ [x] = a' ++ [x] ++ (d ++ [x]) := by simp
    rw [hdown] at hjoin
    have hvx : x.IsValid := Tree.isValid_of_entryAt? hx x (by simp)
    refine ih hjoin (by simp) (fun n hn => hv n ?_) ?_ hnext
    · simp only [List.mem_append, List.mem_cons, List.not_mem_nil, or_false] at hn ⊢
      tauto
    · have hstart : start cwd (target.join ⟨x⟩) = start cwd target := by
        unfold start
        rw [Path.isAbsolute_join_name _ hvx]
      rw [hstart]
      exact (ht.trans ht₂).kept.directory hs

end GradleBuild.Files
