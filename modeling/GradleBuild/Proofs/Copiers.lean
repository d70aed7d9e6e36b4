import GradleBuild.Proofs.Making
import Mathlib.Data.Set.Card

/-!
# Copies made of other parts

A copy creates directories, lists them, goes from entry to entry and copies files.  A `Copier` says how it does each,
and `levels` goes through a directory with it.  With the plain parts this is the copy itself (`plain_levels`); other
parts count, or may refuse.

What is proved about a copy rests on `Keeps`: what the parts keep, as long as none fails, while the copy goes through
the directories `D` and the leaves `L` of its source.

* `Keeps.levels`, `Keeps.stopped`: a copy that succeeds keeps it, and an error is that of one part.
* `Keeps.calls`: it comes to each directory once at most.
* `Keeps.levels_eq`: the number of levels does not matter if it exceeds that of the directories.
-/

namespace GradleBuild.Files

/-- A gap in the way of a path: the path leads through a place where nothing is. -/
def Gap (t : Tree) (cwd : Location) (p : Path) (k : Location) : Prop := OnWay t cwd p k ∧ t.entryAt? k = none

/-- The parts of a copy that works on some state. -/
structure Copier (σ : Type) where
  /-- What is noted when the copy comes to a directory. -/
  enter : σ → σ
  create : Path → ExceptT Cause (StateM σ) Unit
  list : Path → ExceptT Cause (StateM σ) (List (Name × Bool))
  /-- Go on in a directory to the entry of a name, or to the end. -/
  next : Path → Option Name → ExceptT Cause (StateM σ) Unit
  /-- Ask whether an entry is a directory. -/
  kind : Path → ExceptT Cause (StateM σ) Unit
  copy : Path → Path → ExceptT Cause (StateM σ) Unit

namespace Copier

variable {σ : Type}

/-- Copy one entry of a directory, given whether it is a directory itself. -/
def entry (C : Copier σ) (descend : Path → Path → ExceptT Cause (StateM σ) CopyStats) (source target : Path) :
    Name × Bool → ExceptT Cause (StateM σ) CopyStats
  | (name, true) => do
    let below ← descend (source.join ⟨name⟩) (target.join ⟨name⟩)
    return CopyStats.add ⟨0, 1⟩ below
  | (name, false) => do
    C.copy (source.join ⟨name⟩) (target.join ⟨name⟩)
    return ⟨1, 0⟩

/-- Copy the entries of a directory one after another. -/
def entries (C : Copier σ) (descend : Path → Path → ExceptT Cause (StateM σ) CopyStats) (source target : Path) :
    List (Name × Bool) → ExceptT Cause (StateM σ) CopyStats
  | [] => do
    C.next source none
    return {}
  | e :: rest => do
    C.next source (some e.1)
    C.kind (source.join ⟨e.1⟩)
    let first ← C.entry descend source target e
    let others ← C.entries descend source target rest
    return first.add others

/-- Copy a directory through at most `depth` levels. -/
def levels (C : Copier σ) : Nat → Path → Path → ExceptT Cause (StateM σ) CopyStats
  | 0, _, target => do
    modify C.enter
    throw (.fileFault target.display .nameTooLong)
  | depth + 1, source, target => do
    modify C.enter
    C.create target
    let entries ← C.list source
    C.entries (C.levels depth) source target entries

/-- The parts of the copy itself. -/
def plain (cwd : Location) : Copier Tree where
  enter := id
  create p := onPath p (createDirectories cwd p)
  list p := onPath p (Files.list cwd p)
  next _ _ := pure ()
  kind _ := pure ()
  copy p q := onPath p (copyFile cwd p q)

theorem plain_entries (cwd : Location) (descend : Path → Path → FileAction Cause CopyStats) (source target : Path)
    (es : List (Name × Bool)) :
    (plain cwd).entries descend source target es = copyEntries cwd descend source target es := by
  induction es with
  | nil => rfl
  | cons e es ih =>
    have hentry : (plain cwd).entry descend source target e = copyEntry cwd descend source target e := by
      obtain ⟨name, _ | _⟩ := e <;> rfl
    rw [entries, copyEntries, hentry, ih]
    rfl

/-- With the plain parts this is the copy. -/
theorem plain_levels (cwd : Location) (depth : Nat) (source target : Path) :
    (plain cwd).levels depth source target = copyLevels cwd depth source target := by
  induction depth generalizing source target with
  | zero => rfl
  | succ depth ih =>
    have hdescend : (plain cwd).levels depth = copyLevels cwd depth := by
      funext source target
      exact ih source target
    rw [levels, copyLevels, hdescend]
    simp only [plain_entries]
    rfl

/-! ### What a copy keeps -/

variable {C : Copier σ} {source destination : Path} {D L : Location → Prop} {I : σ → Prop} {q : Location}
  {s s' : σ} {r : Except Cause CopyStats} {es : List (Name × Bool)} {c : Cause} {depth depth' : Nat}

/-- What a listing of the directory at `q` says: each name once, and which are directories. -/
structure Listing (D L : Location → Prop) (q : Location) (es : List (Name × Bool)) : Prop where
  /-- No path that can be listed has more names. -/
  short : q.length ≤ longestPath
  nodup : (es.map Prod.fst).Nodup
  directories : ∀ name, (name, true) ∈ es → D (q ++ [name])
  leaves : ∀ name, (name, false) ∈ es → L (q ++ [name])

namespace Listing

variable {e : Name × Bool}

theorem directory (h : Listing D L q es) (he : e ∈ es) (hd : e.2 = true) : D (q ++ [e.1]) :=
  h.directories e.1 (by rwa [← hd])

theorem leaf (h : Listing D L q es) (he : e ∈ es) (hl : e.2 = false) : L (q ++ [e.1]) :=
  h.leaves e.1 (by rwa [← hl])

theorem place (h : Listing D L q es) (he : e ∈ es) : D (q ++ [e.1]) ∨ L (q ++ [e.1]) := by
  cases hd : e.2 with
  | true => exact Or.inl (h.directory he hd)
  | false => exact Or.inr (h.leaf he hd)

theorem tail (h : Listing D L q (e :: es)) : Listing D L q es where
  short := h.short
  nodup := (List.nodup_cons.1 h.nodup).2
  directories name hn := h.directories name (List.mem_cons_of_mem _ hn)
  leaves name hn := h.leaves name (List.mem_cons_of_mem _ hn)

/-- What a directory of the source holds when it is listed. -/
theorem of_stat {t : Tree} {cwd l : Location} {cs : List (Name × Node)} (hv : ∀ n ∈ q, n.IsValid)
    (h : stat t cwd (source.below q) true = .ok (l, .directory cs))
    (hD : ∀ name, t.entryAt? (l ++ [name]) = some .directory → D (q ++ [name]))
    (hL : ∀ name e, t.entryAt? (l ++ [name]) = some e → e ≠ .directory → L (q ++ [name])) :
    Listing D L q (cs.map fun (name, n) => (name, n.isDirectory)) where
  short := (Path.length_below source hv).trans
    (checkPath_eq_ok_iff.1 (find_eq_ok_iff.1 (stat_eq_ok_iff.1 h)).1).2.2
  nodup := by simpa [List.map_map, Function.comp_def] using Tree.nodup_children (stat_get? h)
  directories name hn := hD name ((listed_of_stat h (name, true) hn).2.1 rfl)
  leaves name hn := by
    obtain ⟨hthere, hd⟩ := listed_of_stat h (name, false) hn
    obtain ⟨e, he⟩ := Option.ne_none_iff_exists'.1 hthere
    refine hL name e he ?_
    rintro rfl
    simpa using hd.2 he

end Listing

/-- The parts that do not fail keep `I` at the directories `D` and the leaves `L`, and these are what is listed. -/
structure Keeps (C : Copier σ) (source destination : Path) (D L : Location → Prop) (I : σ → Prop) : Prop where
  enter : ∀ {s}, I s → I (C.enter s)
  create : ∀ {q s s'}, D q → I s → C.create (destination.below q) s = (.ok (), s') → I s'
  list : ∀ {q s es s'}, D q → I s → C.list (source.below q) s = (.ok es, s') → I s' ∧ Listing D L q es
  next : ∀ {q name s s'}, D q → I s → C.next (source.below q) name s = (.ok (), s') → I s'
  kind : ∀ {q s s'}, D q ∨ L q → I s → C.kind (source.below q) s = (.ok (), s') → I s'
  copy : ∀ {q s s'}, L q → I s → C.copy (source.below q) (destination.below q) s = (.ok (), s') → I s'

/-- The copy has stopped at a path: there one part has failed. -/
inductive StopsAt (C : Copier σ) (source destination : Path) (D L : Location → Prop) (I : σ → Prop) (c : Cause)
    (s' : σ) : Path → Prop
  | create {q : Location} {s : σ} : D q → I s → C.create (destination.below q) s = (.error c, s') →
      StopsAt C source destination D L I c s' (destination.below q)
  | list {q : Location} {s : σ} : D q → I s → C.list (source.below q) s = (.error c, s') →
      StopsAt C source destination D L I c s' (source.below q)
  | next {q : Location} {name : Option Name} {s : σ} : D q → I s → C.next (source.below q) name s = (.error c, s') →
      StopsAt C source destination D L I c s' (source.below q)
  | kind {q : Location} {s : σ} : D q ∨ L q → I s → C.kind (source.below q) s = (.error c, s') →
      StopsAt C source destination D L I c s' (source.below q)
  | copy {q : Location} {s : σ} : L q → I s → C.copy (source.below q) (destination.below q) s = (.error c, s') →
      StopsAt C source destination D L I c s' (source.below q)

theorem StopsAt.mono {D' : Location → Prop} {p : Path} (hD : ∀ q, D q → D' q)
    (h : C.StopsAt source destination D L I c s' p) : C.StopsAt source destination D' L I c s' p := by
  cases h with
  | create hq hs h => exact .create (hD _ hq) hs h
  | list hq hs h => exact .list (hD _ hq) hs h
  | next hq hs h => exact .next (hD _ hq) hs h
  | kind hq hs h => exact .kind (hq.imp_left (hD _)) hs h
  | copy hq hs h => exact .copy hq hs h

/-- What a copy does at one level. -/
theorem of_levels_succ {source target : Path} (h : C.levels (depth + 1) source target s = (r, s')) :
    (∃ c, r = .error c ∧ C.create target (C.enter s) = (.error c, s')) ∨
    ∃ s₁, C.create target (C.enter s) = (.ok (), s₁) ∧ ((∃ c, r = .error c ∧ C.list source s₁ = (.error c, s')) ∨
      ∃ es s₂, C.list source s₁ = (.ok es, s₂) ∧ C.entries (C.levels depth) source target es s₂ = (r, s')) := by
  rw [levels, bind_apply_ok (modify_apply _ s)] at h
  rcases of_bind h with ⟨_, s₁, hcreate, h⟩ | ⟨c, hcreate, rfl⟩
  · refine Or.inr ⟨s₁, hcreate, ?_⟩
    rcases of_bind h with ⟨es, s₂, hlist, h⟩ | ⟨c, hlist, rfl⟩
    · exact Or.inr ⟨es, s₂, hlist, h⟩
    · exact Or.inl ⟨c, rfl, hlist⟩
  · exact Or.inl ⟨c, rfl, hcreate⟩

/-- What comes of one entry is what comes of its directory or of its file. -/
theorem of_entry {descend : Path → Path → ExceptT Cause (StateM σ) CopyStats} {e : Name × Bool}
    (h : C.entry descend (source.below q) (destination.below q) e s = (r, s')) :
    (e.2 = true ∧ ∃ r₁ f, descend (source.below (q ++ [e.1])) (destination.below (q ++ [e.1])) s = (r₁, s') ∧
      r = r₁.map f) ∨
    e.2 = false ∧ ∃ r₁ f, C.copy (source.below (q ++ [e.1])) (destination.below (q ++ [e.1])) s = (r₁, s') ∧
      r = r₁.map f := by
  obtain ⟨name, _ | _⟩ := e
  · obtain ⟨r₁, h₁, hr⟩ := of_bind_pure h
    exact Or.inr ⟨rfl, r₁, _, by rwa [Path.below_concat, Path.below_concat], hr⟩
  · obtain ⟨r₁, h₁, hr⟩ := of_bind_pure h
    exact Or.inl ⟨rfl, r₁, _, by rwa [Path.below_concat, Path.below_concat], hr⟩

/-- What a copy does between one entry and the next. -/
theorem of_entries_cons {descend : Path → Path → ExceptT Cause (StateM σ) CopyStats} {e : Name × Bool}
    (h : C.entries descend (source.below q) (destination.below q) (e :: es) s = (r, s')) :
    (∃ c, r = .error c ∧ C.next (source.below q) (some e.1) s = (.error c, s')) ∨
    ∃ s₁, C.next (source.below q) (some e.1) s = (.ok (), s₁) ∧
      ((∃ c, r = .error c ∧ C.kind (source.below (q ++ [e.1])) s₁ = (.error c, s')) ∨
      ∃ s₂, C.kind (source.below (q ++ [e.1])) s₁ = (.ok (), s₂) ∧
        ((∃ c, r = .error c ∧
          C.entry descend (source.below q) (destination.below q) e s₂ = (.error c, s')) ∨
        ∃ x s₃ r₁, C.entry descend (source.below q) (destination.below q) e s₂ = (.ok x, s₃) ∧
          C.entries descend (source.below q) (destination.below q) es s₃ = (r₁, s') ∧ r = r₁.map x.add)) := by
  rw [Path.below_concat]
  rcases of_bind h with ⟨_, s₁, hnext, h⟩ | ⟨c, hnext, rfl⟩
  swap
  · exact Or.inl ⟨c, rfl, hnext⟩
  refine Or.inr ⟨s₁, hnext, ?_⟩
  rcases of_bind h with ⟨_, s₂, hkind, h⟩ | ⟨c, hkind, rfl⟩
  swap
  · exact Or.inl ⟨c, rfl, hkind⟩
  refine Or.inr ⟨s₂, hkind, ?_⟩
  rcases of_bind h with ⟨x, s₃, hentry, h⟩ | ⟨c, hentry, rfl⟩
  · obtain ⟨r₁, hrest, hr⟩ := of_bind_pure h
    exact Or.inr ⟨x, s₃, r₁, hentry, hrest, hr⟩
  · exact Or.inl ⟨c, rfl, hentry⟩

/-- What a copy comes to: a state that has been kept, or a part that has failed, if there are levels enough (`P`). -/
def Ends (C : Copier σ) (source destination : Path) (D L : Location → Prop) (I : σ → Prop) (P : Prop) (s' : σ) :
    Except Cause CopyStats → Prop
  | .ok _ => I s'
  | .error c => P → ∃ p, C.StopsAt source destination D L I c s' p

section

variable {P : Prop} {descend : Path → Path → ExceptT Cause (StateM σ) CopyStats}
  (h : C.Keeps source destination D L I)
  (hdescend : ∀ {name s r s'}, D (q ++ [name]) → I s →
    descend (source.below (q ++ [name])) (destination.below (q ++ [name])) s = (r, s') →
    C.Ends source destination D L I P s' r)

include h hdescend

private theorem entry_keeps {e : Name × Bool} (hes : Listing D L q (e :: es)) (hs : I s)
    (hrun : C.entry descend (source.below q) (destination.below q) e s = (r, s')) :
    C.Ends source destination D L I P s' r := by
  rcases of_entry hrun with ⟨he, r₁, f, h₁, rfl⟩ | ⟨he, r₁, f, h₁, rfl⟩
  · have hends := hdescend (hes.directory List.mem_cons_self he) hs h₁
    cases r₁ <;> exact hends
  · have hl := hes.leaf List.mem_cons_self he
    cases r₁ with
    | ok => exact h.copy hl hs h₁
    | error c => exact fun _ => ⟨_, .copy hl hs h₁⟩

private theorem entries_keeps (hq : D q) (hes : Listing D L q es) (hs : I s)
    (hrun : C.entries descend (source.below q) (destination.below q) es s = (r, s')) :
    C.Ends source destination D L I P s' r := by
  induction es generalizing s r with
  | nil =>
    rcases of_bind hrun with ⟨_, s₁, hnext, hend⟩ | ⟨c, hnext, rfl⟩
    · obtain ⟨rfl, rfl⟩ := Prod.mk.inj hend
      exact h.next hq hs hnext
    · exact fun _ => ⟨_, .next hq hs hnext⟩
  | cons e es ih =>
    have hplace := hes.place List.mem_cons_self
    rcases of_entries_cons hrun with ⟨c, rfl, hnext⟩ | ⟨s₁, hnext, hrun⟩
    · exact fun _ => ⟨_, .next hq hs hnext⟩
    have hs₁ := h.next hq hs hnext
    rcases hrun with ⟨c, rfl, hkind⟩ | ⟨s₂, hkind, hrun⟩
    · exact fun _ => ⟨_, .kind hplace hs₁ hkind⟩
    have hs₂ := h.kind hplace hs₁ hkind
    rcases hrun with ⟨c, rfl, hentry⟩ | ⟨x, s₃, r₁, hentry, hrest, rfl⟩
    · exact entry_keeps h hdescend hes hs₂ hentry
    · have hends := ih hes.tail (entry_keeps h hdescend hes hs₂ hentry) hrest
      cases r₁ <;> exact hends

end

private theorem levels_keeps (h : C.Keeps source destination D L I) (hq : D q) (hs : I s)
    (hrun : C.levels depth (source.below q) (destination.below q) s = (r, s')) :
    C.Ends source destination D L I (longestPath + 2 ≤ depth + q.length ∧ q.length ≤ longestPath + 1) s' r := by
  induction depth generalizing q s r s' with
  | zero =>
    obtain ⟨rfl, rfl⟩ := Prod.mk.inj hrun
    exact fun hP => by omega
  | succ depth ih =>
    rcases of_levels_succ hrun with ⟨c, rfl, hcreate⟩ | ⟨s₁, hcreate, hrest⟩
    · exact fun _ => ⟨_, .create hq (h.enter hs) hcreate⟩
    have hs₁ := h.create hq (h.enter hs) hcreate
    rcases hrest with ⟨c, rfl, hlist⟩ | ⟨es, s₂, hlist, hentries⟩
    · exact fun _ => ⟨_, .list hq hs₁ hlist⟩
    · obtain ⟨hs₂, hes⟩ := h.list hq hs₁ hlist
      have hshort := hes.short
      refine entries_keeps h (fun hd hs hrun => ?_) hq hes hs₂ hentries
      have hends := ih hd hs hrun
      rename_i r _
      cases r with
      | ok => exact hends
      | error =>
        refine fun hP => hends ?_
        rw [List.length_append, List.length_singleton]
        omega

/-- A copy that succeeds keeps what its parts keep. -/
theorem Keeps.levels {x : CopyStats} (h : C.Keeps source destination D L I) (hq : D q) (hs : I s)
    (hrun : C.levels depth (source.below q) (destination.below q) s = (.ok x, s')) : I s' :=
  levels_keeps h hq hs hrun

/-- If a copy ends with an error, that is the error of one of its parts: paths grow too long before the levels are used
up. -/
theorem Keeps.stopped (h : C.Keeps source destination D L I) (hq : D []) (hs : I s)
    (hrun : C.levels (longestPath + 2) source destination s = (.error c, s')) :
    ∃ p, C.StopsAt source destination D L I c s' p :=
  levels_keeps (q := []) h hq hs hrun (by simp)

/-! ### How often a copy comes to a directory -/

/-- The state tells how often the copy has come to a directory. -/
structure Counts (C : Copier σ) (count : σ → Nat) : Prop where
  enter : ∀ s, count (C.enter s) = count s + 1
  create : ∀ p s, count (C.create p s).2 = count s
  list : ∀ p s, count (C.list p s).2 = count s
  next : ∀ p name s, count (C.next p name s).2 = count s
  kind : ∀ p s, count (C.kind p s).2 = count s
  copy : ∀ p p' s, count (C.copy p p' s).2 = count s

section

variable {count : σ → Nat} {descend : Path → Path → ExceptT Cause (StateM σ) CopyStats}
  (h : C.Keeps source destination D L I) (hcount : C.Counts count)
  (hdescend : ∀ {name s r s'}, D (q ++ [name]) → I s →
    descend (source.below (q ++ [name])) (destination.below (q ++ [name])) s = (r, s') →
    (∀ x, r = .ok x → I s') ∧ (count s' : ℕ∞) ≤ count s + {k | q ++ [name] <+: k ∧ D k}.encard)

include h hcount hdescend

private theorem entry_calls {e : Name × Bool} (hes : Listing D L q (e :: es)) (hs : I s)
    (hrun : C.entry descend (source.below q) (destination.below q) e s = (r, s')) :
    (∀ x, r = .ok x → I s') ∧ (count s' : ℕ∞) ≤ count s + {k | q ++ [e.1] <+: k ∧ D k}.encard := by
  rcases of_entry hrun with ⟨he, r₁, f, h₁, rfl⟩ | ⟨he, r₁, f, h₁, rfl⟩
  · obtain ⟨hs', hcalls⟩ := hdescend (hes.directory List.mem_cons_self he) hs h₁
    refine ⟨fun x hx => ?_, hcalls⟩
    cases r₁ with
    | ok y => exact hs' y rfl
    | error => cases hx
  · have hsame := hcount.copy (source.below (q ++ [e.1])) (destination.below (q ++ [e.1])) s
    rw [h₁] at hsame
    refine ⟨fun x hx => ?_, ?_⟩
    · cases r₁ with
      | ok => exact h.copy (hes.leaf List.mem_cons_self he) hs h₁
      | error => cases hx
    · rw [hsame]
      exact le_self_add

private theorem entries_calls (hq : D q) (hes : Listing D L q es) (hs : I s)
    (hrun : C.entries descend (source.below q) (destination.below q) es s = (r, s')) :
    (count s' : ℕ∞) ≤ count s + {k | (∃ e ∈ es, q ++ [e.1] <+: k) ∧ D k}.encard := by
  induction es generalizing s r with
  | nil =>
    have hsame := hcount.next (source.below q) none s
    rcases of_bind hrun with ⟨_, s₁, hnext, hend⟩ | ⟨c, hnext, -⟩
    · obtain ⟨-, rfl⟩ := Prod.mk.inj hend
      rw [← hsame, hnext]
      exact le_self_add
    · rw [← hsame, hnext]
      exact le_self_add
  | cons e es ih =>
    -- what is below one entry is not below another
    have hsplit : {k | (∃ e' ∈ e :: es, q ++ [e'.1] <+: k) ∧ D k}.encard =
        {k | q ++ [e.1] <+: k ∧ D k}.encard + {k | (∃ e' ∈ es, q ++ [e'.1] <+: k) ∧ D k}.encard := by
      rw [← Set.encard_union_eq]
      · congr 1
        ext k
        simp only [List.mem_cons, exists_eq_or_imp, Set.mem_ofPred_eq, Set.mem_union]
        tauto
      · rw [Set.disjoint_left]
        rintro k ⟨hk, -⟩ ⟨⟨e', he', hk'⟩, -⟩
        have heq := (List.prefix_of_prefix_length_le hk hk' (by simp)).eq_of_length (by simp)
        have hname : e.1 = e'.1 := by simpa using heq
        exact (List.nodup_cons.1 hes.nodup).1 (hname ▸ List.mem_map_of_mem he')
    rw [hsplit, ← add_assoc]
    have hnextCount := hcount.next (source.below q) (some e.1) s
    rcases of_entries_cons hrun with ⟨c, -, hnext⟩ | ⟨s₁, hnext, hrun⟩
    · rw [← hnextCount, hnext, add_assoc]
      exact le_self_add
    rw [hnext] at hnextCount
    have hs₁ := h.next hq hs hnext
    have hkindCount := hcount.kind (source.below (q ++ [e.1])) s₁
    rcases hrun with ⟨c, -, hkind⟩ | ⟨s₂, hkind, hrun⟩
    · rw [← hnextCount, ← hkindCount, hkind, add_assoc]
      exact le_self_add
    rw [hkind] at hkindCount
    have hs₂ := h.kind (hes.place List.mem_cons_self) hs₁ hkind
    rw [← hnextCount, ← hkindCount]
    rcases hrun with ⟨c, -, hentry⟩ | ⟨x, s₃, r₁, hentry, hrest, -⟩
    · exact (entry_calls h hcount hdescend hes hs₂ hentry).2.trans le_self_add
    · obtain ⟨hs₃, hcalls⟩ := entry_calls h hcount hdescend hes hs₂ hentry
      exact (ih hes.tail (hs₃ x rfl) hrest).trans (by gcongr)

end

/-- A directory counts for one with what is below it. -/
private theorem enter_calls {count : σ → Nat} (hcount : C.Counts count) (hq : D q) (s : σ) :
    (count (C.enter s) : ℕ∞) + {k | (q <+: k ∧ k ≠ q) ∧ D k}.encard = count s + {k | q <+: k ∧ D k}.encard := by
  have hall : {k | q <+: k ∧ D k} = insert q {k | (q <+: k ∧ k ≠ q) ∧ D k} := by
    ext k
    by_cases hk : k = q
    · simp [hk, hq]
    · simp [hk]
  rw [hall, Set.encard_insert_of_notMem (by simp), hcount.enter, Nat.cast_add, Nat.cast_one, add_assoc, add_comm 1]

/-- A copy comes to each directory of its source at most once. -/
theorem Keeps.calls {count : σ → Nat} (h : C.Keeps source destination D L I) (hcount : C.Counts count) (hq : D q)
    (hs : I s) (hrun : C.levels depth (source.below q) (destination.below q) s = (r, s')) :
    (count s' : ℕ∞) ≤ count s + {k | q <+: k ∧ D k}.encard := by
  induction depth generalizing q s r s' with
  | zero =>
    obtain ⟨-, rfl⟩ := Prod.mk.inj hrun
    rw [← enter_calls hcount hq]
    exact le_self_add
  | succ depth ih =>
    rw [← enter_calls hcount hq]
    have hcreated := hcount.create (destination.below q) (C.enter s)
    rcases of_levels_succ hrun with ⟨c, -, hcreate⟩ | ⟨s₁, hcreate, hrest⟩
    · rw [hcreate] at hcreated
      rw [hcreated]
      exact le_self_add
    rw [hcreate] at hcreated
    have hs₁ := h.create hq (h.enter hs) hcreate
    have hlisted := hcount.list (source.below q) s₁
    rcases hrest with ⟨c, -, hlist⟩ | ⟨es, s₂, hlist, hentries⟩
    · rw [hlist, hcreated] at hlisted
      rw [hlisted]
      exact le_self_add
    rw [hlist, hcreated] at hlisted
    rw [← hlisted]
    obtain ⟨hs₂, hes⟩ := h.list hq hs₁ hlist
    refine (entries_calls h hcount (fun hd hs hrun => ⟨fun x hx => h.levels hd hs (hx ▸ hrun), ih hd hs hrun⟩) hq hes
      hs₂ hentries).trans ?_
    gcongr with k
    rintro ⟨e, -, hk⟩
    refine ⟨(List.prefix_append q _).trans hk, ?_⟩
    rintro rfl
    have := hk.length_le
    simp at this

/-! ### How many levels a copy needs -/

/-- Sequences do the same if their parts do. -/
private theorem bind_congr {α β : Type} {a a' : ExceptT Cause (StateM σ) α} {f f' : α → ExceptT Cause (StateM σ) β}
    (ha : a s = a' s) (hf : ∀ x s₁, a s = (.ok x, s₁) → f x s₁ = f' x s₁) : (a >>= f) s = (a' >>= f') s := by
  rcases hrun : a s with ⟨c | x, s₁⟩
  · rw [bind_apply_error hrun, bind_apply_error (ha ▸ hrun)]
  · rw [bind_apply_ok hrun, bind_apply_ok (ha ▸ hrun), hf x s₁ hrun]

section

variable {descend descend' : Path → Path → ExceptT Cause (StateM σ) CopyStats}
  (h : C.Keeps source destination D L I)
  (hkeeps : ∀ {name s x s'}, D (q ++ [name]) → I s →
    descend (source.below (q ++ [name])) (destination.below (q ++ [name])) s = (.ok x, s') → I s')
  (hsame : ∀ {name s}, D (q ++ [name]) → I s →
    descend (source.below (q ++ [name])) (destination.below (q ++ [name])) s =
      descend' (source.below (q ++ [name])) (destination.below (q ++ [name])) s)

include h hkeeps hsame

private theorem entry_congr {e : Name × Bool} (hes : Listing D L q (e :: es)) (hs : I s) :
    C.entry descend (source.below q) (destination.below q) e s =
      C.entry descend' (source.below q) (destination.below q) e s ∧
    ∀ x s', C.entry descend (source.below q) (destination.below q) e s = (.ok x, s') → I s' := by
  refine ⟨?_, fun x s' hrun => ?_⟩
  · obtain ⟨name, _ | _⟩ := e
    · rfl
    · have hbelow := hsame (hes.directory List.mem_cons_self rfl) hs
      rw [Path.below_concat, Path.below_concat] at hbelow
      exact bind_congr hbelow fun _ _ _ => rfl
  · rcases of_entry hrun with ⟨he, r₁, f, h₁, hr⟩ | ⟨he, r₁, f, h₁, hr⟩
    · cases r₁ with
      | ok => exact hkeeps (hes.directory List.mem_cons_self he) hs h₁
      | error => cases hr
    · cases r₁ with
      | ok => exact h.copy (hes.leaf List.mem_cons_self he) hs h₁
      | error => cases hr

private theorem entries_congr (hq : D q) (hes : Listing D L q es) (hs : I s) :
    C.entries descend (source.below q) (destination.below q) es s =
      C.entries descend' (source.below q) (destination.below q) es s := by
  induction es generalizing s with
  | nil => rfl
  | cons e es ih =>
    refine bind_congr rfl fun _ s₁ hnext => bind_congr rfl fun _ s₂ hkind => ?_
    have hs₁ := h.next hq hs hnext
    have hs₂ := h.kind (hes.place List.mem_cons_self) hs₁ (by rw [Path.below_concat]; exact hkind)
    obtain ⟨hfirst, hthen⟩ := entry_congr h hkeeps hsame hes hs₂
    refine bind_congr hfirst fun x s₃ hrun => bind_congr ?_ fun _ _ _ => rfl
    exact ih hes.tail (hthen x s₃ hrun)

end

/-- The number of levels makes no difference if it is larger than that of the directories, of which only those that a
path can name count. -/
theorem Keeps.levels_eq (h : C.Keeps source destination D L I)
    (hdepth : ∀ k, q <+: k → D k → k.length ≤ longestPath + 1 → k.length < depth + q.length)
    (hdepth' : ∀ k, q <+: k → D k → k.length ≤ longestPath + 1 → k.length < depth' + q.length)
    (hlength : q.length ≤ longestPath + 1) (hq : D q) (hs : I s) :
    C.levels depth (source.below q) (destination.below q) s =
      C.levels depth' (source.below q) (destination.below q) s := by
  induction depth generalizing depth' q s with
  | zero =>
    have := hdepth q (List.prefix_refl q) hq hlength
    omega
  | succ depth ih =>
    have hpos := hdepth' q (List.prefix_refl q) hq hlength
    obtain ⟨depth', rfl⟩ : ∃ n, depth' = n + 1 := ⟨depth' - 1, by omega⟩
    refine bind_congr rfl fun _ s₀ henter => bind_congr rfl fun _ s₁ hcreate => bind_congr rfl fun es s₂ hlist => ?_
    obtain rfl : C.enter s = s₀ := (Prod.mk.inj henter).2
    have hs₁ := h.create hq (h.enter hs) hcreate
    obtain ⟨hs₂, hes⟩ := h.list hq hs₁ hlist
    have hshort := hes.short
    have hbelow {name : Name} {n : Nat}
        (hn : ∀ k, q <+: k → D k → k.length ≤ longestPath + 1 → k.length < n + 1 + q.length) (k : Location)
        (hk : q ++ [name] <+: k) (hD : D k) (hle : k.length ≤ longestPath + 1) :
        k.length < n + (q ++ [name]).length := by
      have := hn k ((List.prefix_append q _).trans hk) hD hle
      rw [List.length_append, List.length_singleton]
      omega
    exact entries_congr h (fun hd hs hrun => h.levels hd hs hrun)
      (fun hd hs => ih (hbelow hdepth) (hbelow hdepth') (by simp; omega) hd hs) hq hes hs₂

end Copier

end GradleBuild.Files
