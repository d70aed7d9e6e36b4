import GradleBuild.Proofs.Copying

/-!
# A file that is written is found

A file is created where its path leads, and there the path finds it.  So what has been copied can be read back under
the path it was copied to, unless that leads to the very file that was to be read.

* `createFile_found`: a file that has been created is found, and is empty.
* `copyFile_found`: a copy of a file is found, and holds what its source held.
* `stat_unfollowed`: it is found without following links as well, or a link stands there.
-/

namespace GradleBuild

namespace Tree

variable {t : Tree} {l : Location} {c : Bytes} {x : Bool} {e : Entry}

/-- No link has a NUL byte in its target.  No system lets one be made. -/
def NoNul (t : Tree) : Prop := ∀ l target, t.entryAt? l = some (.link target) → 0 ∉ target.bytes

theorem NoNul.sameLinks {t' : Tree} (ht : t.SameLinks t') (h : t.NoNul) : t'.NoNul :=
  fun l target hl => h l target ((ht l target).2 hl)

theorem NoLinks.noNul (h : t.NoLinks) : t.NoNul := fun l target hl => absurd hl (h l target)

/-- Where a file is another entry can be put. -/
theorem entryAt?_put_of_file (h : t.entryAt? l = some (.file c x)) (e : Entry) : (t.put l e).entryAt? l = some e := by
  rcases List.eq_nil_or_concat' l with rfl | ⟨d, name, rfl⟩
  · simp [entryAt?_root] at h
  · exact entryAt?_put_self (isValid_of_entryAt? h) (entryAt?_of_append (List.cons_ne_nil _ _) h) e

/-- A file that is created and then written holds what was written, if anything has changed. -/
theorem entryAt?_put_put (h : ((t.put l (.file c x)).put l e).entryAt? l ≠ t.entryAt? l) :
    ((t.put l (.file c x)).put l e).entryAt? l = some e := by
  by_cases heq : (t.put l (.file c x)).entryAt? l = t.entryAt? l
  · exact put_ne (by rwa [heq])
  · exact entryAt?_put_of_file (put_ne heq) e

end Tree

namespace Files

variable {t t' : Tree} {cwd l r s k : Location} {p source target : Path} {xs : List Bytes} {followLast : Bool}
  {links : Nat} {f : Found} {name : Name} {c : Bytes} {x : Bool}

/-! ### Walks to a free name -/

/-- Whether a row of bytes can be part of a name. -/
def IsSpelled (s : Bytes) : Prop := Path.slash ∉ s ∧ 0 ∉ s

theorem isSpelled_of_mem_segments (hp : 0 ∉ p.bytes) {s : Bytes} (hs : s ∈ p.segments) : IsSpelled s :=
  ⟨fun hc => by simpa using Path.slash_not_mem hs _ hc, fun hc => hp (Path.mem_of_mem_segments hs hc)⟩

theorem Walks.free_spelled {slashed : Bool} (ht : t.NoNul) (hxs : ∀ s ∈ xs, IsSpelled s)
    (h : Walks t followLast links l xs f) (hf : f = .absent r name slashed) : IsSpelled name := by
  induction h with
  | here => simp at hf
  | idle _ _ ih | up _ ih | enter _ _ _ _ ih => exact ih (fun s hs => hxs s (List.mem_cons_of_mem _ hs)) hf
  | missing =>
    cases hf
    exact hxs name (by simp)
  | file => simp at hf
  | stay => simp at hf
  | follow _ _ _ hn _ ih =>
    refine ih (fun s hs => ?_) hf
    rcases List.mem_append.1 hs with hs | hs
    · exact isSpelled_of_mem_segments (ht _ _ (Tree.entryAt?_eq_link_iff.2 hn)) hs
    · exact hxs s (List.mem_cons_of_mem _ hs)

/-- A walk to a free name finds the file that is put there. -/
theorem Walks.filled (ht : t.Extends t') (hfile : t'.get? (r ++ [name]) = some (.file c x))
    (h : Walks t followLast links l xs f) (hf : f = .absent r name false) :
    Walks t' followLast links l xs (.present (r ++ [name]) (.file c x)) := by
  induction h with
  | here => simp at hf
  | idle hi _ ih => exact .idle hi (ih hf)
  | up _ ih => exact .up (ih hf)
  | @missing _ _ _ rest hs hle =>
    obtain ⟨rfl, rfl, hrest⟩ := Found.absent.inj hf
    obtain rfl : rest = [] := by simpa using hrest
    exact .file hs hle hfile
  | enter hs hle hn _ ih =>
    obtain ⟨cs', hn'⟩ := Tree.entryAt?_eq_directory_iff.1 (ht.directory (Tree.entryAt?_eq_directory_iff.2 ⟨_, hn⟩))
    exact .enter hs hle hn' (ih hf)
  | file => simp at hf
  | stay => simp at hf
  | follow hr hs hle hn _ ih =>
    exact .follow hr hs hle (Tree.entryAt?_eq_link_iff.1 (ht.link (Tree.entryAt?_eq_link_iff.2 hn))) (ih hf)

/-- Without following the last link a walk ends at the same place, or at that link. -/
theorem Walks.unfollowed {n : Node} (h : Walks t true links l xs f) (hf : f = .present r n) :
    Walks t false links l xs f ∨ ∃ k target, Walks t false links l xs (.present k (.link target)) := by
  induction h with
  | here hn => exact Or.inl (.here hn)
  | idle hi _ ih =>
    rcases ih hf with hw | ⟨k, target, hw⟩
    · exact Or.inl (.idle hi hw)
    · exact Or.inr ⟨k, target, .idle hi hw⟩
  | up _ ih =>
    rcases ih hf with hw | ⟨k, target, hw⟩
    · exact Or.inl (.up hw)
    · exact Or.inr ⟨k, target, .up hw⟩
  | missing => simp at hf
  | enter hs hle hn _ ih =>
    rcases ih hf with hw | ⟨k, target, hw⟩
    · exact Or.inl (.enter hs hle hn hw)
    · exact Or.inr ⟨k, target, .enter hs hle hn hw⟩
  | file hs hle hn => exact Or.inl (.file hs hle hn)
  | stay hfl => simp at hfl
  | @follow _ _ _ rest _ _ _ hs hle hn _ ih =>
    by_cases hr : rest = []
    · subst hr
      exact Or.inr ⟨_, _, .stay rfl hs hle hn⟩
    · rcases ih hf with hw | ⟨k, target, hw⟩
      · exact Or.inl (.follow (Or.inl hr) hs hle hn hw)
      · exact Or.inr ⟨k, target, .follow (Or.inl hr) hs hle hn hw⟩

theorem stat_unfollowed {n : Node} (h : stat t cwd p true = .ok (l, n)) :
    stat t cwd p false = .ok (l, n) ∨ ∃ k target, stat t cwd p false = .ok (k, .link target) := by
  obtain ⟨hc, hd, hw⟩ := find_eq_ok_iff.1 (stat_eq_ok_iff.1 h)
  rcases hw.unfollowed rfl with hw | ⟨k, target, hw⟩
  · exact Or.inl (stat_eq_ok_iff.2 (find_eq_ok_iff.2 ⟨hc, hd, hw⟩))
  · exact Or.inr ⟨k, target, stat_eq_ok_iff.2 (find_eq_ok_iff.2 ⟨hc, hd, hw⟩)⟩

/-! ### Files that are written -/

/-- What a path named before it still names, with what is there now. -/
theorem stat_file_extends {n : Node} (ht : t.Extends t') (h : stat t cwd p followLast = .ok (l, n))
    (hfile : t'.entryAt? l = some (.file c x)) : stat t' cwd p followLast = .ok (l, .file c x) := by
  obtain ⟨n', hn'⟩ := stat_extends ht h
  rw [hn', ← Option.some.inj ((Tree.entryAt?_eq_file_iff.1 hfile).symm.trans (stat_get? hn'))]

theorem read_of_stat (h : stat t cwd p true = .ok (l, .file c x)) : read t cwd p = .ok c := by
  unfold read
  rw [h]
  rfl

theorem read_eq_ok (h : read t cwd p = .ok c) : ∃ l x, stat t cwd p true = .ok (l, .file c x) := by
  unfold read at h
  rcases hstat : stat t cwd p true with _ | ⟨l, n⟩
  · simp [hstat, bind, Except.bind] at h
  · cases n <;> simp_all [bind, Except.bind]

private theorem noNul_of_checkPath (h : checkPath p = .ok ()) : 0 ∉ p.bytes := by
  unfold checkPath at h
  split at h
  · cases h
  · simp_all

/-- A file that has been created is found where its path leads, and is empty. -/
theorem createFile_found (hnul : t.NoNul) (h : createFile cwd p t = (.ok l, t')) :
    t.Writable l ∧ ∃ x, t' = t.put l (.file [] x) ∧ stat t' cwd p true = .ok (l, .file [] x) := by
  unfold createFile at h
  rcases hf : find t cwd p true with e | f
  · rw [query_bind_error hf] at h
    cases h
  rw [query_bind_ok hf] at h
  obtain ⟨hc, hd, hw⟩ := find_eq_ok_iff.1 hf
  cases f with
  | present l' n =>
    cases n with
    | file c x =>
      obtain ⟨hl, rfl⟩ := Prod.mk.inj h
      obtain rfl := Except.ok.inj hl
      have hfile : t.entryAt? l' = some (.file c x) := Tree.entryAt?_eq_file_iff.2 (hw.get?_eq rfl)
      have hwritable : t.Writable l' := Or.inr ⟨c, x, hfile⟩
      have hgrows := Tree.grows_put_file (K := fun _ => True) hwritable trivial [] x
      exact ⟨hwritable, x, rfl,
        stat_file_extends hgrows.kept (stat_eq_ok_iff.2 hf) (Tree.entryAt?_put_of_file hfile _)⟩
    | directory | link => cases h
  | absent d name slashed =>
    cases slashed with
    | true => cases h
    | false =>
      obtain ⟨hl, rfl⟩ := Prod.mk.inj h
      obtain rfl := Except.ok.inj hl
      obtain ⟨hdir, hfree, hs, hle⟩ := hw.free rfl
      have hspelled := hw.free_spelled hnul (fun s => isSpelled_of_mem_segments (noNul_of_checkPath hc)) rfl
      have hnew := Tree.entryAt?_put_below (r := []) hdir (hs.isValid hle hspelled) (.file [] false)
      have hgrows := Tree.grows_put_file (K := fun _ => True) (Or.inl hfree) trivial [] false
      rw [List.append_nil, if_pos rfl] at hnew
      exact ⟨Or.inl hfree, false, rfl, stat_eq_ok_iff.2 (find_eq_ok_iff.2 ⟨hc, hgrows.kept.directory hd,
        hw.filled hgrows.kept (Tree.entryAt?_eq_file_iff.1 hnew) rfl⟩)⟩

/-- A copy of a file is found where the target leads, and unless that is where it was to be read from, it holds what
was there. -/
theorem copyFile_found (hnul : t.NoNul) (h : copyFile cwd source target t = (.ok (), t')) :
    ∃ s c x l c', stat t cwd source true = .ok (s, .file c x) ∧ t.Grows (· = l) t' ∧
      stat t' cwd target true = .ok (l, .file c' x) ∧ (s ≠ l → c' = c) := by
  unfold copyFile at h
  obtain ⟨⟨s, n⟩, t₁, hq, h⟩ := of_bind_ok h
  rw [query_apply] at hq
  obtain ⟨hstat, rfl⟩ := Prod.mk.inj hq
  cases n with
  | directory | link => cases h
  | file c x =>
    obtain ⟨l, t₂, hcreate, h⟩ := of_bind_ok h
    rw [bind_apply_ok (get_apply _)] at h
    obtain ⟨hw, y, rfl, hfound⟩ := createFile_found hnul hcreate
    have hempty := Tree.grows_put_file (K := (· = l)) hw rfl [] y
    have hs : t.entryAt? s = some (.file c x) := Tree.entryAt?_eq_file_iff.2 (stat_get? hstat)
    obtain ⟨c', x', hread⟩ := hempty.kept.file hs
    rw [hread] at h
    obtain ⟨-, rfl⟩ := Prod.mk.inj h
    have hwritten := Tree.grows_put_file (K := (· = l)) (Tree.writable_put hw [] y) rfl c' x
    have hfile := Tree.entryAt?_put_of_file (Tree.entryAt?_eq_file_iff.2 (stat_get? hfound)) (.file c' x)
    refine ⟨s, c, x, l, c', hstat, hempty.trans hwritten, stat_file_extends hwritten.kept hfound hfile, fun hne => ?_⟩
    -- what is elsewhere has not been emptied
    rw [hempty.eq hne, hs] at hread
    exact (Entry.file.inj (Option.some.inj hread)).1.symm

end Files

end GradleBuild
