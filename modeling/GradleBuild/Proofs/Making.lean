import GradleBuild.Proofs.ByName
import GradleBuild.Proofs.Delivery

/-!
# Directories that can be made

A directory is made with those above it that are missing, from the innermost one that is there.  This works out if the
path leads to that one in whatever way, and from there on by names alone.  Behind a missing name `..` leads nowhere, and
no directory can be made under the name `.`.

* `walkAt_append`, `walkAt_noEntry`: a walk goes on from any directory on its way, and fails at a missing name.
* `makeDirectoryBelow_made`: one directory, given that those above it can be made.
* `createDirectories_made`: a directory with those above it, if its path is `Makeable`.
* `Makeable.join`, `createFile_join`: a name more in a directory that is found.
-/

namespace GradleBuild.Files

variable {t t' t₁ : Tree} {cwd l l' l₀ d b : Location} {p : Path} {s first : Bytes}
  {xs ys rest segs others : List Bytes} {followLast : Bool} {links : Nat} {f : Found} {n : Node}

/-! ### Walks from a location -/

/-- Follow segments from the directory at a location. -/
def walkAt (t : Tree) (followLast : Bool) (links : Nat) (l : Location) (xs : List Bytes) : Except Fault Found :=
  match t.get? l with
  | some (.directory cs) => walk t.root followLast links l.reverse (.directory cs) xs
  | _ => .error .noEntry

/-- What a walk does with a link. -/
private def behindLink (root : Node) (followLast : Bool) :
    Nat → List Name → Node → Path → List Bytes → Except Fault Found
  | 0 => fun _ _ _ _ => .error .tooManyLinks
  | links + 1 => fun trail node target rest =>
    if target.isAbsolute then walk root followLast links [] root (target.segments ++ rest)
    else walk root followLast links trail node (target.segments ++ rest)

private theorem walk_eq (root : Node) (followLast : Bool) (links : Nat) :
    walk root followLast links = walkWith root followLast (behindLink root followLast links) := by
  cases links <;> rfl

private theorem walkAt_eq {cs : List (Name × Node)} (h : t.get? l = some (.directory cs)) (xs : List Bytes) :
    walkAt t followLast links l xs =
      walkWith t.root followLast (behindLink t.root followLast links) l.reverse (.directory cs) xs := by
  unfold walkAt
  rw [h, ← walk_eq]

theorem walkAt_idle (hs : Path.isIdle s = true) :
    walkAt t followLast links l (s :: rest) = walkAt t followLast links l rest := by
  unfold walkAt
  rcases t.get? l with _ | cs | _ | _
  · rfl
  · simp only [walk_eq]
    rw [walkWith, if_pos hs]
  · rfl
  · rfl

theorem walkAt_up (h : t.entryAt? l = some .directory) :
    walkAt t followLast links l ([Path.dot, Path.dot] :: rest) = walkAt t followLast links l.dropLast rest := by
  obtain ⟨cs, hcs⟩ := Tree.entryAt?_eq_directory_iff.1 h
  obtain ⟨ds, hds⟩ := Tree.entryAt?_eq_directory_iff.1 (Tree.directory_above (List.dropLast_prefix l) h)
  have hidle : ¬ Path.isIdle [Path.dot, Path.dot] = true := by decide
  have htail : l.reverse.tail = l.dropLast.reverse := by rw [List.tail_reverse]
  have hroot : t.root.get? l.dropLast = some (.directory ds) := hds
  rw [walkAt_eq hcs, walkAt_eq hds, walkWith, if_neg hidle, if_pos rfl, htail, List.reverse_reverse, hroot,
    Option.getD_some]

theorem walkAt_enter (hs : IsPlain s) (hle : s.length ≤ Name.longest)
    (h : t.entryAt? (l ++ [s]) = some .directory) :
    walkAt t followLast links l (s :: rest) = walkAt t followLast links (l ++ [s]) rest := by
  obtain ⟨cs, hcs⟩ := Tree.entryAt?_eq_directory_iff.1 (Tree.entryAt?_of_append (List.cons_ne_nil s []) h)
  obtain ⟨ds, hds⟩ := Tree.entryAt?_eq_directory_iff.1 h
  have hlookup : (Node.directory cs).children.lookup s = some (.directory ds) := by
    rw [Tree.get?_concat, hcs] at hds
    exact hds
  rw [walkAt_eq hcs, walkAt_eq hds, walkWith, if_neg hs.not_idle, if_neg hs.ne_up, if_neg (by omega), hlookup]
  simp

theorem walkAt_missing (hs : IsPlain s) (hle : s.length ≤ Name.longest) (hl : t.entryAt? l = some .directory)
    (h : t.entryAt? (l ++ [s]) = none) (hrest : rest.all List.isEmpty = false) :
    walkAt t followLast links l (s :: rest) = .error .noEntry := by
  obtain ⟨cs, hcs⟩ := Tree.entryAt?_eq_directory_iff.1 hl
  have hlookup : (Node.directory cs).children.lookup s = none := by
    rw [Tree.entryAt?_eq_none_iff, Tree.get?_concat, hcs] at h
    exact h
  rw [walkAt_eq hcs, walkWith, if_neg hs.not_idle, if_neg hs.ne_up, if_neg (by omega), hlookup]
  simp [hrest]

theorem walkAt_follow {target : Path} (hs : IsPlain s) (hle : s.length ≤ Name.longest)
    (h : t.entryAt? (l ++ [s]) = some (.link target)) (hrest : rest ≠ []) :
    walkAt t followLast (links + 1) l (s :: rest) =
      walkAt t followLast links (linkBase l target) (target.segments ++ rest) := by
  obtain ⟨cs, hcs⟩ := Tree.entryAt?_eq_directory_iff.1 (Tree.entryAt?_of_append (List.cons_ne_nil s []) h)
  have hlookup : (Node.directory cs).children.lookup s = some (.link target) := by
    have hlink := Tree.entryAt?_eq_link_iff.1 h
    rw [Tree.get?_concat, hcs] at hlink
    exact hlink
  obtain ⟨ds, hds⟩ := Tree.entryAt?_eq_directory_iff.1 t.entryAt?_root
  have hroot : t.root = .directory ds := Option.some.inj hds
  rw [walkAt_eq hcs, walkWith, if_neg hs.not_idle, if_neg hs.ne_up, if_neg (by omega), hlookup]
  have hempty : (rest.isEmpty && !followLast) = false := by simp [hrest]
  simp only [hempty, Bool.false_eq_true, if_false, behindLink]
  unfold linkBase walkAt
  by_cases habsolute : target.isAbsolute = true
  · rw [if_pos habsolute, if_pos habsolute, hds, hroot]
    rfl
  · rw [if_neg habsolute, if_neg habsolute, hcs]

theorem walkAt_file {c : Bytes} {x : Bool} (hs : IsPlain s) (hle : s.length ≤ Name.longest)
    (h : t.entryAt? (l ++ [s]) = some (.file c x)) (hrest : rest ≠ []) :
    walkAt t followLast links l (s :: rest) = .error .notDirectory := by
  obtain ⟨cs, hcs⟩ := Tree.entryAt?_eq_directory_iff.1 (Tree.entryAt?_of_append (List.cons_ne_nil s []) h)
  have hlookup : (Node.directory cs).children.lookup s = some (.file c x) := by
    have hfile := Tree.entryAt?_eq_file_iff.1 h
    rw [Tree.get?_concat, hcs] at hfile
    exact hfile
  rw [walkAt_eq hcs, walkWith, if_neg hs.not_idle, if_neg hs.ne_up, if_neg (by omega), hlookup]
  simp [hrest]

/-- A walk goes on from a directory that it comes by. -/
theorem walkAt_append (hl : t.entryAt? l = some .directory) (h : Walks t true links l xs f) (hf : f = .present d n)
    (hd : t.entryAt? d = some .directory) : ∃ links', ∀ followLast ys, ys ≠ [] →
      walkAt t followLast links l (xs ++ ys) = walkAt t followLast links' d ys := by
  induction h with
  | @here links =>
    cases hf
    exact ⟨links, fun _ _ _ => rfl⟩
  | idle hi _ ih =>
    obtain ⟨links', hwalk⟩ := ih hl hf
    exact ⟨links', fun followLast ys hy => (walkAt_idle hi).trans (hwalk followLast ys hy)⟩
  | @up _ l _ _ _ ih =>
    obtain ⟨links', hwalk⟩ := ih (Tree.directory_above (List.dropLast_prefix l) hl) hf
    exact ⟨links', fun followLast ys hy => (walkAt_up hl).trans (hwalk followLast ys hy)⟩
  | missing => simp at hf
  | enter hs hle hn _ ih =>
    have hin := Tree.entryAt?_eq_directory_iff.2 ⟨_, hn⟩
    obtain ⟨links', hwalk⟩ := ih hin hf
    exact ⟨links', fun followLast ys hy => (walkAt_enter hs hle hin).trans (hwalk followLast ys hy)⟩
  | file _ _ hn =>
    cases hf
    simp [Tree.entryAt?_eq_file_iff.2 hn] at hd
  | stay hfl => simp at hfl
  | @follow _ l _ rest target _ _ hs hle hn _ ih =>
    have hbase : t.entryAt? (linkBase l target) = some .directory := by
      unfold linkBase
      split
      · exact t.entryAt?_root
      · exact hl
    obtain ⟨links', hwalk⟩ := ih hbase hf
    refine ⟨links', fun followLast ys hy => ?_⟩
    have hgo := hwalk followLast ys hy
    rw [List.append_assoc] at hgo
    exact (walkAt_follow hs hle (Tree.entryAt?_eq_link_iff.2 hn) (by simp [hy])).trans hgo

private theorem plain_concat (hs : IsPlain s) (xs : List Bytes) : plain (xs ++ [s]) = plain xs ++ [s] := by
  simp [plain, hs.1]

/-- Along names nothing but directories is found, or nothing. -/
def Passable (t : Tree) (d l : Location) : Prop :=
  ∀ k, d <+: k → k <+: l → t.entryAt? k = none ∨ t.entryAt? k = some .directory

theorem Passable.unlinked (h : Passable t d l) : Unlinked t d l := by
  intro k hd hl q hq
  rcases h k hd hl with hk | hk <;> simp [hk] at hq

private theorem Passable.tail {zs : List Bytes} (h : Passable t d (d ++ s :: zs)) :
    Passable t (d ++ [s]) (d ++ [s] ++ zs) :=
  fun k hk hl => h k ((List.prefix_append d [s]).trans hk) (by simpa using hl)

/-- A walk along names fails where one of them is missing, if something follows. -/
theorem walkAt_noEntry (hup : [Path.dot, Path.dot] ∉ ys) (hle : ∀ s ∈ ys, s.length ≤ Name.longest)
    (hd : t.entryAt? d = some .directory) (hpass : Passable t d (d ++ plain ys))
    (hn : t.entryAt? (d ++ plain ys) = none) (hrest : rest.all List.isEmpty = false) :
    walkAt t followLast links d (ys ++ rest) = .error .noEntry := by
  induction ys generalizing d with
  | nil => simp [plain, hd] at hn
  | cons s ys ih =>
    have hup' : [Path.dot, Path.dot] ∉ ys := fun he => hup (List.mem_cons_of_mem _ he)
    have hle' : ∀ s ∈ ys, s.length ≤ Name.longest := fun s hs => hle s (List.mem_cons_of_mem _ hs)
    cases hi : Path.isIdle s with
    | true =>
      rw [plain_cons_idle hi] at hpass hn
      exact (walkAt_idle hi).trans (ih hup' hle' hd hpass hn)
    | false =>
      have hs : IsPlain s := ⟨hi, fun he => hup (by simp [he])⟩
      rw [plain_cons hs] at hpass hn
      rcases hpass (d ++ [s]) (List.prefix_append d [s]) (by simp) with hnone | hdir
      · refine walkAt_missing hs (hle s (by simp)) hd hnone ?_
        show (ys ++ rest).all List.isEmpty = false
        rw [List.all_append, hrest, Bool.and_false]
      · rw [List.append_cons] at hn
        exact (walkAt_enter hs (hle s (by simp)) hdir).trans (ih hup' hle' hdir hpass.tail hn)

/-- What idle segments at the end of a walk end at, the walk without them ends at. -/
theorem Walks.strip (hl : t.entryAt? l = some .directory) (h : Walks t true links l (xs ++ ys) (.present d n))
    (hy : ∀ e ∈ ys, Path.isIdle e = true) : Walks t true links l xs (.present d n) := by
  rcases eq_or_ne ys [] with rfl | hne
  · simpa using h
  · obtain ⟨d', m, links', h₁, h₂⟩ := h.split hl rfl rfl hne
    obtain rfl := (h₂.leads rfl (Or.inl rfl)).unique (leads_idle hy)
    rwa [Option.some.inj ((h.get?_eq rfl).symm.trans (h₁.get?_eq rfl))]

/-! ### Paths that lead past directories -/

/-- From some directory on, which is there, the segments lead to `l` by names, past nothing but directories. -/
def Towards (t : Tree) (l₀ : Location) (segs : List Bytes) (l : Location) : Prop :=
  ∃ xs ys d cs, segs = xs ++ ys ∧ Walks t true maxLinks l₀ xs (.present d (.directory cs)) ∧
    [Path.dot, Path.dot] ∉ ys ∧ (∀ s ∈ ys, s.length ≤ Name.longest) ∧ l = d ++ plain ys ∧ Passable t d l

namespace Towards

theorem leads (h : Towards t l₀ segs l) : Leads t l₀ segs l := by
  obtain ⟨xs, ys, d, cs, rfl, hw, hup, -, rfl, hpass⟩ := h
  exact (hw.leads rfl (Or.inl rfl)).append (leads_plain hup hpass.unlinked)

theorem here (h : Towards t l₀ [] l) : t.entryAt? l = some .directory := by
  obtain ⟨xs, ys, d, cs, hsegs, hw, -, -, rfl, -⟩ := h
  obtain ⟨rfl, rfl⟩ := List.nil_eq_append_iff.1 hsegs
  simpa [plain] using Tree.entryAt?_eq_directory_iff.2 ⟨cs, hw.get?_eq rfl⟩

theorem none_or (h : Towards t l₀ segs l) : t.entryAt? l = none ∨ t.entryAt? l = some .directory := by
  obtain ⟨xs, ys, d, cs, -, -, -, -, rfl, hpass⟩ := h
  exact hpass _ (List.prefix_append _ _) (List.prefix_refl _)

/-- A directory at the place is found, also in a larger tree. -/
theorem walks (h : Towards t l₀ segs l) (ht : t.Extends t') (hl : t'.entryAt? l = some .directory) :
    ∃ cs, Walks t' true maxLinks l₀ segs (.present l (.directory cs)) := by
  obtain ⟨xs, ys, d, cs, rfl, hw, hup, -, rfl, -⟩ := h
  obtain ⟨ds, hds⟩ := Tree.entryAt?_eq_directory_iff.1 hl
  obtain ⟨es, hes⟩ := Tree.entryAt?_eq_directory_iff.1 (Tree.directory_above (List.prefix_append d _) hl)
  obtain ⟨n, hw⟩ := hw.extends ht rfl
  obtain rfl := Option.some.inj ((hw.get?_eq rfl).symm.trans hes)
  refine ⟨ds, ?_⟩
  rcases eq_or_ne ys [] with rfl | hy
  · simp only [plain, List.filter_nil, List.append_nil] at hds ⊢
    obtain rfl := Node.directory.inj (Option.some.inj (hds.symm.trans hes))
    exact hw
  · exact hw.append rfl hy fun _ => walks_plain hup hds hl

/-- A walk to a directory is one way to come there. -/
theorem of_walks {cs : List (Name × Node)} (h : Walks t true maxLinks l₀ segs (.present l (.directory cs)))
    (hl : t.entryAt? l = some .directory) : Towards t l₀ segs l :=
  ⟨segs, [], l, cs, by simp, h, by simp, by simp, by simp [plain], fun _ _ hk =>
    Or.inr (Tree.directory_above hk hl)⟩

theorem extends_to (h : Towards t l₀ segs l) (ht : t.Extends t') (hl : t'.entryAt? l = some .directory) :
    Towards t' l₀ segs l := by
  obtain ⟨cs, hw⟩ := h.walks ht hl
  exact .of_walks hw hl

/-- What leads to a free place comes from the directory above it, or from a path with an idle segment less. -/
theorem init (h : Towards t l₀ (segs ++ [s]) l) (hn : t.entryAt? l = none) :
    Path.isIdle s = true ∧ Towards t l₀ segs l ∨
      IsPlain s ∧ s.length ≤ Name.longest ∧ ∃ l', l = l' ++ [s] ∧ Towards t l₀ segs l' := by
  obtain ⟨xs, ys, d, cs, hsegs, hw, hup, hle, rfl, hpass⟩ := h
  rcases List.eq_nil_or_concat' ys with rfl | ⟨ys, s', rfl⟩
  · -- at the end of the walk something is there
    have hd := Tree.entryAt?_eq_directory_iff.2 ⟨cs, hw.get?_eq rfl⟩
    simp [plain, hd] at hn
  · rw [← List.append_assoc] at hsegs
    obtain ⟨rfl, rfl⟩ : segs = xs ++ ys ∧ s = s' := by simpa using List.append_inj' hsegs rfl
    have hup' : [Path.dot, Path.dot] ∉ ys := fun he => hup (List.mem_append_left _ he)
    have hle' : ∀ s ∈ ys, s.length ≤ Name.longest := fun s hs => hle s (List.mem_append_left _ hs)
    cases hi : Path.isIdle s with
    | true =>
      have hplain : plain (ys ++ [s]) = plain ys := by simp [plain, hi]
      rw [hplain] at hpass ⊢
      exact Or.inl ⟨rfl, xs, ys, d, cs, rfl, hw, hup', hle', rfl, hpass⟩
    | false =>
      have hs : IsPlain s := ⟨hi, fun he => hup (by simp [he])⟩
      rw [plain_concat hs] at hpass ⊢
      refine Or.inr ⟨hs, hle s (by simp), d ++ plain ys, by simp, ?_⟩
      exact ⟨xs, ys, d, cs, rfl, hw, hup', hle', rfl, fun k hd hk =>
        hpass k hd (hk.trans ((List.prefix_append_right_inj d).2 (List.prefix_append _ _)))⟩

theorem trim (h : Towards t l₀ (xs ++ ys) l) (hy : ∀ e ∈ ys, Path.isIdle e = true) (hn : t.entryAt? l = none) :
    Towards t l₀ xs l := by
  induction ys using List.reverseRecOn with
  | nil => simpa using h
  | append_singleton ys e ih =>
    rw [← List.append_assoc] at h
    have he := hy e (by simp)
    rcases h.init hn with ⟨-, h⟩ | ⟨hs, -⟩
    · exact ih h fun e he => hy e (List.mem_append_left _ he)
    · exact absurd he hs.not_idle

/-- Idle segments at the end do not matter. -/
theorem strip (h : Towards t l₀ (xs ++ ys) l) (hl₀ : t.entryAt? l₀ = some .directory)
    (hy : ∀ e ∈ ys, Path.isIdle e = true) : Towards t l₀ xs l := by
  rcases h.none_or with hn | hl
  · exact h.trim hy hn
  · obtain ⟨cs, hw⟩ := h.walks (.refl t) hl
    exact .of_walks (hw.strip hl₀ hy) hl

/-- One name more leads one step further. -/
theorem concat (h : Towards t l₀ xs l) (hs : IsPlain s) (hle : s.length ≤ Name.longest)
    (hn : t.entryAt? (l ++ [s]) = none ∨ t.entryAt? (l ++ [s]) = some .directory) :
    Towards t l₀ (xs ++ [s]) (l ++ [s]) := by
  obtain ⟨xs, ys, d, cs, rfl, hw, hup, hshort, rfl, hpass⟩ := h
  refine ⟨xs, ys ++ [s], d, cs, List.append_assoc .., hw, by simpa using ⟨hup, Ne.symm hs.ne_up⟩, fun u hu => ?_,
    by rw [plain_concat hs, List.append_assoc], fun k hd hk => ?_⟩
  · rcases List.mem_append.1 hu with hu | hu
    · exact hshort u hu
    · rwa [List.mem_singleton.1 hu]
  · rcases List.prefix_concat_iff.1 hk with rfl | hk
    · exact hn
    · exact hpass k hd hk

/-- Where the directory above it is missing, a name is not found. -/
theorem noEntry (h : Towards t l₀ segs l) (hl₀ : t.entryAt? l₀ = some .directory) (hn : t.entryAt? l = none)
    (hs : s ≠ []) : walkAt t followLast maxLinks l₀ (segs ++ [s]) = .error .noEntry := by
  obtain ⟨xs, ys, d, cs, rfl, hw, hup, hle, rfl, hpass⟩ := h
  have hd := Tree.entryAt?_eq_directory_iff.2 ⟨cs, hw.get?_eq rfl⟩
  obtain ⟨links, hgo⟩ := walkAt_append hl₀ hw rfl hd
  rw [List.append_assoc, hgo followLast (ys ++ [s]) (by simp)]
  exact walkAt_noEntry hup hle hd hpass hn (by simpa using hs)

end Towards

/-! ### Making one directory -/

/-- The directory has been made, with those above it that were missing, and nothing else. -/
structure Made (t : Tree) (l : Location) (t' : Tree) : Prop where
  there : t'.entryAt? l = some .directory
  only : ∀ k, t'.entryAt? k ≠ t.entryAt? k → t.entryAt? k = none ∧ t'.entryAt? k = some .directory ∧ k <+: l

namespace Made

theorem refl (h : t.entryAt? l = some .directory) : Made t l t := ⟨h, fun _ hk => absurd rfl hk⟩

theorem eq (h : Made t l t') {k : Location} (hk : ¬ k <+: l) : t'.entryAt? k = t.entryAt? k := by
  by_contra hne
  exact hk (h.only k hne).2.2

theorem kept (h : Made t l t') {k : Location} {e : Entry} (hk : t.entryAt? k = some e) : t'.entryAt? k = some e := by
  by_contra hne
  have := (h.only k (by rwa [hk])).1
  simp [hk] at this

theorem extends_to (h : Made t l t') : t.Extends t' := fun _ e he => ⟨e, h.kept he, .refl e⟩

theorem trans (h : Made t l t₁) (h' : Made t₁ l' t') (hl : l <+: l') : Made t l' t' := by
  refine ⟨h'.there, fun k hk => ?_⟩
  by_cases he : t'.entryAt? k = t₁.entryAt? k
  · rw [he] at hk ⊢
    obtain ⟨hnone, hdir, hpre⟩ := h.only k hk
    exact ⟨hnone, hdir, hpre.trans hl⟩
  · obtain ⟨hnone, hdir, hpre⟩ := h'.only k he
    exact ⟨h.extends_to.eq_none hnone, hdir, hpre⟩

theorem put (hl : t.entryAt? l = some .directory) (hs : Name.IsValid s) (hn : t.entryAt? (l ++ [s]) = none) :
    Made t (l ++ [s]) (t.put (l ++ [s]) .directory) := by
  refine ⟨by simpa using Tree.entryAt?_put_below (r := []) hl hs .directory, fun k hk => ?_⟩
  obtain rfl := Tree.put_only (Or.inl hn) hk
  exact ⟨hn, Tree.put_ne hk, List.prefix_refl _⟩

end Made

variable {above : Unit → FileAction Fault Unit}

/-- In a directory that is there, one with a new name is made. -/
private theorem makeDirectory_made (hp : trimmedSegments p = segs ++ [s]) (hc : checkPath p = .ok ())
    (hstart : t.entryAt? (start cwd p) = some .directory) (h : Towards t (start cwd p) segs l) (hs : IsPlain s)
    (hv : Name.IsValid s) (hl : t.entryAt? l = some .directory) (hn : t.entryAt? (l ++ [s]) = none) :
    makeDirectory cwd p t = (.ok (), t.put (l ++ [s]) .directory) := by
  obtain ⟨cs, hw⟩ := h.walks (.refl t) hl
  have hplace : findPlace t cwd p = .ok (.absent l s false) := by
    refine findPlace_eq_ok_iff.2 ⟨hc, hstart, ?_⟩
    rw [hp]
    exact hw.append rfl (List.cons_ne_nil s []) fun _ =>
      .missing hs hv.2.2.2.2.2 hl (Tree.entryAt?_eq_none_iff.1 hn) rfl
  unfold makeDirectory
  rw [query_bind_ok hplace]
  rfl

/-- A directory is made if those above it can be. -/
theorem makeDirectoryBelow_made (hp : trimmedSegments p = segs ++ [s]) (hc : checkPath p = .ok ())
    (hstart : t.entryAt? (start cwd p) = some .directory) (h : Towards t (start cwd p) segs l) (hs : IsPlain s)
    (hv : Name.IsValid s) (hn : t.entryAt? (l ++ [s]) = none)
    (habove : t.entryAt? l = none → ∃ t₁, above () t = (.ok (), t₁) ∧ Made t l t₁) :
    ∃ t', makeDirectoryBelow cwd p above t = (.ok (), t') ∧ Made t (l ++ [s]) t' := by
  unfold makeDirectoryBelow
  rcases h.none_or with hl | hl
  · -- the first try fails, and so the directories above are made
    have hplace : findPlace t cwd p = .error .noEntry := by
      unfold findPlace
      rw [hc, hp]
      exact h.noEntry hstart hl hv.1
    have hfirst : makeDirectory cwd p t = (.error .noEntry, t) := query_bind_error hplace
    obtain ⟨t₁, h₁, hmade⟩ := habove hl
    have hn₁ : t₁.entryAt? (l ++ [s]) = none := by
      rw [hmade.eq (fun hpre => ?_), hn]
      have hlength := hpre.length_le
      rw [List.length_append, List.length_singleton] at hlength
      omega
    have hsecond := makeDirectory_made hp hc (hmade.kept hstart) (h.extends_to hmade.extends_to hmade.there) hs hv
      hmade.there hn₁
    refine ⟨_, ?_, hmade.trans (.put hmade.there hv hn₁) (List.prefix_append l [s])⟩
    rw [tryCatch_apply_error hfirst, if_pos rfl, bind_apply_ok h₁, tryCatch_apply_ok hsecond]
  · exact ⟨_, tryCatch_apply_ok (makeDirectory_made hp hc hstart h hs hv hl hn), .put hl hv hn⟩

/-- A directory that is there already is left alone. -/
theorem makeDirectoryBelow_existing {cs : List (Name × Node)} (h : stat t cwd p true = .ok (l, .directory cs)) :
    makeDirectoryBelow cwd p above t = (.ok (), t) := by
  obtain ⟨hc, hstart, hw⟩ := find_eq_ok_iff.1 (stat_eq_ok_iff.1 h)
  obtain ⟨es, hes, hp⟩ := Path.segments_trimmed p
  rw [hp] at hw
  have hplace : ∃ k n, findPlace t cwd p = .ok (.present k n) := by
    rcases (hw.strip hstart hes).unfollowed rfl with hw | ⟨k, target, hw⟩
    · exact ⟨_, _, findPlace_eq_ok_iff.2 ⟨hc, hstart, hw⟩⟩
    · exact ⟨_, _, findPlace_eq_ok_iff.2 ⟨hc, hstart, hw⟩⟩
  obtain ⟨k, n, hplace⟩ := hplace
  have hfirst : makeDirectory cwd p t = (.error .alreadyExists, t) := by
    unfold makeDirectory
    rw [query_bind_ok hplace]
    rfl
  unfold makeDirectoryBelow
  rw [tryCatch_apply_error hfirst, if_neg (by simp)]
  dsimp only
  rw [bind_apply_ok (get_apply t), if_pos ⟨rfl, isDirectory_iff.2 ⟨l, cs, h⟩⟩]
  rfl

/-! ### Making the directories above -/

theorem checkPath_eq_ok_iff :
    checkPath p = .ok () ↔ 0 ∉ p.bytes ∧ p.bytes ≠ [] ∧ p.bytes.length ≤ longestPath := by
  unfold checkPath Path.isEmpty
  by_cases hnul : 0 ∈ p.bytes
  · simp [hnul]
  · by_cases hempty : p.bytes = []
    · simp [hempty]
    · by_cases hlong : longestPath < p.bytes.length
      · simp [hnul, hempty, hlong]
      · simp only [List.contains_eq_mem, hnul, hempty, hlong, List.isEmpty_iff, decide_false, Bool.false_eq_true,
          if_false, not_false_iff, ne_eq, true_and, true_iff]
        omega

/-- A segment of a path that the system takes is a valid name, if it stands for one and is not too long. -/
private theorem isValid_of_segment (hc : 0 ∉ p.bytes) (hm : s ∈ p.segments) (hs : IsPlain s)
    (hle : s.length ≤ Name.longest) : Name.IsValid s :=
  hs.isValid hle (isSpelled_of_mem_segments hc hm)

/-- The first of some directories is made if the others can be. -/
private theorem createFirst_cons {above : List Path} (hsegs : p.segments = segs ++ [s]) (hs : IsPlain s)
    (hle : s.length ≤ Name.longest) (hnul : 0 ∉ p.bytes) (hlength : p.bytes.length ≤ longestPath)
    (hstart : t.entryAt? (start cwd p) = some .directory) (h : Towards t (start cwd p) segs l)
    (hn : t.entryAt? (l ++ [s]) = none)
    (habove : t.entryAt? l = none → ∃ t₁, createFirst cwd above t = (.ok (), t₁) ∧ Made t l t₁) :
    ∃ t', createFirst cwd (p :: above) t = (.ok (), t') ∧ Made t (l ++ [s]) t' := by
  have hne : s ≠ [] := fun he => hs.not_idle (by simp [he, Path.isIdle])
  have hmem : s ∈ p.segments := by simp [hsegs]
  have hbytes : p.bytes ≠ [] := by
    intro he
    have hempty : p.segments = [[]] := by simp [Path.segments, he, pieces]
    rw [hempty, List.mem_singleton] at hmem
    exact hne hmem
  rw [createFirst, if_neg (Path.parts_of_not_idle hmem hs.1)]
  exact makeDirectoryBelow_made (Path.trimmedSegments_concat hsegs hne)
    (checkPath_eq_ok_iff.2 ⟨hnul, hbytes, hlength⟩) hstart h hs (isValid_of_segment hnul hmem hs hle) hn habove

/-- The directories at the segments of a path are made one after another, the outermost first. -/
private theorem createFirst_made {absolute : Bool}
    (hslash : ∀ u ∈ first :: others, ∀ c ∈ u, (c == Path.slash) = false) (habsolute : absolute = true → first = [])
    (hstart : ∀ q ∈ Path.heads first absolute others, start cwd q = l₀) (hl₀ : t.entryAt? l₀ = some .directory)
    (hnul : 0 ∉ (Path.assemble first others).bytes)
    (hlength : (Path.assemble first others).bytes.length ≤ longestPath)
    (h : Towards t l₀ (first :: others.reverse) l) (hn : t.entryAt? l = none) :
    ∃ t', createFirst cwd (Path.heads first absolute others) t = (.ok (), t') ∧ Made t l t' := by
  have hsegs := Path.segments_assemble hslash
  induction others generalizing l with
  | nil =>
    -- the first segment is a name in a directory that is there
    have h₀ : Towards t l₀ ([] ++ [first]) l := h
    rcases h₀.init hn with ⟨-, h'⟩ | ⟨hs, hle, l', rfl, h'⟩
    · simp [h'.here] at hn
    have hne : first ≠ [] := fun he => hs.not_idle (by simp [he, Path.isIdle])
    have hpath : Path.assemble first [] = ⟨first⟩ := by simp [Path.assemble, List.intercalate]
    have hheads : Path.heads first absolute [] = [⟨first⟩, ⟨[]⟩] := by
      cases absolute with
      | true => exact absurd (habsolute rfl) hne
      | false => simp [Path.heads, hne]
    rw [hheads] at hstart ⊢
    rw [hpath] at hsegs hnul hlength
    obtain rfl := hstart _ List.mem_cons_self
    exact createFirst_cons hsegs hs hle hnul hlength hl₀ h' hn fun hl' => by simp [h'.here] at hl'
  | cons s before ih =>
    have hbytes := Path.bytes_assemble first s before
    have hslash' : ∀ u ∈ first :: before, ∀ c ∈ u, (c == Path.slash) = false := by
      intro u hu
      rcases List.mem_cons.1 hu with rfl | hu
      · exact hslash u (by simp)
      · exact hslash u (by simp [hu])
    have hnul' : 0 ∉ (Path.assemble first before).bytes := fun hc => hnul (by simp [hbytes, hc])
    have hlength' : (Path.assemble first before).bytes.length ≤ longestPath := by
      rw [hbytes, List.length_append] at hlength
      omega
    have hrow : first :: (s :: before).reverse = first :: before.reverse ++ [s] := by simp
    rw [hrow] at h hsegs
    rcases h.init hn with ⟨hi, h'⟩ | ⟨hs, hle, l', rfl, h'⟩
    · rw [Path.heads, if_pos hi] at hstart ⊢
      exact ih hslash' hstart hnul' hlength' h' hn (Path.segments_assemble hslash')
    · rw [Path.heads, if_neg hs.not_idle] at hstart ⊢
      obtain rfl := hstart _ List.mem_cons_self
      exact createFirst_cons hsegs hs hle hnul hlength hl₀ h' hn fun hl' =>
        ih hslash' (fun q hq => hstart q (List.mem_cons_of_mem _ hq)) hnul' hlength' h' hl'
          (Path.segments_assemble hslash')

/-- A directory that is there already is left alone. -/
theorem createDirectories_existing {cs : List (Name × Node)} (h : stat t cwd p true = .ok (l, .directory cs)) :
    createDirectories cwd p t = (.ok (), t) := by
  unfold createDirectories
  split
  · rfl
  · exact makeDirectoryBelow_existing h

/-- A path whose directory is there or can be made: it leads past directories, and not to a dot behind them. -/
structure Makeable (t : Tree) (cwd : Location) (p : Path) (l : Location) : Prop where
  taken : checkPath p = .ok ()
  startAt : t.entryAt? (start cwd p) = some .directory
  towards : Towards t (start cwd p) p.segments l
  ends : t.entryAt? l = none → (trimmedSegments p).getLast? ≠ some [Path.dot]

/-- Directories are made where they can be. -/
theorem createDirectories_made (h : Makeable t cwd p l) : ∃ t', createDirectories cwd p t = (.ok (), t') ∧ Made t l t' := by
  obtain ⟨hc, hstart, h, hdot⟩ := h
  rcases h.none_or with hn | hl
  · obtain ⟨hnul, -, hlength⟩ := checkPath_eq_ok_iff.1 hc
    obtain ⟨es, hes, hsegs⟩ := Path.segments_trimmed p
    have htrim : Towards t (start cwd p) (trimmedSegments p) l := (hsegs ▸ h).trim hes hn
    rcases List.eq_nil_or_concat' (trimmedSegments p) with hnil | ⟨segs, s, hp⟩
    · rw [hnil] at htrim
      simp [htrim.here] at hn
    rw [hp] at htrim hsegs
    rcases htrim.init hn with ⟨hi, -⟩ | ⟨hs, hle, l', rfl, habove⟩
    · -- the last segment is not empty, and it is no dot either
      have hne := Path.ne_nil_of_trimmed hp
      have hlast := hdot hn
      simp [hp] at hlast
      simp [Path.isIdle, hne, hlast] at hi
    have hmem : s ∈ p.segments := by rw [hsegs]; simp
    unfold createDirectories
    rw [if_neg (Path.parts_of_not_idle hmem hs.1)]
    refine makeDirectoryBelow_made hp hc hstart habove hs (isValid_of_segment hnul hmem hs hle) hn fun hl' => ?_
    cases segs with
    | nil => simp [habove.here] at hl'
    | cons first before =>
      have hheads := Path.ancestors_tail hsegs hs.1 hes
      have hpre : (Path.assemble first before.reverse).bytes <+: p.bytes := by
        rw [← Path.assemble_segments hsegs]
        simpa using Path.bytes_assemble_prefix first (es.reverse ++ [s]) before.reverse
      rw [hheads]
      refine createFirst_made (fun u hu => Path.slash_not_mem (p := p) ?_) (fun ha => ?_) (fun q hq => ?_) hstart
        (fun hc => hnul (hpre.subset hc)) (Nat.le_trans hpre.length_le hlength) (by simpa using habove) hl'
      · rw [hsegs]
        simp only [List.mem_cons, List.mem_reverse] at hu
        simp only [List.cons_append, List.mem_cons, List.mem_append]
        tauto
      · obtain ⟨rest, -, hrest⟩ := Path.isAbsolute_iff.1 ha
        rw [hsegs] at hrest
        exact (List.cons.inj hrest).1
      · unfold start
        rw [Path.isAbsolute_of_mem_ancestors (List.mem_of_mem_tail (hheads ▸ hq))]
  · obtain ⟨cs, hw⟩ := h.walks (.refl t) hl
    exact ⟨t, createDirectories_existing (stat_eq_ok_iff.2 (find_eq_ok_iff.2 ⟨hc, hstart, hw⟩)), .refl hl⟩

namespace Makeable

theorem leadsTo (h : Makeable t cwd p l) : LeadsTo t cwd p l := h.towards.leads

/-- A directory that is there is found. -/
theorem stat_directory (h : Makeable t cwd p l) (hl : t.entryAt? l = some .directory) :
    ∃ cs, stat t cwd p true = .ok (l, .directory cs) := by
  obtain ⟨cs, hw⟩ := h.towards.walks (.refl t) hl
  exact ⟨cs, stat_eq_ok_iff.2 (find_eq_ok_iff.2 ⟨h.taken, h.startAt, hw⟩)⟩

/-- Of a directory that is there any path will do. -/
theorem of_stat {cs : List (Name × Node)} (h : stat t cwd p true = .ok (l, .directory cs)) : Makeable t cwd p l := by
  obtain ⟨hc, hstart, hw⟩ := find_eq_ok_iff.1 (stat_eq_ok_iff.1 h)
  have hl : t.entryAt? l = some .directory := Tree.entryAt?_eq_directory_iff.2 ⟨cs, stat_get? h⟩
  exact ⟨hc, hstart, .of_walks hw hl, by simp [hl]⟩

/-- What has been made is still found when the tree has grown. -/
theorem extends_to (h : Makeable t cwd p l) (ht : t.Extends t') (hl : t'.entryAt? l = some .directory) :
    Makeable t' cwd p l :=
  ⟨h.taken, ht.directory h.startAt, h.towards.extends_to ht hl, by simp [hl]⟩

end Makeable

/-! ### Names in a directory that is found -/

variable {name : Name} {cs : List (Name × Node)} {c : Bytes} {x : Bool}

private theorem checkPath_join (hc : checkPath p = .ok ()) (hv : name.IsValid)
    (hlength : (p.join ⟨name⟩).bytes.length ≤ longestPath) : checkPath (p.join ⟨name⟩) = .ok () := by
  obtain ⟨hnul, -, -⟩ := checkPath_eq_ok_iff.1 hc
  have hslash : (0 : UInt8) ≠ Path.slash := by decide
  refine checkPath_eq_ok_iff.2 ⟨?_, ?_, hlength⟩
  · unfold Path.join
    rw [if_neg (by simp [Path.isAbsolute_name hv])]
    split <;> simp [hnul, hv.2.2.2.2.1, hslash]
  · unfold Path.join
    rw [if_neg (by simp [Path.isAbsolute_name hv])]
    split <;> simp [hv.1]

/-- A walk from a directory that a path names goes on along a name that is joined to the path. -/
theorem find_join (h : stat t cwd p true = .ok (d, .directory cs)) (hv : name.IsValid)
    (hlength : (p.join ⟨name⟩).bytes.length ≤ longestPath) (hw : ∀ links, Walks t followLast links d [name] f) :
    find t cwd (p.join ⟨name⟩) followLast = .ok f := by
  obtain ⟨hc, hstart, hp⟩ := find_eq_ok_iff.1 (stat_eq_ok_iff.1 h)
  obtain ⟨xs, es, hes, hsegs, hj⟩ := Path.segments_join p hv
  have hroot : start cwd (p.join ⟨name⟩) = start cwd p := by unfold start; rw [Path.isAbsolute_join_name p hv]
  rw [hsegs] at hp
  refine find_eq_ok_iff.2 ⟨checkPath_join hc hv hlength, by rwa [hroot], ?_⟩
  rw [hroot, hj]
  exact (hp.strip hstart hes).append rfl (List.cons_ne_nil name []) hw

private theorem isPlain_of_isValid (hv : name.IsValid) : IsPlain name :=
  ⟨by simp [Path.isIdle, hv.1, hv.2.1], hv.2.2.1⟩

theorem stat_join_directory (h : stat t cwd p true = .ok (d, .directory cs))
    (hlength : (p.join ⟨name⟩).bytes.length ≤ longestPath) (hn : t.entryAt? (d ++ [name]) = some .directory) :
    ∃ cs, stat t cwd (p.join ⟨name⟩) true = .ok (d ++ [name], .directory cs) := by
  have hv : name.IsValid := Tree.isValid_of_entryAt? hn name (by simp)
  obtain ⟨ds, hds⟩ := Tree.entryAt?_eq_directory_iff.1 hn
  exact ⟨ds, stat_eq_ok_iff.2 (find_join h hv hlength fun _ =>
    .enter (isPlain_of_isValid hv) hv.2.2.2.2.2 hds (.here hds))⟩

theorem stat_join_file (h : stat t cwd p true = .ok (d, .directory cs))
    (hlength : (p.join ⟨name⟩).bytes.length ≤ longestPath) (hn : t.entryAt? (d ++ [name]) = some (.file c x)) :
    stat t cwd (p.join ⟨name⟩) true = .ok (d ++ [name], .file c x) := by
  have hv : name.IsValid := Tree.isValid_of_entryAt? hn name (by simp)
  exact stat_eq_ok_iff.2 (find_join h hv hlength fun _ =>
    .file (isPlain_of_isValid hv) hv.2.2.2.2.2 (Tree.entryAt?_eq_file_iff.1 hn))

/-- A file is created in a directory that is found, or emptied there. -/
theorem createFile_join (h : stat t cwd p true = .ok (d, .directory cs)) (hv : name.IsValid)
    (hlength : (p.join ⟨name⟩).bytes.length ≤ longestPath) (hw : t.Writable (d ++ [name])) :
    ∃ x, createFile cwd (p.join ⟨name⟩) t = (.ok (d ++ [name]), t.put (d ++ [name]) (.file [] x)) := by
  have hs := isPlain_of_isValid hv
  have hd : t.entryAt? d = some .directory := Tree.entryAt?_eq_directory_iff.2 ⟨cs, stat_get? h⟩
  unfold createFile
  rcases hw with hn | ⟨c, x, hn⟩
  · have hfind : find t cwd (p.join ⟨name⟩) true = .ok (.absent d name false) := find_join h hv hlength fun _ =>
      .missing hs hv.2.2.2.2.2 hd (Tree.entryAt?_eq_none_iff.1 hn) rfl
    rw [query_bind_ok hfind]
    exact ⟨false, rfl⟩
  · rw [query_bind_ok (stat_eq_ok_iff.1 (stat_join_file h hlength hn))]
    exact ⟨x, rfl⟩

/-- Below a directory that can be made, another one can be made under a name that is free. -/
theorem Makeable.join (h : Makeable t cwd p l) (hv : name.IsValid)
    (hlength : (p.join ⟨name⟩).bytes.length ≤ longestPath)
    (hn : t.entryAt? (l ++ [name]) = none ∨ t.entryAt? (l ++ [name]) = some .directory) :
    Makeable t cwd (p.join ⟨name⟩) (l ++ [name]) := by
  obtain ⟨xs, es, hes, hsegs, hj⟩ := Path.segments_join p hv
  have hroot : start cwd (p.join ⟨name⟩) = start cwd p := by unfold start; rw [Path.isAbsolute_join_name p hv]
  have htowards := h.towards
  rw [hsegs] at htowards
  refine ⟨checkPath_join h.taken hv hlength, by rw [hroot]; exact h.startAt, ?_, fun _ => ?_⟩
  · rw [hroot, hj]
    exact (htowards.strip h.startAt hes).concat (isPlain_of_isValid hv) hv.2.2.2.2.2 hn
  · rw [Path.trimmedSegments_concat hj hv.1]
    simpa using hv.2.1

end GradleBuild.Files
