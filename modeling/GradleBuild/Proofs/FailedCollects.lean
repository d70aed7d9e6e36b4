import GradleBuild.Proofs.Copiers
import GradleBuild.Proofs.Steps

/-!
# Collects that fail

A copy can be stopped at any point, by what stands in its way or by a system that refuses something for reasons of its
own.  What has been done by then stays.  `Refusals` says what is refused; a copy under them has the same parts as any
other.  A part that is refused has done nothing, with two exceptions: directories may have been made above one that is
refused, and a file may be refused when its target is open already, and so empty, because its permissions cannot be set.

Between places that lie apart, each place is at any time of the walk as it was, or a new directory, or a complete copy
(`Halfway`).  Each part that does not fail keeps this, and so does the walk.  Where it stops, one file may be left
empty.

* `copyUnder_stopped`: what a copy that fails has done, and where it has stopped.
* `Step.collect_undamaged`: the same of a collect step.
* `Undamaged.of_byName`: if only directories above the target are missing, the source is as it was.
-/

namespace GradleBuild

namespace Files

variable {t t' s s' : Tree} {cwd a b k q r : Location} {source destination p : Path} {refuses : Refusals}
  {c : Cause} {cut : Option Location}

/-! ### Copies that may be refused -/

/-- How the copy of a file is refused. -/
inductive CopyRefusal where
  /-- Before anything has been done. -/
  | outright (fault : Fault)
  /-- When the target has been opened, which empties it or makes it; this is its execute permission by then. -/
  | opened (executable : Bool) (fault : Fault)

/-- What the system refuses for reasons that a tree does not show, such as permissions. -/
structure Refusals where
  /-- The making of a directory, once those above it have been made but for the innermost ones of this number. -/
  create : Path → Tree → Option (Nat × Fault)
  list : Path → Tree → Option Fault
  /-- The way to an entry of a directory, or to its end, when it has been opened. -/
  next : Path → Option Name → Tree → Option Fault
  kind : Path → Tree → Option Fault
  copy : Path → Path → Tree → Option CopyRefusal

/-- Nothing is refused. -/
def Refusals.none : Refusals where
  create _ _ := .none
  list _ _ := .none
  next _ _ _ := .none
  kind _ _ := .none
  copy _ _ _ := .none

/-- An action that may be refused before it has done anything. -/
def refusable {α : Type} (refusal : Tree → Option Fault) (act : FileAction Fault α) : FileAction Fault α := fun t =>
  match refusal t with
  | some fault => (.error fault, t)
  | none => act t

theorem of_refusable {α : Type} {refusal : Tree → Option Fault} {act : FileAction Fault α} {r : Except Fault α}
    (h : refusable refusal act s = (r, s')) : (∃ fault, r = .error fault) ∧ s' = s ∨ act s = (r, s') := by
  unfold refusable at h
  split at h
  · obtain ⟨rfl, rfl⟩ := Prod.mk.inj h
    exact Or.inl ⟨⟨_, rfl⟩, rfl⟩
  · exact Or.inr h

/-- Open the target of a file to be copied, and fail with it open. -/
def openTarget (cwd : Location) (source target : Path) (executable : Bool) (fault : Fault) :
    FileAction Fault Unit := do
  match ← query (stat · cwd source true) with
  | (_, .file ..) => do
    let l ← createFile cwd target
    modify (·.put l (.file [] executable))
    throw fault
  | _ => throw .notRegular

theorem openTarget_cases (cwd : Location) (source target : Path) (x : Bool) (fault : Fault) (t : Tree) :
    (∃ k y, LeadsTo t cwd target k ∧ t.Writable k ∧
      openTarget cwd source target x fault t = (.error fault, (t.put k (.file [] y)).put k (.file [] x))) ∨
    ∃ e, openTarget cwd source target x fault t = (.error e, t) := by
  unfold openTarget
  rcases hstat : stat t cwd source true with e | ⟨l, n⟩
  · exact Or.inr ⟨e, query_bind_error hstat⟩
  · rw [query_bind_ok hstat]
    cases n with
    | file =>
      rcases createFile_cases cwd target t with ⟨k, y, hk, hw, hcreate⟩ | ⟨e, hcreate⟩
      · exact Or.inl ⟨k, y, hk, hw, by dsimp only; rw [bind_apply_ok hcreate]; rfl⟩
      · exact Or.inr ⟨e, bind_apply_error hcreate⟩
    | directory | link => exact Or.inr ⟨.notRegular, rfl⟩

/-- The parts of a copy that may be refused. -/
def Copier.guarded (refuses : Refusals) (cwd : Location) : Copier Tree where
  enter := id
  create p := onPath p fun t =>
    match refuses.create p t with
    | some (n, fault) => (.error fault, (createFirst cwd (p.ancestors.tail.drop n) t).2)
    | none => createDirectories cwd p t
  list p := onPath p (refusable (refuses.list p) (Files.list cwd p))
  next p name := onPath p (refusable (refuses.next p name) (pure ()))
  kind p := onPath p (refusable (refuses.kind p) (pure ()))
  copy p q := onPath p fun t =>
    match refuses.copy p q t with
    | some (.outright fault) => (.error fault, t)
    | some (.opened executable fault) => openTarget cwd p q executable fault t
    | none => copyFile cwd p q t

/-- Copy everything below `source` into `destination`, as far as it is not refused. -/
def copyUnder (refuses : Refusals) (cwd : Location) (source destination : Path) : FileAction Cause CopyStats :=
  (Copier.guarded refuses cwd).levels (longestPath + 2) source destination

theorem copyUnder_none (cwd : Location) (source destination : Path) :
    copyUnder .none cwd source destination = copyDirectory cwd source destination :=
  Copier.plain_levels cwd (longestPath + 2) source destination

/-- The error of a part names its path. -/
theorem Copier.StopsAt.fileFault {D L : Location → Prop} {I : Tree → Prop}
    (h : (guarded refuses cwd).StopsAt source destination D L I c s' p) : ∃ fault, c = .fileFault p.display fault := by
  cases h with
  | create _ _ h => exact of_onPath_error h
  | list _ _ h => exact of_onPath_error h
  | next _ _ h => exact of_onPath_error h
  | kind _ _ h => exact of_onPath_error h
  | copy _ _ h => exact of_onPath_error h

/-- However far the making of a directory gets, it fills gaps in the way of its path. -/
private theorem guarded_create {r : Except Cause Unit} (h : (Copier.guarded refuses cwd).create p s = (r, s')) :
    s.Grows (Gap s cwd p) s' ∧ s.GainsDirectories s' := by
  obtain ⟨r₁, h, -⟩ := of_onPath h
  split at h
  · obtain ⟨-, rfl⟩ := Prod.mk.inj h
    refine ⟨createFirst_grows (fun q hq k hk hn => ⟨?_, hn⟩) rfl, createFirst_gains rfl⟩
    exact onWay_of_mem_ancestors (List.mem_of_mem_tail (List.mem_of_mem_drop hq)) hk
  · exact ⟨createDirectories_grows (fun k hk hn => ⟨hk, hn⟩) h, createDirectories_gains h⟩

private theorem guarded_list {r : Except Cause (List (Name × Bool))}
    (h : (Copier.guarded refuses cwd).list p s = (r, s')) : s' = s ∧ ∀ es, r = .ok es →
      ∃ l cs, stat s cwd p true = .ok (l, .directory cs) ∧ es = cs.map fun (name, n) => (name, n.isDirectory) := by
  obtain ⟨r₁, h, hok⟩ := of_onPath h
  rcases of_refusable h with ⟨⟨fault, rfl⟩, rfl⟩ | hlist
  · exact ⟨rfl, fun es hes => nomatch hok es hes⟩
  · obtain ⟨rfl, hcases⟩ := list_cases hlist
    exact ⟨rfl, fun es hes => hcases es (hok es hes)⟩

/-- What is asked for on the way changes nothing, refused or not. -/
private theorem of_refusable_pure {refusal : Tree → Option Fault} {r : Except Cause Unit}
    (h : onPath p (refusable refusal (pure ())) s = (r, s')) : s' = s := by
  obtain ⟨r₁, h, -⟩ := of_onPath h
  rcases of_refusable h with ⟨-, rfl⟩ | h
  · rfl
  · exact (Prod.mk.inj h).2.symm

/-- The copy of a file is done, or not begun, or refused when its target is open. -/
private theorem guarded_copy {r : Except Cause Unit} (h : (Copier.guarded refuses cwd).copy p destination s = (r, s')) :
    s' = s ∨ s' = (copyFile cwd p destination s).2 ∨ (∃ c, r = .error c) ∧ ∃ x fault,
      refuses.copy p destination s = some (.opened x fault) ∧
        s' = (openTarget cwd p destination x fault s).2 := by
  obtain ⟨r₁, h, hok⟩ := of_onPath h
  split at h
  · obtain ⟨-, rfl⟩ := Prod.mk.inj h
    exact Or.inl rfl
  · rename_i x fault hrefused
    refine Or.inr (Or.inr ⟨?_, x, fault, hrefused, by rw [h]⟩)
    cases hr : r with
    | error c => exact ⟨c, rfl⟩
    | ok u =>
      rw [hok u hr] at h
      rcases openTarget_cases cwd p destination x fault s with ⟨k, y, -, -, hopen⟩ | ⟨e, hopen⟩
      all_goals
        rw [hopen] at h
        cases h
  · exact Or.inr (Or.inl (by rw [h]))

/-- A new file at `k`, in place of one that may be there, changes nothing else. -/
private theorem grows_put_put {k : Location} {c : Bytes} {x y : Bool} (hw : s.Writable k) :
    s.Grows (· = k) ((s.put k (.file [] y)).put k (.file c x)) :=
  (Tree.grows_put_file (K := (· = k)) hw rfl [] y).trans
    (Tree.grows_put_file (K := (· = k)) (Tree.writable_put hw [] y) rfl c x)

/-! ### Half of a copy -/

/-- Source and target lie apart, and no link is in the target or leads there from the source. -/
structure Separate (t : Tree) (cwd : Location) (source destination : Path) (a b : Location) : Prop where
  sourceAt : LeadsTo t cwd source a
  targetAt : LeadsTo t cwd destination b
  outside : ¬ a <+: b
  apart : ¬ b <+: a
  noLinks : ∀ r target, t.entryAt? (b ++ r) ≠ some (.link target)
  links : ∀ r target l, t.entryAt? (a ++ r) = some (.link target) →
    Leads t (linkBase (a ++ r).dropLast target) target.segments l → ¬ b <+: l

/-- A directory of the source, or one that comes up there when a gap is filled. -/
def SourceDirectory (t : Tree) (cwd : Location) (destination : Path) (a r : Location) : Prop :=
  t.entryAt? (a ++ r) = some .directory ∨ Gap t cwd destination (a ++ r)

/-- The file that is read in the source, and that is what it was in the tree `t`, has been copied completely. -/
structure Complete (t s : Tree) (cwd : Location) (source : Path) (a b r : Location) : Prop where
  leaf : IsLeaf t a r
  copied : ∃ l c x, stat s cwd (source.below r) true = .ok (l, .file c x) ∧ t.entryAt? l = some (.file c x) ∧
    ¬ b <+: l ∧ s.entryAt? (b ++ r) = some (.file c x)

/-- What a place that has changed holds: a directory where the copy makes one, or a complete copy, or nothing yet if it
is the file that the copy has been cut off at. -/
def Changed (t s : Tree) (cwd : Location) (source destination : Path) (a b : Location) (cut : Option Location)
    (k : Location) : Prop :=
  (t.entryAt? k = none ∧ s.entryAt? k = some .directory ∧
    (Gap t cwd destination k ∨ ∃ r, k = b ++ r ∧ SourceDirectory t cwd destination a r)) ∨
  (∃ r, k = b ++ r ∧ Complete t s cwd source a b r) ∨
  ∃ r x, cut = some r ∧ k = b ++ r ∧ s.entryAt? k = some (.file [] x)

/-- Between the tree `t` at the start and the tree `s` part of a copy has been done, which may have been cut off at a
file. -/
structure Halfway (t : Tree) (cwd : Location) (source destination : Path) (a b : Location) (cut : Option Location)
    (s : Tree) : Prop where
  kept : t.Extends s
  sameLinks : t.SameLinks s
  only : ∀ k, s.entryAt? k ≠ t.entryAt? k → Changed t s cwd source destination a b cut k

namespace Halfway

theorem refl (t : Tree) : Halfway t cwd source destination a b none t :=
  ⟨.refl t, .refl t, fun _ hk => absurd rfl hk⟩

/-- One step more keeps what has been copied so far. -/
theorem advance (h : Halfway t cwd source destination a b none s) (hkept : s.Extends s') (hlinks : s.SameLinks s')
    (hnew : ∀ k, s'.entryAt? k ≠ s.entryAt? k → Changed t s' cwd source destination a b cut k) :
    Halfway t cwd source destination a b cut s' := by
  refine ⟨h.kept.trans hkept, h.sameLinks.trans hlinks, fun k hk => ?_⟩
  by_cases hks : s'.entryAt? k = s.entryAt? k
  · rw [hks] at hk
    rcases h.only k hk with ⟨hn, hd, hplace⟩ | ⟨r, rfl, hleaf, l, c, x, hstat, hl, hb, hcopy⟩ | ⟨r, x, hcut, -⟩
    · exact Or.inl ⟨hn, hks.trans hd, hplace⟩
    · refine Or.inr (Or.inl ⟨r, rfl, hleaf, l, c, x, stat_file_extends hkept hstat ?_, hl, hb, hks.trans hcopy⟩)
      -- the file that has been read is outside the target, where no file changes
      have hfile := Tree.entryAt?_eq_file_iff.2 (stat_get? hstat)
      by_contra hne
      rcases hnew l (by rwa [hfile]) with ⟨hn, -⟩ | ⟨r', rfl, -⟩ | ⟨r', -, -, rfl, -⟩
      · simp [hn] at hl
      · exact hb (List.prefix_append b r')
      · exact hb (List.prefix_append b r')
    · cases hcut
  · exact hnew k hks

/-- Outside the target only directories are new. -/
theorem eq_or_gap (h : Halfway t cwd source destination a b cut s) (hk : ¬ b <+: k) :
    s.entryAt? k = t.entryAt? k ∨ Gap t cwd destination k ∧ s.entryAt? k = some .directory := by
  by_cases heq : s.entryAt? k = t.entryAt? k
  · exact Or.inl heq
  · rcases h.only k heq with ⟨-, hd, hgap | ⟨r, rfl, -⟩⟩ | ⟨r, rfl, -⟩ | ⟨r, -, -, rfl, -⟩
    · exact Or.inr ⟨hgap, hd⟩
    all_goals exact absurd (List.prefix_append b r) hk

end Halfway

/-- The source has a directory at some point of the copy. -/
def Present (t : Tree) (cwd : Location) (source destination : Path) (a b r : Location) : Prop :=
  ∃ s, Halfway t cwd source destination a b none s ∧ s.entryAt? (a ++ r) = some .directory

theorem Present.valid (h : Present t cwd source destination a b r) : ∀ n ∈ r, n.IsValid := by
  obtain ⟨s, -, hr⟩ := h
  exact fun n hn => Tree.isValid_of_entryAt? hr n (List.mem_append_right a hn)

theorem Present.of_prefix (h : Present t cwd source destination a b r) (hq : q <+: r) :
    Present t cwd source destination a b q := by
  obtain ⟨s, hs, hr⟩ := h
  exact ⟨s, hs, Tree.directory_above ((List.prefix_append_right_inj a).2 hq) hr⟩

section

variable (hsep : Separate t cwd source destination a b)

include hsep

/-- Nothing of the source is in the target. -/
theorem Separate.not_target (r : Location) : ¬ b <+: a ++ r :=
  not_prefix_of_apart ⟨hsep.outside, hsep.apart⟩ (List.prefix_append a r)

theorem Separate.targetBelow (hv : ∀ n ∈ r, n.IsValid) : LeadsTo t cwd (destination.below r) (b ++ r) :=
  leadsTo_below hsep.targetAt hv fun l target _ _ => hsep.noLinks l target

theorem Present.sourceDirectory (h : Present t cwd source destination a b r) :
    SourceDirectory t cwd destination a r := by
  obtain ⟨s, hs, hr⟩ := h
  rcases hs.eq_or_gap (hsep.not_target r) with heq | ⟨hgap, -⟩
  · exact Or.inl (heq ▸ hr)
  · exact Or.inr hgap

/-- No link is above a directory of the source. -/
theorem Present.sourceBelow (h : Present t cwd source destination a b r) :
    LeadsTo t cwd (source.below r) (a ++ r) := by
  refine leadsTo_below hsep.sourceAt h.valid fun l target _ hl hlink => ?_
  obtain ⟨s, hs, hr⟩ := h
  have hd := Tree.directory_above ((List.prefix_append_right_inj a).2 hl) hr
  rw [(hs.sameLinks _ _).1 hlink] at hd
  cases hd

/-! ### What the parts keep -/

private theorem create_halfway {r : Except Cause Unit} (hq : Present t cwd source destination a b q)
    (hs : Halfway t cwd source destination a b none s)
    (h : (Copier.guarded refuses cwd).create (destination.below q) s = (r, s')) :
    Halfway t cwd source destination a b none s' := by
  obtain ⟨hgrows, hgains⟩ := guarded_create h
  refine hs.advance hgrows.kept hgrows.sameLinks fun k hk => Or.inl ?_
  obtain ⟨hway, hn⟩ := hgrows.only k hk
  have hn := hs.kept.eq_none hn
  refine ⟨hn, hgains k hk, ?_⟩
  rcases onWay_below hsep.targetAt hq.valid (fun l target _ _ => hsep.noLinks l target)
    (hway.sameLinks hs.sameLinks.symm) with hway | ⟨m, hm, rfl⟩
  · exact Or.inl ⟨hway, hn⟩
  · exact Or.inr ⟨m, rfl, (hq.of_prefix hm).sourceDirectory hsep⟩

/-- What is listed in the source is there, or has been when the copy began. -/
private theorem list_listing {es : List (Name × Bool)} (hq : Present t cwd source destination a b q)
    (hs : Halfway t cwd source destination a b none s)
    (h : (Copier.guarded refuses cwd).list (source.below q) s = (.ok es, s')) :
    Copier.Listing (Present t cwd source destination a b) (IsLeaf t a) q es := by
  obtain ⟨rfl, hok⟩ := guarded_list h
  obtain ⟨l, cs, hstat, rfl⟩ := hok es rfl
  obtain rfl := (stat_leadsTo hstat (Or.inl rfl)).unique ((hq.sourceBelow hsep).sameLinks hs.sameLinks)
  refine .of_stat hq.valid hstat (fun name hn => ⟨s', hs, by rwa [← List.append_assoc]⟩) fun name e he hne => ?_
  rw [List.append_assoc] at he
  rcases hs.eq_or_gap (hsep.not_target (q ++ [name])) with heq | ⟨-, hdir⟩
  · exact ⟨e, heq ▸ he, hne⟩
  · exact absurd (Option.some.inj (he.symm.trans hdir)) hne

/-- A file is read outside the target. -/
private theorem read_outside {l : Location} (hr : IsLeaf t a r) (h : LeadsTo t cwd (source.below r) l) : ¬ b <+: l := by
  rcases read_cases hsep.sourceAt hr h with rfl | ⟨target, hlink, hl⟩
  · exact hsep.not_target r
  · exact hsep.links r target l hlink hl

private theorem copyFile_halfway (hq : IsLeaf t a q) (hs : Halfway t cwd source destination a b none s)
    (h : s' = (copyFile cwd (source.below q) (destination.below q) s).2) :
    Halfway t cwd source destination a b none s' := by
  rcases copyFile_cases cwd (source.below q) (destination.below q) s with
    ⟨l, c, x, k, y, hstat, hk, hw, hcopy⟩ | ⟨e, hcopy⟩
  swap
  · rw [h, hcopy]
    exact hs
  obtain rfl := hk.unique ((hsep.targetBelow (isValid_of_isLeaf hq)).sameLinks hs.sameLinks)
  have hout := read_outside hsep hq ((stat_leadsTo hstat (Or.inl rfl)).sameLinks hs.sameLinks.symm)
  have hnot : ¬ b ++ q <+: l := fun hp => hout ((List.prefix_append b q).trans hp)
  -- the file that is read is not the one that has been emptied
  have hfile : s.entryAt? l = some (.file c x) := Tree.entryAt?_eq_file_iff.2 (stat_get? hstat)
  rw [hcopy] at h
  dsimp only at h
  rw [Tree.entryAt?_put hnot, hfile] at h
  dsimp only at h
  subst h
  have hgrows := grows_put_put (c := c) (x := x) (y := y) hw
  refine hs.advance hgrows.kept hgrows.sameLinks fun k hk => ?_
  obtain rfl := hgrows.only k hk
  refine Or.inr (Or.inl ⟨q, rfl, hq, l, c, x, stat_file_extends hgrows.kept hstat ?_, ?_, hout, ?_⟩)
  · rw [Tree.entryAt?_put hnot, Tree.entryAt?_put hnot, hfile]
  · rcases hs.eq_or_gap hout with heq | ⟨-, hd⟩
    · exact heq ▸ hfile
    · simp [hfile] at hd
  · exact Tree.entryAt?_put_put hk

/-- A copy that is refused with its target open leaves that one empty. -/
private theorem openTarget_halfway {x : Bool} {fault : Fault} (hq : IsLeaf t a q)
    (hs : Halfway t cwd source destination a b none s)
    (h : s' = (openTarget cwd (source.below q) (destination.below q) x fault s).2) :
    Halfway t cwd source destination a b (some q) s' := by
  rcases openTarget_cases cwd (source.below q) (destination.below q) x fault s with ⟨k, y, hk, hw, hopen⟩ | ⟨e, hopen⟩
  swap
  · rw [h, hopen]
    exact hs.advance (.refl s) (.refl s) fun k hk => absurd rfl hk
  obtain rfl := hk.unique ((hsep.targetBelow (isValid_of_isLeaf hq)).sameLinks hs.sameLinks)
  rw [hopen] at h
  dsimp only at h
  subst h
  have hgrows := grows_put_put (c := []) (x := x) (y := y) hw
  refine hs.advance hgrows.kept hgrows.sameLinks fun k hk => ?_
  obtain rfl := hgrows.only k hk
  exact Or.inr (Or.inr ⟨q, x, rfl, rfl, Tree.entryAt?_put_put hk⟩)

/-- The parts that do not fail keep what has been done so far. -/
private theorem guarded_keeps : (Copier.guarded refuses cwd).Keeps source destination
    (Present t cwd source destination a b) (IsLeaf t a) (Halfway t cwd source destination a b none) where
  enter hs := hs
  create hq hs h := create_halfway hsep hq hs h
  list hq hs h := ⟨(guarded_list h).1 ▸ hs, list_listing hsep hq hs h⟩
  next _ hs h := of_refusable_pure h ▸ hs
  kind _ hs h := of_refusable_pure h ▸ hs
  copy hq hs h := by
    rcases guarded_copy h with rfl | h | ⟨⟨c, hc⟩, -⟩
    · exact hs
    · exact copyFile_halfway hsep hq hs h
    · cases hc

end

/-- The copy has stopped at the path `p`, which is that of the file `q`: its target was open when the system refused
to go on. -/
structure CutAt (refuses : Refusals) (t : Tree) (cwd : Location) (source destination : Path) (a b : Location) (p : Path)
    (q : Location) : Prop where
  path : p = source.below q
  leaf : IsLeaf t a q
  refused : ∃ s x fault, Halfway t cwd source destination a b none s ∧
    refuses.copy (source.below q) (destination.below q) s = some (.opened x fault)

/-- Where a copy has stopped, what has been done is half of it. -/
private theorem Copier.StopsAt.halfway (hsep : Separate t cwd source destination a b)
    (h : (Copier.guarded refuses cwd).StopsAt source destination (Present t cwd source destination a b) (IsLeaf t a)
      (Halfway t cwd source destination a b none) c t' p) :
    ∃ cut, Halfway t cwd source destination a b cut t' ∧
      ∀ q, cut = some q → CutAt refuses t cwd source destination a b p q := by
  cases h with
  | create hq hs h => exact ⟨none, create_halfway hsep hq hs h, by simp⟩
  | list hq hs h => exact ⟨none, (guarded_list h).1 ▸ hs, by simp⟩
  | next _ hs h => exact ⟨none, of_refusable_pure h ▸ hs, by simp⟩
  | kind _ hs h => exact ⟨none, of_refusable_pure h ▸ hs, by simp⟩
  | @copy q s hq hs h =>
    rcases guarded_copy h with rfl | h | ⟨-, x, fault, hrefused, h⟩
    · exact ⟨none, hs, by simp⟩
    · exact ⟨none, copyFile_halfway hsep hq hs h, by simp⟩
    · refine ⟨some q, openTarget_halfway hsep hq hs h, ?_⟩
      rintro _ ⟨rfl⟩
      exact ⟨rfl, hq, s, x, fault, hs, hrefused⟩

/-- A copy that fails names the path where it has stopped, in the source or in the target, and has done half of its
work. -/
theorem copyUnder_stopped (hsep : Separate t cwd source destination a b) (ha : t.entryAt? a = some .directory)
    (h : copyUnder refuses cwd source destination t = (.error c, t')) : ∃ p fault cut, c = .fileFault p.display fault ∧
      (Copier.guarded refuses cwd).StopsAt source destination (SourceDirectory t cwd destination a) (IsLeaf t a)
        (Halfway t cwd source destination a b none) c t' p ∧
      Halfway t cwd source destination a b cut t' ∧
      ∀ q, cut = some q → CutAt refuses t cwd source destination a b p q := by
  obtain ⟨p, hp⟩ := (guarded_keeps hsep).stopped ⟨t, .refl t, by simpa using ha⟩ (.refl t) h
  obtain ⟨fault, hc⟩ := hp.fileFault
  obtain ⟨cut, hcut⟩ := hp.halfway hsep
  exact ⟨p, fault, cut, hc, hp.mono fun q hq => hq.sourceDirectory hsep, hcut⟩

/-! ### What is left -/

/-- A copy between `a` and `b`, complete or not, has damaged nothing but the file, if any, that it was cut off at. -/
structure Undamaged (t : Tree) (cwd : Location) (source destination : Path) (a b : Location) (cut : Option Location)
    (t' : Tree) : Prop where
  /-- Nothing has been removed, and no link is new. -/
  kept : t.Extends t'
  sameLinks : t.SameLinks t'
  /-- Each place of the target holds what it held, or a new directory where the source has one or a gap was filled, or
  a complete copy; the file that the copy was cut off at may be empty. -/
  target : ∀ r, t'.entryAt? (b ++ r) = t.entryAt? (b ++ r) ∨
    (t.entryAt? (b ++ r) = none ∧ t'.entryAt? (b ++ r) = some .directory ∧
      (SourceDirectory t cwd destination a r ∨ Gap t cwd destination (b ++ r))) ∨
    Complete t t' cwd source a b r ∨
    cut = some r ∧ ∃ x, t'.entryAt? (b ++ r) = some (.file [] x)
  /-- Elsewhere, and so in the source, only gaps have been filled. -/
  elsewhere : ∀ k, ¬ b <+: k → t'.entryAt? k = t.entryAt? k ∨
    Gap t cwd destination k ∧ t'.entryAt? k = some .directory

theorem Halfway.undamaged (h : Halfway t cwd source destination a b cut t') :
    Undamaged t cwd source destination a b cut t' where
  kept := h.kept
  sameLinks := h.sameLinks
  target r := by
    by_cases heq : t'.entryAt? (b ++ r) = t.entryAt? (b ++ r)
    · exact Or.inl heq
    rcases h.only _ heq with ⟨hn, hd, hplace⟩ | ⟨r', he, hcopy⟩ | ⟨r', x, hcut, he, hempty⟩
    · refine Or.inr (Or.inl ⟨hn, hd, ?_⟩)
      rcases hplace with hgap | ⟨r', he, hr'⟩
      · exact Or.inr hgap
      · exact Or.inl (List.append_cancel_left he ▸ hr')
    · exact Or.inr (Or.inr (Or.inl (List.append_cancel_left he ▸ hcopy)))
    · exact Or.inr (Or.inr (Or.inr ⟨List.append_cancel_left he ▸ hcut, x, hempty⟩))
  elsewhere _ hk := h.eq_or_gap hk

/-- If the target is named from a directory that is there, gaps are above it only: the source is as it was, and each
place of the target holds what it held, or a new directory where the source has one, or a complete copy, or nothing
where the copy was cut off. -/
theorem Undamaged.of_byName (hsep : Separate t cwd source destination a b) (ha : t.entryAt? a = some .directory)
    (hname : ByName t cwd destination b) (h : Undamaged t cwd source destination a b cut t') :
    (∀ r, t'.entryAt? (a ++ r) = t.entryAt? (a ++ r)) ∧ ∀ r, t'.entryAt? (b ++ r) = t.entryAt? (b ++ r) ∨
      (t.entryAt? (b ++ r) = none ∧ t'.entryAt? (b ++ r) = some .directory ∧ t.entryAt? (a ++ r) = some .directory) ∨
      Complete t t' cwd source a b r ∨ cut = some r ∧ ∃ x, t'.entryAt? (b ++ r) = some (.file [] x) := by
  have hgap {r : Location} : ¬ Gap t cwd destination (a ++ r) := fun hgap =>
    hsep.outside ((List.prefix_append a r).trans (hname.way hgap.1 hgap.2))
  refine ⟨fun r => (h.elsewhere _ (hsep.not_target r)).resolve_right fun hr => hgap hr.1, fun r => ?_⟩
  rcases h.target r with heq | ⟨hn, hd, hplace⟩ | hrest
  · exact Or.inl heq
  · refine Or.inr (Or.inl ⟨hn, hd, ?_⟩)
    rcases hplace with (hr | hr) | hr
    · exact hr
    · exact absurd hr hgap
    · -- only the target itself can be such a gap
      have hlength := (hname.way hr.1 hr.2).length_le
      rw [List.length_append] at hlength
      obtain rfl : r = [] := List.eq_nil_of_length_eq_zero (by omega)
      rwa [List.append_nil]
  · exact Or.inr (Or.inr hrest)

end Files

/-! ### The collect step -/

namespace Step

open Files (Separate Undamaged Halfway CutAt SourceDirectory IsLeaf Refusals copyUnder leads_lexical)

variable {p : Project} {s : Surroundings} {m m' : Machine} {source destination : Path} {a b : Location}
  {refuses : Refusals} {f : Failure}

/-- A collect step, as far as it is not refused. -/
def collectUnder (refuses : Refusals) (p : Project) (s : Surroundings) (source destination : Path) : Run Unit := do
  if p.dry then
    Run.log .info .step ("[dry-run] Would copy " ++ source.display ++ " into " ++ destination.display)
  else if Files.isDirectory (← get).tree s.cwd source then do
    let stats ← Run.onFiles (copyUnder refuses s.cwd source destination)
    if stats.files = 0 then Run.log .warn .step "no artifacts to collect" [.of "source" source.display]
    else
      Run.log .info .step "artifacts collected"
        [.of "files" (toString stats.files), .of "destination" destination.display]
  else Run.fail (.pathNotFound source.display)

theorem collectUnder_none (p : Project) (s : Surroundings) (source destination : Path) :
    collectUnder .none p s source destination = (Step.collect source destination).run p s := by
  unfold collectUnder
  rw [Files.copyUnder_none]
  rfl

/-- A collect step fails because its source is no directory, or because its copy does. -/
private theorem collectUnder_error (h : collectUnder refuses p s source destination m = (.error f, m')) :
    (Files.isDirectory m.tree s.cwd source = false ∧ m' = m ∧ f = .of (.pathNotFound source.display)) ∨
      Files.isDirectory m.tree s.cwd source = true ∧ ∃ c, f = .of c ∧
        copyUnder refuses s.cwd source destination m.tree = (.error c, m'.tree) := by
  unfold collectUnder at h
  split at h
  · cases h
  rw [bind_apply_ok (get_apply m)] at h
  split at h
  · rename_i hd
    refine Or.inr ⟨hd, ?_⟩
    rcases hcopy : copyUnder refuses s.cwd source destination m.tree with ⟨c | stats, t⟩
    · rw [bind_apply_error (Run.onFiles_error hcopy)] at h
      obtain ⟨he, rfl⟩ := Prod.mk.inj h
      exact ⟨c, (Except.error.inj he).symm, rfl⟩
    · rw [bind_apply_ok (Run.onFiles_ok hcopy)] at h
      split at h <;> cases h
  · rename_i hd
    obtain ⟨he, rfl⟩ := Prod.mk.inj h
    exact Or.inl ⟨by simpa using hd, rfl, (Except.error.inj he).symm⟩

/-- A collect step that fails has damaged nothing, whatever stood in its way or was refused, but for one file: if the
walk has stopped at a file whose target was open already, that target may be empty.  If the source is no directory,
nothing has changed at all; else the error names the path where the walk has stopped. -/
theorem collect_undamaged (hsep : Separate m.tree s.cwd source destination a b)
    (h : collectUnder refuses p s source destination m = (.error f, m')) :
    (Files.isDirectory m.tree s.cwd source = false ∧ m' = m ∧ f = .of (.pathNotFound source.display)) ∨
      Files.isDirectory m.tree s.cwd source = true ∧ ∃ path fault cut, f = .of (.fileFault path.display fault) ∧
        (Files.Copier.guarded refuses s.cwd).StopsAt source destination
          (SourceDirectory m.tree s.cwd destination a) (IsLeaf m.tree a)
          (Halfway m.tree s.cwd source destination a b none) (.fileFault path.display fault) m'.tree path ∧
        Undamaged m.tree s.cwd source destination a b cut m'.tree ∧
        ∀ q, cut = some q → CutAt refuses m.tree s.cwd source destination a b path q := by
  rcases collectUnder_error h with ⟨hd, rfl, rfl⟩ | ⟨hd, c, rfl, hcopy⟩
  · exact Or.inl ⟨hd, rfl, rfl⟩
  · obtain ⟨l, cs, hstat⟩ := Files.isDirectory_iff.1 hd
    obtain rfl := (Files.stat_leadsTo hstat (Or.inl rfl)).unique hsep.sourceAt
    have ha : m.tree.entryAt? l = some .directory := Tree.entryAt?_eq_directory_iff.2 ⟨cs, Files.stat_get? hstat⟩
    obtain ⟨path, fault, cut, rfl, hstops, hhalf, hcut⟩ := Files.copyUnder_stopped hsep ha hcopy
    exact Or.inr ⟨hd, path, fault, cut, rfl, hstops, hhalf.undamaged, hcut⟩

/-- Where no link is, places that lie apart by their names do. -/
private theorem separate_of_noLinks {t : Tree} (ht : t.NoLinks) (cwd : Location) (source destination : Path)
    (hout : ¬ Files.lexical (Files.start cwd source) source.segments <+:
      Files.lexical (Files.start cwd destination) destination.segments)
    (hapart : ¬ Files.lexical (Files.start cwd destination) destination.segments <+:
      Files.lexical (Files.start cwd source) source.segments) :
    Separate t cwd source destination (Files.lexical (Files.start cwd source) source.segments)
      (Files.lexical (Files.start cwd destination) destination.segments) :=
  ⟨leads_lexical ht _ _, leads_lexical ht _ _, hout, hapart, fun _ => ht _, fun _ _ _ h => absurd h (ht _ _)⟩

/-- Two files that are to replace two others. -/
def locked : Tree := .ofEntries [([encode "src"], .directory), ([encode "src", encode "a"], .file (encode "new") false),
  ([encode "src", encode "b"], .file (encode "newer") false), ([encode "out"], .directory),
  ([encode "out", encode "a"], .file (encode "old") false), ([encode "out", encode "b"], .file (encode "older") false)]

/-- What the system says to someone who may write a file but does not own it. -/
def notOwner : Fault := .other "Operation not permitted (os error 1)"

/-- The permissions of one of the files cannot be set. -/
def foreign : Refusals :=
  { Refusals.none with copy := fun p _ _ => if p = .ofText "/src/b" then some (.opened false notOwner) else none }

/-- What comes of collecting them. -/
def lockedCollect : Except Failure Unit × Machine :=
  collectUnder foreign (.plain (.ofText "/p")) ⟨[], [], fun _ _ tree => { tree }⟩ (.ofText "/src") (.ofText "/out")
    { tree := locked }

theorem collect_undamaged_locked :
    Separate locked [] (.ofText "/src") (.ofText "/out") [encode "src"] [encode "out"] ∧
    lockedCollect.1 = .error (.of (.fileFault "/src/b" notOwner)) ∧
    lockedCollect.2.tree.entryAt? [encode "out", encode "a"] = some (.file (encode "new") false) ∧
    lockedCollect.2.tree.entryAt? [encode "out", encode "b"] = some (.file [] false) ∧
    ∃ path cut, path.display = "/src/b" ∧
      Undamaged locked [] (.ofText "/src") (.ofText "/out") [encode "src"] [encode "out"] cut lockedCollect.2.tree ∧
      ∀ q, cut = some q →
        CutAt foreign locked [] (.ofText "/src") (.ofText "/out") [encode "src"] [encode "out"] path q := by
  have hsep : Separate locked [] (.ofText "/src") (.ofText "/out") [encode "src"] [encode "out"] :=
    separate_of_noLinks (Tree.noLinks_ofEntries (by simp)) [] _ _ (by decide) (by decide)
  have hfails : lockedCollect.1 = .error (.of (.fileFault "/src/b" notOwner)) := by decide +kernel
  have hrun : lockedCollect = (.error (.of (.fileFault "/src/b" notOwner)), lockedCollect.2) := Prod.ext hfails rfl
  refine ⟨hsep, hfails, by decide +kernel, by decide +kernel, ?_⟩
  rcases collect_undamaged hsep hrun with ⟨-, -, hf⟩ | ⟨-, path, fault, cut, hf, -, hleft, hcut⟩
  · cases hf
  · obtain ⟨hpath, -⟩ := Cause.fileFault.inj (Failure.mk.inj hf).2
    exact ⟨path, cut, hpath.symm, hleft, hcut⟩

/-- A file, and in its way a directory or another file. -/
def blocked : Tree := .ofEntries [([encode "src"], .directory), ([encode "src", encode "a"], .file (encode "x") false),
  ([encode "out"], .directory), ([encode "out", encode "a"], .directory), ([encode "shut"], .file [] false)]

/-- What comes of collecting it into some directory. -/
def blockedCollect (destination : Path) : Except Failure Unit × Machine :=
  (Step.collect (.ofText "/src") destination).run (.plain (.ofText "/p")) ⟨[], [], fun _ _ tree => { tree }⟩
    { tree := blocked }

/-- A collect step that fails leaves the directories that it has made for a path with `..` behind a missing name: in
the source, or in the target where the source has none.  It leaves a file of the target empty if it was open when the
system refused to set its permissions. -/
theorem collect_leaves_traces :
    (Separate blocked [] (.ofText "/src") (.ofText "/src/new/../../shut") [encode "src"] [encode "shut"] ∧
      (blockedCollect (.ofText "/src/new/../../shut")).1 =
        .error (.of (.fileFault "/src/new/../../shut" .alreadyExists)) ∧
      blocked.entryAt? [encode "src", encode "new"] = none ∧
      (blockedCollect (.ofText "/src/new/../../shut")).2.tree.entryAt? [encode "src", encode "new"] =
        some .directory) ∧
    (Separate blocked [] (.ofText "/src") (.ofText "/out/new/..") [encode "src"] [encode "out"] ∧
      (blockedCollect (.ofText "/out/new/..")).1 = .error (.of (.fileFault "/src/a" .isDirectory)) ∧
      blocked.entryAt? [encode "src", encode "new"] = none ∧ blocked.entryAt? [encode "out", encode "new"] = none ∧
      (blockedCollect (.ofText "/out/new/..")).2.tree.entryAt? [encode "out", encode "new"] = some .directory) ∧
    Separate locked [] (.ofText "/src") (.ofText "/out") [encode "src"] [encode "out"] ∧
      lockedCollect.1 = .error (.of (.fileFault "/src/b" notOwner)) ∧
      locked.entryAt? [encode "out", encode "b"] = some (.file (encode "older") false) ∧
      lockedCollect.2.tree.entryAt? [encode "out", encode "b"] = some (.file [] false) := by
  have hlinks : blocked.NoLinks := Tree.noLinks_ofEntries (by simp)
  refine ⟨⟨separate_of_noLinks hlinks [] _ _ (by decide) (by decide), ?_, ?_, ?_⟩,
    ⟨separate_of_noLinks hlinks [] _ _ (by decide) (by decide), ?_, ?_, ?_, ?_⟩,
    separate_of_noLinks (Tree.noLinks_ofEntries (by simp)) [] _ _ (by decide) (by decide), ?_, ?_, ?_⟩ <;>
    decide +kernel

end Step

end GradleBuild
