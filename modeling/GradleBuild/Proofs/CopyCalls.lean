import GradleBuild.Proofs.Copiers

/-!
# How often a copy goes into a directory

A copy creates the directories of its target while it goes through its source.  If none of them comes up in the source
(`Calm`), it goes into each directory of the source once at most, and needs no more levels than the source has: nothing
rests on how long a path may be.  A target that lies apart from the source is calm, and so is the source itself.  A new
directory in the source is not: there each level makes the next one.

* `Copier.counted_levels`: a copy that counts does what the copy does.
* `copyCalls_le`: how often a calm copy goes into a directory, and how many levels it needs.
* `calm_of_target`, `calm_of_apart`, `calm_self`: when a copy is calm.
* `copyCalls_nested`: a copy of an empty directory into a new one in it goes on as long as paths can be named.
-/

namespace GradleBuild.Files

variable {t : Tree} {cwd a b k q r : Location} {source destination : Path}

/-! ### Counting -/

/-- An action on a tree, next to a count that it leaves alone. -/
def besideCount {α : Type} (act : FileAction Cause α) : ExceptT Cause (StateM (Tree × Nat)) α := fun s =>
  ((act s.1).1, (act s.1).2, s.2)

/-- The parts of the copy, with a count of how often it goes into a directory. -/
def Copier.counted (cwd : Location) : Copier (Tree × Nat) where
  enter s := (s.1, s.2 + 1)
  create p := besideCount ((plain cwd).create p)
  list p := besideCount ((plain cwd).list p)
  next p name := besideCount ((plain cwd).next p name)
  kind p := besideCount ((plain cwd).kind p)
  copy p q := besideCount ((plain cwd).copy p q)

/-- How often a copy goes into a directory, the first time included. -/
def copyCalls (cwd : Location) (source destination : Path) (t : Tree) : Nat :=
  ((Copier.counted cwd).levels (longestPath + 2) source destination (t, 0)).2.2

/-- Without the count, the one action does what the other does. -/
def Erases {α : Type} (x : ExceptT Cause (StateM (Tree × Nat)) α) (act : FileAction Cause α) : Prop :=
  ∀ s, ((x s).1, (x s).2.1) = act s.1

namespace Erases

variable {α β : Type} {x : ExceptT Cause (StateM (Tree × Nat)) α} {act : FileAction Cause α}

theorem besideCount (act : FileAction Cause α) : Erases (besideCount act) act := fun _ => rfl

theorem pure (v : α) : Erases (Pure.pure v) (Pure.pure v) := fun _ => rfl

theorem bind {f : α → ExceptT Cause (StateM (Tree × Nat)) β} {g : α → FileAction Cause β} (h : Erases x act)
    (hf : ∀ v, Erases (f v) (g v)) : Erases (x >>= f) (act >>= g) := by
  intro s
  have hs := h s
  rcases hx : x s with ⟨c | v, s₁⟩
  · rw [hx] at hs
    rw [bind_apply_error hx, bind_apply_error hs.symm]
  · rw [hx] at hs
    rw [bind_apply_ok hx, bind_apply_ok hs.symm]
    exact hf v s₁

end Erases

namespace Copier

private theorem counted_entries {descend : Path → Path → ExceptT Cause (StateM (Tree × Nat)) CopyStats}
    {descend' : Path → Path → FileAction Cause CopyStats} (h : ∀ p q, Erases (descend p q) (descend' p q))
    (source destination : Path) (es : List (Name × Bool)) :
    Erases ((counted cwd).entries descend source destination es) ((plain cwd).entries descend' source destination es) := by
  induction es with
  | nil => exact (Erases.besideCount _).bind fun _ => .pure _
  | cons e es ih =>
    refine (Erases.besideCount _).bind fun _ => (Erases.besideCount _).bind fun _ => Erases.bind ?_ fun _ =>
      ih.bind fun _ => .pure _
    obtain ⟨name, _ | _⟩ := e
    · exact (Erases.besideCount _).bind fun _ => .pure _
    · exact (h _ _).bind fun _ => .pure _

/-- A copy that counts does what the copy does. -/
theorem counted_levels (cwd : Location) (depth : Nat) (source destination : Path) :
    Erases ((counted cwd).levels depth source destination) (copyLevels cwd depth source destination) := by
  rw [← plain_levels]
  induction depth generalizing source destination with
  | zero => exact fun _ => rfl
  | succ depth ih =>
    have henter : Erases (modify (counted cwd).enter) (modify (plain cwd).enter) := fun _ => rfl
    exact henter.bind fun _ => (Erases.besideCount _).bind fun _ => (Erases.besideCount _).bind fun es =>
      counted_entries ih source destination es

theorem counted_counts (cwd : Location) : (counted cwd).Counts Prod.snd where
  enter _ := rfl
  create _ _ := rfl
  list _ _ := rfl
  next _ _ _ := rfl
  kind _ _ := rfl
  copy _ _ _ := rfl

end Copier

/-! ### Copies that make no directory in their source -/

/-- No directory that the copy of a directory needs is missing in the source. -/
def Calm (t : Tree) (cwd : Location) (destination : Path) (a : Location) : Prop :=
  ∀ r, t.entryAt? (a ++ r) = some .directory → ∀ k, Gap t cwd (destination.below r) k → ¬ a <+: k

/-- The directories in the source are those of the tree `t` at the start. -/
structure Steady (t : Tree) (a : Location) (s : Tree) : Prop where
  kept : t.Extends s
  sameLinks : t.SameLinks s
  directories : ∀ r, s.entryAt? (a ++ r) = some .directory → t.entryAt? (a ++ r) = some .directory

theorem Steady.refl (t : Tree) (a : Location) : Steady t a t := ⟨.refl t, .refl t, fun _ h => h⟩

section

variable {s s' : Tree}

private theorem create_steady {r : Except Cause Unit} (hcalm : Calm t cwd destination a)
    (hq : t.entryAt? (a ++ q) = some .directory) (hs : Steady t a s)
    (h : (Copier.plain cwd).create (destination.below q) s = (r, s')) : Steady t a s' := by
  obtain ⟨r₁, h₁, -⟩ := of_onPath h
  have hgrows := createDirectories_grows (K := Gap t cwd (destination.below q)) (fun k hk hn =>
    ⟨hk.sameLinks hs.sameLinks.symm, hs.kept.eq_none hn⟩) h₁
  refine ⟨hs.kept.trans hgrows.kept, hs.sameLinks.trans hgrows.sameLinks, fun r hr => hs.directories r ?_⟩
  rwa [← hgrows.eq fun hgap => hcalm q hq _ hgap (List.prefix_append a r)]

private theorem list_steady {es : List (Name × Bool)} (ha : LeadsTo t cwd source a)
    (hq : t.entryAt? (a ++ q) = some .directory) (hs : Steady t a s)
    (h : (Copier.plain cwd).list (source.below q) s = (.ok es, s')) : Steady t a s' ∧
      Copier.Listing (fun r => t.entryAt? (a ++ r) = some .directory) (fun _ => True) q es := by
  have hv : ∀ n ∈ q, n.IsValid := fun n hn => Tree.isValid_of_entryAt? hq n (List.mem_append_right a hn)
  have hplace : LeadsTo t cwd (source.below q) (a ++ q) := leadsTo_below ha hv fun l target _ hl hlink => by
    rw [Tree.directory_above ((List.prefix_append_right_inj a).2 hl) hq] at hlink
    cases hlink
  obtain ⟨r₁, h₁, hok⟩ := of_onPath h
  obtain ⟨rfl, hcases⟩ := list_cases h₁
  obtain ⟨l, cs, hstat, rfl⟩ := hcases es (hok es rfl)
  obtain rfl := (stat_leadsTo hstat (Or.inl rfl)).unique (hplace.sameLinks hs.sameLinks)
  exact ⟨hs, .of_stat hv hstat (fun name hn => hs.directories _ (by rwa [← List.append_assoc])) fun _ _ _ _ => trivial⟩

/-- Where a file is copied no directory comes up. -/
private theorem copy_steady {p p' : Path} {r : Except Cause Unit} (hs : Steady t a s)
    (h : (Copier.plain cwd).copy p p' s = (r, s')) : Steady t a s' := by
  obtain ⟨r₁, h₁, -⟩ := of_onPath h
  rcases copyFile_cases cwd p p' s with ⟨k, c, x, l, y, -, -, hw, hcopy⟩ | ⟨e, hcopy⟩
  swap
  · rw [hcopy] at h₁
    obtain ⟨-, rfl⟩ := Prod.mk.inj h₁
    exact hs
  have hempty := Tree.grows_put_file (K := (· = l)) hw rfl [] y
  -- what is new is a file
  have hnew : s.Grows (· = l) s' ∧ (s'.entryAt? l ≠ s.entryAt? l → ∃ c x, s'.entryAt? l = some (.file c x)) := by
    rw [hcopy] at h₁
    obtain ⟨-, rfl⟩ := Prod.mk.inj h₁
    split
    · exact ⟨hempty.trans (Tree.grows_put_file (K := (· = l)) (Tree.writable_put hw [] y) rfl _ _),
        fun hl => ⟨_, _, Tree.entryAt?_put_put hl⟩⟩
    · exact ⟨hempty, fun hl => ⟨_, _, Tree.put_ne hl⟩⟩
  obtain ⟨hgrows, hfile⟩ := hnew
  refine ⟨hs.kept.trans hgrows.kept, hs.sameLinks.trans hgrows.sameLinks, fun r hr => hs.directories r ?_⟩
  by_contra hne
  have hchanged : s'.entryAt? (a ++ r) ≠ s.entryAt? (a ++ r) := fun heq => hne (heq ▸ hr)
  obtain rfl := hgrows.only _ hchanged
  obtain ⟨c, x, hl⟩ := hfile hchanged
  rw [hr] at hl
  cases hl

private theorem plain_keeps (ha : LeadsTo t cwd source a) (hcalm : Calm t cwd destination a) :
    (Copier.plain cwd).Keeps source destination (fun r => t.entryAt? (a ++ r) = some .directory) (fun _ => True)
      (Steady t a) where
  enter hs := hs
  create hq hs h := create_steady hcalm hq hs h
  list hq hs h := list_steady ha hq hs h
  next _ hs h := (Prod.mk.inj h).2 ▸ hs
  kind _ hs h := (Prod.mk.inj h).2 ▸ hs
  copy _ hs h := copy_steady hs h

private theorem of_besideCount {α : Type} {act : FileAction Cause α} {z z' : Tree × Nat} {r : Except Cause α}
    (h : besideCount act z = (r, z')) : act z.1 = (r, z'.1) := by
  obtain ⟨rfl, rfl⟩ := Prod.mk.inj h
  rfl

private theorem counted_keeps (ha : LeadsTo t cwd source a) (hcalm : Calm t cwd destination a) :
    (Copier.counted cwd).Keeps source destination (fun r => t.entryAt? (a ++ r) = some .directory) (fun _ => True)
      (fun z => Steady t a z.1) where
  enter hs := hs
  create hq hs h := create_steady hcalm hq hs (of_besideCount h)
  list hq hs h := list_steady ha hq hs (of_besideCount h)
  next _ hs h := (Prod.mk.inj h).2 ▸ hs
  kind _ hs h := (Prod.mk.inj h).2 ▸ hs
  copy _ hs h := copy_steady hs (of_besideCount h)

end

/-- A calm copy goes into each directory of its source once at most, and more levels than the source has make no
difference. -/
theorem copyCalls_le (ha : LeadsTo t cwd source a) (hdir : t.entryAt? a = some .directory)
    (hcalm : Calm t cwd destination a) :
    (copyCalls cwd source destination t : ℕ∞) ≤ 1 + {r | r ≠ [] ∧ t.entryAt? (a ++ r) = some .directory}.encard ∧
      ∀ depth, (∀ r, t.entryAt? (a ++ r) = some .directory → r.length < depth) →
        copyLevels cwd depth source destination t = copyDirectory cwd source destination t := by
  have hroot : t.entryAt? (a ++ []) = some .directory := by simpa using hdir
  constructor
  · have hcalls := (counted_keeps ha hcalm).calls (q := []) (s := (t, 0)) (Copier.counted_counts cwd) hroot (.refl t a)
      (Prod.eta ((Copier.counted cwd).levels (longestPath + 2) source destination (t, 0))).symm
    have hall : {r | [] <+: r ∧ t.entryAt? (a ++ r) = some .directory} =
        insert [] {r | r ≠ [] ∧ t.entryAt? (a ++ r) = some .directory} := by
      ext r
      by_cases hr : r = []
      · simp [hr, hdir]
      · simp [hr]
    rw [hall, Set.encard_insert_of_notMem (by simp), Nat.cast_zero, zero_add] at hcalls
    rw [add_comm]
    exact hcalls
  · intro depth hdepth
    have hsame : (Copier.plain cwd).levels depth source destination t =
        (Copier.plain cwd).levels (longestPath + 2) source destination t :=
      (plain_keeps ha hcalm).levels_eq (q := []) (fun r _ hr _ => hdepth r hr)
        (fun r _ _ hlength => Nat.lt_add_right _ (Nat.lt_succ_of_le hlength)) (by simp) hroot (.refl t a)
    rwa [Copier.plain_levels, Copier.plain_levels] at hsame

/-! ### When a copy is calm -/

/-- A copy is calm if the gaps in the way of its target, and the directories that are missing there, are outside the
source. -/
theorem calm_of_target (hb : LeadsTo t cwd destination b) (hway : ∀ k, Gap t cwd destination k → ¬ a <+: k)
    (hlinks : ∀ r target, t.entryAt? (a ++ r) = some .directory → t.entryAt? (b ++ r) ≠ some (.link target))
    (hnew : ∀ r, t.entryAt? (a ++ r) = some .directory → t.entryAt? (b ++ r) = none → ¬ a <+: b ++ r) :
    Calm t cwd destination a := by
  intro r hr k hgap
  have habove {q : Location} (hq : q <+: r) : t.entryAt? (a ++ q) = some .directory :=
    Tree.directory_above ((List.prefix_append_right_inj a).2 hq) hr
  have hv : ∀ n ∈ r, n.IsValid := fun n hn => Tree.isValid_of_entryAt? hr n (List.mem_append_right a hn)
  rcases onWay_below hb hv (fun l target _ hl => hlinks l target (habove hl)) hgap.1 with hk | ⟨q, hq, rfl⟩
  · exact hway k ⟨hk, hgap.2⟩
  · exact hnew q (habove hq) hgap.2

/-- A copy between places that lie apart is calm. -/
theorem calm_of_apart (hb : LeadsTo t cwd destination b) (hway : ∀ k, Gap t cwd destination k → ¬ a <+: k)
    (hlinks : ∀ r target, t.entryAt? (b ++ r) ≠ some (.link target)) (hab : ¬ a <+: b) (hba : ¬ b <+: a) :
    Calm t cwd destination a :=
  calm_of_target hb hway (fun r target _ => hlinks r target) fun r _ _ =>
    not_prefix_of_apart ⟨hba, hab⟩ (List.prefix_append b r)

/-- What a path names has no gap in its way. -/
theorem not_gap_of_stat {l : Location} {n : Node} (h : stat t cwd source true = .ok (l, n)) : ¬ Gap t cwd source k := by
  rintro ⟨⟨xs, ⟨rest, hxs⟩, hk⟩, hn⟩
  obtain ⟨-, hstart, hw⟩ := find_eq_ok_iff.1 (stat_eq_ok_iff.1 h)
  rw [Tree.entryAt?_eq_none_iff] at hn
  rcases eq_or_ne rest [] with rfl | hne
  · rw [List.append_nil] at hxs
    rw [← hxs] at hw
    obtain rfl := (hw.leads rfl (Or.inl rfl)).unique hk
    simp [hw.get?_eq rfl] at hn
  · obtain ⟨d, m, links, h₁, -⟩ := hw.split hstart rfl hxs.symm hne
    obtain rfl := (h₁.leads rfl (Or.inl rfl)).unique hk
    simp [h₁.get?_eq rfl] at hn

/-- A copy of a directory into itself is calm: all is there. -/
theorem calm_self {cs : List (Name × Node)} (h : stat t cwd destination true = .ok (a, .directory cs)) :
    Calm t cwd destination a := by
  refine calm_of_target (stat_leadsTo h (Or.inl rfl)) (fun k hgap => absurd hgap (not_gap_of_stat h)) ?_ ?_
  · intro r target hr
    simp [hr]
  · intro r hr hn
    simp [hr] at hn

/-- A directory in a directory in a directory. -/
def tower : Tree := .ofEntries [([encode "src"], .directory), ([encode "src", encode "a"], .directory),
  ([encode "src", encode "a", encode "b"], .directory)]

theorem copyCalls_le_tower :
    LeadsTo tower [] (.ofText "/src") [encode "src"] ∧ tower.entryAt? [encode "src"] = some .directory ∧
    Calm tower [] (.ofText "/src") [encode "src"] ∧ copyCalls [] (.ofText "/src") (.ofText "/src") tower = 3 ∧
    ((3 : ℕ) : ℕ∞) ≤ 1 + {r | r ≠ [] ∧ tower.entryAt? ([encode "src"] ++ r) = some .directory}.encard ∧
    ∀ depth, (∀ r, tower.entryAt? ([encode "src"] ++ r) = some .directory → r.length < depth) →
      copyLevels [] depth (.ofText "/src") (.ofText "/src") tower =
        copyDirectory [] (.ofText "/src") (.ofText "/src") tower := by
  have hfound : ((stat tower [] (.ofText "/src") true).toOption.map fun f => (f.1, f.2.entry)) =
      some ([encode "src"], .directory) := by decide +kernel
  obtain ⟨cs, hstat⟩ := stat_directory_of_entry hfound
  have hsource := stat_leadsTo hstat (Or.inl rfl)
  have hdir : tower.entryAt? [encode "src"] = some .directory := by decide +kernel
  have hcalls : copyCalls [] (.ofText "/src") (.ofText "/src") tower = 3 := by decide +kernel
  obtain ⟨hle, hlevels⟩ := copyCalls_le hsource hdir (calm_self hstat)
  exact ⟨hsource, hdir, calm_self hstat, hcalls, hcalls ▸ hle, hlevels⟩

/-- An empty directory. -/
def bare : Tree := .ofEntries [([encode "src"], .directory)]

/-- A name as long as names can be. -/
def longName : Name := List.replicate Name.longest 0x64

/-- An empty directory is copied into a new one in it: the copy goes down from each directory that it has made into the
next one, until a path is too long for the system. -/
theorem copyCalls_nested :
    LeadsTo bare [] (.ofText "/src") [encode "src"] ∧ bare.entryAt? [encode "src"] = some .directory ∧
    {r | r ≠ [] ∧ bare.entryAt? ([encode "src"] ++ r) = some .directory} = ∅ ∧
    copyCalls [] (.ofText "/src") ((Path.ofText "/src").join ⟨longName⟩) bare = 16 := by
  have hcontents : ([], .directory) :: ((bare.get? [encode "src"]).map Node.contents).getD [] =
      [([], Entry.directory)] := by decide +kernel
  refine ⟨leads_lexical (Tree.noLinks_ofEntries (by simp)) [] _, by decide +kernel, ?_, by decide +kernel⟩
  ext r
  simp only [Set.mem_ofPred_eq, Set.mem_empty_iff_false, iff_false, not_and]
  intro hr hdir
  have hmem := hcontents ▸ Tree.mem_contents (by decide +kernel) hdir
  simp [hr] at hmem

end GradleBuild.Files
