import GradleBuild.Proofs.Copying

/-!
# What a copy leaves

Into a place where nothing is yet, a copy that comes to a good end only adds, and what it adds mirrors the source:
each entry of the source has its counterpart, and nothing else is there.  A link is mirrored by the file it leads to.

A link may lead to a file that has been copied just before.  What such files hold is told by `Explains`, which follows
the copies in the order in which they are made.

* `copyLevels_copies`: what a copy leaves is `Copied`.
* `Copied.agrees`: copies in trees that agree leave trees that agree.
-/

namespace GradleBuild

namespace Tree

/-- The tree has grown at places `K` where nothing was. -/
structure Adds (K : Location → Prop) (t t' : Tree) : Prop where
  sameLinks : t.SameLinks t'
  free : ∀ k, t'.entryAt? k ≠ t.entryAt? k → t.entryAt? k = none ∧ K k

variable {K K' : Location → Prop} {t t' t'' : Tree} {k k' : Location} {e : Entry}

theorem Adds.refl (K : Location → Prop) (t : Tree) : t.Adds K t := ⟨.refl t, fun _ h => absurd rfl h⟩

theorem Adds.eq (h : t.Adds K t') (hk : ¬ K k) : t'.entryAt? k = t.entryAt? k := by
  by_contra hne
  exact hk (h.free k hne).2

theorem Adds.kept (h : t.Adds K t') (hk : t.entryAt? k = some e) : t'.entryAt? k = some e := by
  by_contra hne
  have := (h.free k (by rwa [hk])).1
  simp [hk] at this

theorem Adds.extends (h : t.Adds K t') : t.Extends t' := fun _ e he => ⟨e, h.kept he, .refl e⟩

theorem Adds.eq_none (h : t.Adds K t') (hk : t'.entryAt? k = none) : t.entryAt? k = none := h.extends.eq_none hk

theorem Adds.trans (h : t.Adds K t') (h' : t'.Adds K t'') : t.Adds K t'' := by
  refine ⟨h.sameLinks.trans h'.sameLinks, fun k hk => ?_⟩
  by_cases he : t'.entryAt? k = t.entryAt? k
  · have := h'.free k (by rwa [he])
    exact ⟨h.eq_none this.1, this.2⟩
  · exact h.free k he

theorem Adds.mono (hK : ∀ k, t.entryAt? k = none → K k → K' k) (h : t.Adds K t') : t.Adds K' t' :=
  ⟨h.sameLinks, fun k hk => ⟨(h.free k hk).1, hK k (h.free k hk).1 (h.free k hk).2⟩⟩

/-- The entry at `k'` is the one at `k`, or the file that a link at `k` leads to. -/
def Mirrors (t : Tree) (k k' : Location) : Prop :=
  match t.entryAt? k with
  | some (.link target) => ∃ s c x, Files.Leads t (Files.linkBase k.dropLast target) target.segments s ∧
      t.entryAt? s = some (.file c x) ∧ t.entryAt? k' = some (.file c x)
  | e => t.entryAt? k' = e

theorem mirrors_of_eq (he : ∀ target, t.entryAt? k ≠ some (.link target)) (h : t.entryAt? k' = t.entryAt? k) :
    t.Mirrors k k' := by
  unfold Mirrors
  split
  · rename_i target hl
    exact absurd hl (he target)
  · exact h

theorem Mirrors.eq (h : t.Mirrors k k') (he : ∀ target, t.entryAt? k ≠ some (.link target)) :
    t.entryAt? k' = t.entryAt? k := by
  unfold Mirrors at h
  split at h
  · rename_i target hl
    exact absurd hl (he target)
  · exact h

theorem Mirrors.of_link {target : Path} (h : t.Mirrors k k') (hl : t.entryAt? k = some (.link target)) :
    ∃ s c x, Files.Leads t (Files.linkBase k.dropLast target) target.segments s ∧
      t.entryAt? s = some (.file c x) ∧ t.entryAt? k' = some (.file c x) := by
  unfold Mirrors at h
  rwa [hl] at h

/-- What mirrors something goes on to do so while both stay as they are. -/
theorem Mirrors.adds (h : t.Mirrors k k') (ht : t.Adds K t') (hk : ¬ K k) (hk' : ¬ K k') : t'.Mirrors k k' := by
  unfold Mirrors at h ⊢
  rw [ht.eq hk, ht.eq hk']
  split at h
  · obtain ⟨s, c, x, hs, hfile, hcopy⟩ := h
    exact ⟨s, c, x, hs.sameLinks ht.sameLinks, ht.kept hfile, hcopy⟩
  · exact h

/-- A file with these contents is at `k`, or where a link at `k` leads to. -/
def Shows (t : Tree) (k : Location) (c : Bytes) (x : Bool) : Prop :=
  t.entryAt? k = some (.file c x) ∨ ∃ target s, t.entryAt? k = some (.link target) ∧
    Files.Leads t (Files.linkBase k.dropLast target) target.segments s ∧ t.entryAt? s = some (.file c x)

theorem Shows.adds {c : Bytes} {x : Bool} (h : t.Shows k c x) (ht : t.Adds K t') : t'.Shows k c x := by
  rcases h with h | ⟨target, s, hl, hs, hfile⟩
  · exact Or.inl (ht.kept h)
  · exact Or.inr ⟨target, s, ht.kept hl, hs.sameLinks ht.sameLinks, ht.kept hfile⟩

/-- A file mirrors the places that show it. -/
theorem Shows.mirrors {c : Bytes} {x : Bool} (h : t.Shows k c x) (hk' : t.entryAt? k' = some (.file c x)) :
    t.Mirrors k k' := by
  rcases h with h | ⟨target, s, hl, hs, hfile⟩
  · exact mirrors_of_eq (by simp [h]) (hk'.trans h.symm)
  · unfold Mirrors
    rw [hl]
    exact ⟨s, c, x, hs, hfile, hk'⟩

/-- A statement about files that passes from the files below `a` to their copies below `b`, and to the copy of a link
from the file that the link leads to. -/
structure Passes (P : Location → Bytes → Bool → Prop) (t : Tree) (a b : Location) : Prop where
  file : ∀ l c x, t.entryAt? (a ++ l) = some (.file c x) → P (b ++ l) c x
  link : ∀ l target s c x, t.entryAt? (a ++ l) = some (.link target) →
    Files.Leads t (Files.linkBase (a ++ l).dropLast target) target.segments s → P s c x → P (b ++ l) c x

/-- What passes from files to their copies, and holds of all files of the first tree, holds of all of the second. -/
def Explains (t t' : Tree) (a b : Location) : Prop :=
  ∀ P : Location → Bytes → Bool → Prop, t.Passes P a b → (∀ s c x, t.entryAt? s = some (.file c x) → P s c x) →
    ∀ s c x, t'.entryAt? s = some (.file c x) → P s c x

variable {P : Location → Bytes → Bool → Prop} {a b : Location} {name : Name}

theorem Passes.shows {c : Bytes} {x : Bool} (h : t.Passes P a b) (hs : t.Shows a c x)
    (hP : ∀ s c x, t.entryAt? s = some (.file c x) → P s c x) : P b c x := by
  have hfile := h.file []
  have hlink := h.link []
  rw [List.append_nil, List.append_nil] at hfile hlink
  rcases hs with hs | ⟨target, s, hl, hs, hc⟩
  · exact hfile c x hs
  · exact hlink target s c x hl hs (hP s c x hc)

theorem Passes.below (h : t.Passes P a b) (l : Location) : t.Passes P (a ++ l) (b ++ l) where
  file m c x hm := by
    rw [List.append_assoc] at hm ⊢
    exact h.file _ c x hm
  link m target s c x hm hs hP := by
    rw [List.append_assoc] at hm hs ⊢
    exact h.link _ target s c x hm hs hP

theorem Passes.adds (h : t.Passes P a b) (ht : t.Adds K t') (ha : ∀ l, ¬ K (a ++ l)) : t'.Passes P a b where
  file l c x hl := h.file l c x (by rwa [ht.eq (ha l)] at hl)
  link l target s c x hl hs hP :=
    h.link l target s c x (by rwa [ht.eq (ha l)] at hl) (hs.sameLinks ht.sameLinks.symm) hP

theorem Explains.above {l : Location} (h : t.Explains t' (a ++ l) (b ++ l)) : t.Explains t' a b :=
  fun P hP => h P (hP.below l)

/-- The second tree is the first one with a mirror image at `b` of what is at `a`, and with directories above that. -/
structure Copied (t t' : Tree) (a b : Location) : Prop where
  adds : t.Adds (fun k => k <+: b ∨ b <+: k) t'
  mirrors : ∀ r, t'.Mirrors (a ++ r) (b ++ r)
  explains : t.Explains t' a b

section

variable {t₁ t₂ t₁' t₂' : Tree}

private theorem Copied.source (h : t.Copied t' a b) (hab : ¬ a <+: b) (hba : ¬ b <+: a) (r : Location) :
    t'.entryAt? (a ++ r) = t.entryAt? (a ++ r) := by
  apply h.adds.eq
  rintro (hp | hp)
  · exact hab ((List.prefix_append a r).trans hp)
  · exact not_prefix_of_apart ⟨hba, hab⟩ hp (List.prefix_append a r)

/-- Copies in trees that agree hold the same files: by what explains the files of the one, the other has them too. -/
private theorem Copied.files (h₁ : t₁.Copied t₁' a b) (h₂ : t₂.Copied t₂' a b) (ht : t₁.Agrees t₂)
    (hab : ¬ a <+: b) (hba : ¬ b <+: a) {s : Location} {c : Bytes} {x : Bool}
    (hs : t₁'.entryAt? s = some (.file c x)) : t₂'.entryAt? s = some (.file c x) := by
  refine h₁.explains (fun s c x => t₂'.entryAt? s = some (.file c x))
    ⟨fun l c x hl => ?_, fun l target s c x hl hs hP => ?_⟩
    (fun s c x hs => h₂.adds.kept ((ht s).symm.trans hs)) s c x hs
  · have hsource : t₂'.entryAt? (a ++ l) = some (.file c x) := by rw [h₂.source hab hba, ← ht, hl]
    rw [(h₂.mirrors l).eq (by simp [hsource]), hsource]
  · have hsource : t₂'.entryAt? (a ++ l) = some (.link target) := by rw [h₂.source hab hba, ← ht, hl]
    obtain ⟨s', c', x', hs', hfile, hcopy⟩ := (h₂.mirrors l).of_link hsource
    have hlinks : t₁.SameLinks t₂' :=
      SameLinks.trans (fun k q => by rw [ht k]) h₂.adds.sameLinks
    obtain rfl := hs'.unique (hs.sameLinks hlinks)
    rw [hcopy, ← hfile, hP]

/-- Copies in trees that agree leave trees that agree. -/
theorem Copied.agrees (h₁ : t₁.Copied t₁' a b) (h₂ : t₂.Copied t₂' a b) (ht : t₁.Agrees t₂)
    (hab : ¬ a <+: b) (hba : ¬ b <+: a) (ha : t₁.entryAt? a = some .directory) : t₁'.Agrees t₂' := by
  have hsource (r : Location) : t₁'.entryAt? (a ++ r) = t₂'.entryAt? (a ++ r) := by
    rw [h₁.source hab hba, h₂.source hab hba, ht]
  have htop₁ : t₁'.entryAt? a = some .directory := h₁.adds.kept ha
  have htop₂ : t₂'.entryAt? a = some .directory := h₂.adds.kept ((ht a).symm.trans ha)
  have hb₁ : t₁'.entryAt? b = some .directory := by
    simpa [htop₁] using (h₁.mirrors []).eq (by simp [htop₁])
  have hb₂ : t₂'.entryAt? b = some .directory := by
    simpa [htop₂] using (h₂.mirrors []).eq (by simp [htop₂])
  intro k
  by_cases hbelow : b <+: k
  · obtain ⟨r, rfl⟩ := hbelow
    by_cases hl : ∃ q, t₁'.entryAt? (a ++ r) = some (.link q)
    · obtain ⟨q, hq⟩ := hl
      obtain ⟨s, c, x, -, -, hcopy⟩ := (h₁.mirrors r).of_link hq
      rw [hcopy, h₁.files h₂ ht hab hba hcopy]
    · have hn : ∀ q, t₁'.entryAt? (a ++ r) ≠ some (.link q) := fun q hq => hl ⟨q, hq⟩
      rw [(h₁.mirrors r).eq hn, (h₂.mirrors r).eq (by rwa [← hsource r]), hsource]
  · by_cases habove : k <+: b
    · rw [directory_above habove hb₁, directory_above habove hb₂]
    · have hK : ¬ (k <+: b ∨ b <+: k) := by tauto
      rw [h₁.adds.eq hK, h₂.adds.eq hK, ht]

end

end Tree

namespace Files

variable {K : Location → Prop} {t t₁ t' : Tree} {cwd a b k l s : Location} {source target p : Path} {name : Name}
  {entries : List (Name × Bool)} {stats : CopyStats}

/-- What holds where a copy into a free place has come to. -/
structure Clear (t : Tree) (cwd : Location) (source target : Path) (a b : Location) : Prop where
  sourceAt : LeadsTo t cwd source a
  targetAt : LeadsTo t cwd target b
  /-- Directories are missing above the target only. -/
  way : ∀ k, OnWay t cwd target k → t.entryAt? k = none → k <+: b
  outside : ¬ a <+: b
  apart : ¬ b <+: a
  startAt : t.entryAt? (start cwd target) = some .directory
  spelled : ∀ n ∈ b, Path.slash ∉ n ∧ 0 ∉ n
  noLinks : ∀ l q, t.entryAt? (b ++ l) ≠ some (.link q)

namespace Clear

theorem adds (h : Clear t cwd source target a b) (ht : t.Adds K t') : Clear t' cwd source target a b where
  sourceAt := h.sourceAt.sameLinks ht.sameLinks
  targetAt := h.targetAt.sameLinks ht.sameLinks
  way k hk hn := h.way k (hk.sameLinks ht.sameLinks.symm) (ht.eq_none hn)
  outside := h.outside
  apart := h.apart
  startAt := ht.kept h.startAt
  spelled := h.spelled
  noLinks l q hl := h.noLinks l q ((ht.sameLinks _ _).2 hl)

theorem leadsTo_join (h : Clear t cwd source target a b) (hv : name.IsValid) :
    LeadsTo t cwd (target.join ⟨name⟩) (b ++ [name]) :=
  Files.leadsTo_join hv h.targetAt (h.noLinks [name])

theorem join (h : Clear t cwd source target a b) (hd : t.entryAt? (a ++ [name]) = some .directory) :
    Clear t cwd (source.join ⟨name⟩) (target.join ⟨name⟩) (a ++ [name]) (b ++ [name]) := by
  have hv : name.IsValid := Tree.isValid_of_entryAt? hd name (by simp)
  have htarget := h.leadsTo_join hv
  have hstart : start cwd (target.join ⟨name⟩) = start cwd target := by
    unfold start
    rw [Path.isAbsolute_join_name _ hv]
  refine ⟨Files.leadsTo_join hv h.sourceAt (by simp [hd]), htarget, fun k hk hn => ?_, fun hp => ?_, fun hp => ?_,
    by rw [hstart]; exact h.startAt, fun n hn => ?_, fun l q => ?_⟩
  · rcases onWay_join hv hk with hk | hk
    · exact (h.way k hk hn).trans (List.prefix_append b [name])
    · exact hk.unique htarget ▸ List.prefix_refl _
  · rcases List.prefix_concat_iff.1 hp with he | hp
    · have := List.append_inj_left' he rfl
      exact h.outside (this ▸ List.prefix_refl _)
    · exact h.outside ((List.prefix_append a [name]).trans hp)
  · rcases List.prefix_concat_iff.1 hp with he | hp
    · have := List.append_inj_left' he rfl
      exact h.apart (this ▸ List.prefix_refl _)
    · exact h.apart ((List.prefix_append b [name]).trans hp)
  · rcases List.mem_append.1 hn with hn | hn
    · exact h.spelled n hn
    · rw [List.mem_singleton.1 hn]
      exact ⟨hv.2.2.2.1, hv.2.2.2.2.1⟩
  · rw [List.append_assoc]
    exact h.noLinks _ q

/-- Nothing below the source is at or below the target. -/
theorem not_below (h : Clear t cwd source target a b) (l m : Location) : ¬ b ++ m <+: a ++ l := by
  intro hp
  exact not_prefix_of_apart ⟨h.outside, h.apart⟩ (List.prefix_append a l) ((List.prefix_append b m).trans hp)

end Clear

/-- A file that is created in a directory, and then written, is added to the tree. -/
private theorem adds_written (hb : t.entryAt? b = some .directory) (hv : name.IsValid)
    (hfree : t.entryAt? (b ++ [name]) = none) (c : Bytes) (x y : Bool)
    (ht : t' = (t.put (b ++ [name]) (.file [] y)).put (b ++ [name]) (.file c x)) :
    t.Adds (b ++ [name] <+: ·) t' ∧
      ∀ r, t'.entryAt? (b ++ [name] ++ r) = if r = [] then some (.file c x) else none := by
  subst ht
  have hempty := Tree.grows_put_file (K := fun _ => True) (Or.inl hfree) trivial [] y
  have hwritten := hempty.trans (Tree.grows_put_file (Tree.writable_put (Or.inl hfree) [] y) trivial c x)
  refine ⟨⟨hwritten.sameLinks, fun k hk => ?_⟩, fun r => Tree.entryAt?_put_below (hempty.kept.directory hb) hv _⟩
  have hin : b ++ [name] <+: k := by
    by_contra hk'
    exact hk (by rw [Tree.entryAt?_put hk', Tree.entryAt?_put hk'])
  obtain ⟨r, rfl⟩ := hin
  exact ⟨Tree.entryAt?_append_eq_none hfree r, List.prefix_append _ _⟩

/-- A way of one name to a file ends there, or goes on along a link. -/
private theorem shows_of_leads (hv : name.IsValid) (h : Leads t a [name] s) {c : Bytes} {x : Bool}
    (hs : t.entryAt? s = some (.file c x)) : t.Shows (a ++ [name]) c x := by
  rcases h.name_cases hv with rfl | ⟨target, hlink, hrest⟩
  · exact Or.inl hs
  · exact Or.inr ⟨target, s, hlink, by rwa [List.dropLast_concat], hs⟩

/-- A copy of a file reads what its source shows, and writes it to the place of its target. -/
private theorem copyFile_ok (h : Clear t cwd source target a b) (hb : t.entryAt? b = some .directory)
    (hv : name.IsValid) (hfree : t.entryAt? (b ++ [name]) = none)
    (hcopy : copyFile cwd (source.join ⟨name⟩) (target.join ⟨name⟩) t = (.ok (), t')) :
    ∃ c x, t.Shows (a ++ [name]) c x ∧ t.Adds (b ++ [name] <+: ·) t' ∧
      ∀ r, t'.entryAt? (b ++ [name] ++ r) = if r = [] then some (.file c x) else none := by
  rcases copyFile_cases cwd (source.join ⟨name⟩) (target.join ⟨name⟩) t with
    ⟨s, c, x, l, y, hstat, hl, hw, h'⟩ | ⟨_, h'⟩
  · obtain rfl := hl.unique (h.leadsTo_join hv)
    have hs : t.entryAt? s = some (.file c x) := Tree.entryAt?_eq_file_iff.2 (stat_get? hstat)
    -- the source is not what has just been created, since that was free
    have hread : (t.put (b ++ [name]) (.file [] y)).entryAt? s = some (.file c x) := by
      rw [Tree.entryAt?_put ?_, hs]
      rintro ⟨r, rfl⟩
      rw [Tree.entryAt?_append_eq_none hfree r] at hs
      simp at hs
    rw [h', hread] at hcopy
    exact ⟨c, x, shows_of_leads hv (leads_of_join hv h.sourceAt (stat_leadsTo hstat (Or.inl rfl))) hs,
      adds_written hb hv hfree c x y (Prod.mk.inj hcopy).2.symm⟩
  · rw [h'] at hcopy
    cases hcopy

/-- A file, or a link to one, is mirrored where it is copied to. -/
private theorem copyFile_copies (h : Clear t cwd source target a b) (hb : t.entryAt? b = some .directory)
    (hn : t.entryAt? (a ++ [name]) ≠ none) (hd : t.entryAt? (a ++ [name]) ≠ some .directory)
    (hfree : t.entryAt? (b ++ [name]) = none)
    (hcopy : copyFile cwd (source.join ⟨name⟩) (target.join ⟨name⟩) t = (.ok (), t')) :
    t.Adds (b ++ [name] <+: ·) t' ∧ (∀ r, t'.Mirrors (a ++ [name] ++ r) (b ++ [name] ++ r)) ∧
      t.Explains t' (a ++ [name]) (b ++ [name]) := by
  obtain ⟨e, he⟩ := Option.ne_none_iff_exists'.1 hn
  have hv : name.IsValid := Tree.isValid_of_entryAt? he name (by simp)
  obtain ⟨c, x, hshows, hadds, hnew⟩ := copyFile_ok h hb hv hfree hcopy
  have hfile : t'.entryAt? (b ++ [name]) = some (.file c x) := by simpa using hnew []
  refine ⟨hadds, fun r => ?_, fun P hP hfiles s c' x' hs => ?_⟩
  · by_cases hr : r = []
    · rw [hr, List.append_nil, List.append_nil]
      exact (hshows.adds hadds).mirrors hfile
    · -- nothing is below a file or a link
      have hsource : t'.entryAt? (a ++ [name] ++ r) = none := by
        rw [List.append_assoc, hadds.eq (h.not_below _ _), ← List.append_assoc]
        by_contra hsome
        obtain ⟨e', he'⟩ := Option.ne_none_iff_exists'.1 hsome
        exact hd (Tree.entryAt?_of_append hr he')
      apply Tree.mirrors_of_eq (fun q => by rw [hsource]; simp)
      rw [hnew, if_neg hr, hsource]
  · -- the only new file is the copy
    by_cases hin : b ++ [name] <+: s
    · obtain ⟨r, rfl⟩ := hin
      rw [hnew r] at hs
      split at hs
      · rename_i hr
        obtain ⟨rfl, rfl⟩ := Entry.file.inj (Option.some.inj hs)
        rw [hr, List.append_nil]
        exact hP.shows hshows hfiles
      · cases hs
    · rw [hadds.eq hin] at hs
      exact hfiles s c' x' hs

section

variable {descend : Path → Path → FileAction Cause CopyStats}
  (hdescend : ∀ {source target a b t s t'}, Clear t cwd source target a b → t.entryAt? b = none →
    descend source target t = (.ok s, t') → t.Copied t' a b)

include hdescend

private theorem copyEntry_copies (h : Clear t cwd source target a b) (hb : t.entryAt? b = some .directory)
    {e : Name × Bool} (hes : Listed t a (e :: entries)) (hfree : t.entryAt? (b ++ [e.1]) = none)
    (hcopy : copyEntry cwd descend source target e t = (.ok stats, t')) :
    t.Adds (b ++ [e.1] <+: ·) t' ∧ (∀ r, t'.Mirrors (a ++ [e.1] ++ r) (b ++ [e.1] ++ r)) ∧
      t.Explains t' (a ++ [e.1]) (b ++ [e.1]) := by
  obtain ⟨name, isDirectory⟩ := e
  obtain ⟨hn, hd⟩ := hes (name, isDirectory) (by simp)
  cases isDirectory with
  | true =>
    obtain ⟨r₂, h₂, hok⟩ := of_copyEntry_directory hcopy
    obtain ⟨s, rfl⟩ := hok stats rfl
    obtain ⟨hadds, hmirrors, hexplains⟩ := hdescend (h.join (hd.1 rfl)) hfree h₂
    refine ⟨hadds.mono fun k hk hK => ?_, hmirrors, hexplains⟩
    -- what is above the copy is there already
    rcases hK with hK | hK
    · rcases List.prefix_concat_iff.1 hK with rfl | hK
      · exact List.prefix_refl _
      · simp [Tree.directory_above hK hb] at hk
    · exact hK
  | false =>
    obtain ⟨r₂, h₂, hok⟩ := of_copyEntry_file hcopy
    obtain rfl := hok stats rfl
    exact copyFile_copies h hb hn (fun hdir => by simpa using hd.2 hdir) hfree h₂

private theorem copyEntries_copies (h : Clear t cwd source target a b) (hb : t.entryAt? b = some .directory)
    (hes : Listed t a entries) (hnodup : (entries.map Prod.fst).Nodup)
    (hfree : ∀ e ∈ entries, t.entryAt? (b ++ [e.1]) = none)
    (hcopy : copyEntries cwd descend source target entries t = (.ok stats, t')) :
    t.Adds (fun k => ∃ e ∈ entries, b ++ [e.1] <+: k) t' ∧
      (∀ e ∈ entries, ∀ r, t'.Mirrors (a ++ [e.1] ++ r) (b ++ [e.1] ++ r)) ∧ t.Explains t' a b := by
  induction entries generalizing t stats with
  | nil =>
    obtain ⟨-, rfl⟩ := Prod.mk.inj hcopy
    exact ⟨.refl _ t, by simp, fun _ _ hfiles => hfiles⟩
  | cons e entries ih =>
    obtain ⟨s₁, t₁, h₁, hrest⟩ := of_bind_ok hcopy
    obtain ⟨s₂, t₂, h₂, hend⟩ := of_bind_ok hrest
    obtain ⟨-, rfl⟩ := Prod.mk.inj hend
    obtain ⟨hadds, hmirrors, hexplains⟩ := copyEntry_copies hdescend h hb hes (hfree e (by simp)) h₁
    rw [List.map_cons, List.nodup_cons] at hnodup
    -- the copies of two entries lie apart
    have hapart {e' : Name × Bool} (he' : e' ∈ entries) (l : Location) : ¬ b ++ [e'.1] <+: b ++ [e.1] ++ l := by
      intro hp
      rw [List.append_assoc, List.prefix_append_right_inj] at hp
      obtain ⟨m, hm⟩ := hp
      exact hnodup.1 ((List.cons.inj hm).1 ▸ List.mem_map_of_mem he')
    have hfree₁ : ∀ e' ∈ entries, t₁.entryAt? (b ++ [e'.1]) = none := by
      intro e' he'
      rw [hadds.eq, hfree e' (List.mem_cons_of_mem _ he')]
      rintro ⟨m, hm⟩
      exact hapart he' m (hm ▸ List.prefix_refl _)
    obtain ⟨hadds₂, hmirrors₂, hexplains₂⟩ :=
      ih (h.adds hadds) (hadds.kept hb) (hes.tail.extends hadds.extends) hnodup.2 hfree₁ h₂
    refine ⟨(hadds.mono fun k _ hk => ⟨e, by simp, hk⟩).trans
      (hadds₂.mono fun k _ hk => ?_), fun e' he' r => ?_, fun P hP hfiles => ?_⟩
    · obtain ⟨e', he', hk⟩ := hk
      exact ⟨e', List.mem_cons_of_mem _ he', hk⟩
    · rcases List.mem_cons.1 he' with rfl | he'
      · refine (hmirrors r).adds hadds₂ ?_ ?_
        · rintro ⟨e₂, -, hp⟩
          rw [List.append_assoc] at hp
          exact h.not_below _ _ hp
        · rintro ⟨e₂, he₂, hp⟩
          exact hapart he₂ r hp
      · exact hmirrors₂ e' he' r
    · exact hexplains₂ P (hP.adds hadds fun l => h.not_below l [e.1]) (hexplains.above P hP hfiles)

end

/-- The directory that is created for a copy, with those above it, is empty. -/
private theorem createDirectories_adds {t₁ : Tree} (h : Clear t cwd source target a b) (hfree : t.entryAt? b = none)
    (hcreate : createDirectories cwd target t = (.ok (), t₁)) :
    t.Adds (· <+: b) t₁ ∧ t₁.entryAt? b = some .directory ∧ ∀ l, l ≠ [] → t₁.entryAt? (b ++ l) = none := by
  have hgrows : t.Grows (fun k => t.entryAt? k = none ∧ k <+: b) t₁ :=
    createDirectories_grows (fun k hk hn => ⟨hn, h.way k hk hn⟩) hcreate
  have hadds : t.Adds (· <+: b) t₁ := ⟨hgrows.sameLinks, hgrows.only⟩
  obtain ⟨b', hb', hdir⟩ := createDirectories_ok hcreate
  obtain rfl := hb'.unique h.targetAt
  refine ⟨hadds, hdir h.spelled h.startAt, fun l hl => ?_⟩
  rw [hadds.eq, Tree.entryAt?_append_eq_none hfree]
  intro hp
  have hlength := hp.length_le
  rw [List.length_append] at hlength
  have hpos := List.length_pos_iff.2 hl
  omega

/-- A directory is mirrored when all that is listed in it is, into a place that was empty. -/
private theorem mirrors_listed {cs : List (Name × Node)} (h : Clear t cwd source target a b)
    (ha : t.get? a = some (.directory cs)) (hb : t.entryAt? b = some .directory)
    (hempty : ∀ l, l ≠ [] → t.entryAt? (b ++ l) = none) (hadds : t.Adds (fun k => ∃ c ∈ cs, b ++ [c.1] <+: k) t')
    (hmirrors : ∀ c ∈ cs, ∀ r, t'.Mirrors (a ++ [c.1] ++ r) (b ++ [c.1] ++ r)) (r : Location) :
    t'.Mirrors (a ++ r) (b ++ r) := by
  cases r with
  | nil =>
    have htop : t'.entryAt? a = some .directory := hadds.kept (Tree.entryAt?_eq_directory_iff.2 ⟨cs, ha⟩)
    rw [List.append_nil, List.append_nil]
    exact Tree.mirrors_of_eq (by simp [htop]) (by rw [htop, hadds.kept hb])
  | cons name r =>
    by_cases hmem : ∃ n, (name, n) ∈ cs
    · obtain ⟨n, hn⟩ := hmem
      simpa using hmirrors (name, n) hn r
    · -- a name that is not listed is free on both sides
      have hnone : t.entryAt? (a ++ name :: r) = none := by
        rw [List.append_cons]
        refine Tree.entryAt?_append_eq_none (Tree.entryAt?_eq_none_iff.2 ?_) r
        by_contra hsome
        obtain ⟨n, hn⟩ := Option.ne_none_iff_exists'.1 hsome
        exact hmem ⟨n, (Tree.mem_children_iff ha).2 hn⟩
      have hsource : t'.entryAt? (a ++ name :: r) = none := by
        rw [hadds.eq, hnone]
        rintro ⟨c, -, hp⟩
        exact h.not_below _ _ hp
      apply Tree.mirrors_of_eq (by simp [hsource])
      rw [hsource, hadds.eq, hempty _ (by simp)]
      rintro ⟨c, hc, hp⟩
      rw [List.prefix_append_right_inj] at hp
      obtain ⟨m, hm⟩ := hp
      exact hmem ⟨c.2, (List.cons.inj hm).1 ▸ hc⟩

/-- A copy into a free place that comes to a good end adds a mirror image of the source, and nothing else but the
directories above it. -/
theorem copyLevels_copies (depth : Nat) (h : Clear t cwd source target a b) (hfree : t.entryAt? b = none)
    (hcopy : copyLevels cwd depth source target t = (.ok stats, t')) : t.Copied t' a b := by
  induction depth generalizing source target a b t t' stats with
  | zero => cases hcopy
  | succ depth ih =>
    obtain ⟨r₁, t₁, hcreate, hrest⟩ := of_copyLevels_succ hcopy
    rcases hrest with ⟨hne, -⟩ | ⟨rfl, a', cs, hstat, hentries⟩
    · exact absurd rfl (hne stats)
    obtain ⟨hadds, hb, hempty⟩ := createDirectories_adds h hfree hcreate
    have h₁ := h.adds hadds
    obtain rfl := (stat_leadsTo hstat (Or.inl rfl)).unique h₁.sourceAt
    have ha : t₁.get? a' = some (.directory cs) := stat_get? hstat
    have hnodup : ((cs.map fun c => (c.1, c.2.isDirectory)).map Prod.fst).Nodup := by
      simpa [List.map_map, Function.comp_def] using Tree.nodup_children ha
    obtain ⟨hadds₂, hmirrors, hexplains⟩ := copyEntries_copies (fun hc hf hd => ih hc hf hd) h₁ hb
      (listed_of_stat hstat) hnodup (fun e _ => hempty _ (by simp)) hentries
    have hlisted : t₁.Adds (fun k => ∃ c ∈ cs, b ++ [c.1] <+: k) t' := by
      refine hadds₂.mono fun k _ hk => ?_
      obtain ⟨e, he, hk⟩ := hk
      obtain ⟨c, hc, rfl⟩ := List.mem_map.1 he
      exact ⟨c, hc, hk⟩
    refine ⟨(hadds.mono fun k _ hk => Or.inl hk).trans (hlisted.mono fun k _ hk => ?_),
      mirrors_listed h₁ ha hb hempty hlisted fun c hc => hmirrors _ (List.mem_map_of_mem hc), fun P hP hfiles => ?_⟩
    · obtain ⟨c, -, hk⟩ := hk
      exact Or.inr ((List.prefix_append b [c.1]).trans hk)
    · have hP₁ : t₁.Passes P a' b := hP.adds hadds fun l hl => h.outside ((List.prefix_append a' l).trans hl)
      refine hexplains P hP₁ fun s c x hs => ?_
      -- the directories that have been made are no files
      have hnew : ¬ s <+: b := by
        intro hp
        simp [Tree.directory_above hp hb] at hs
      exact hfiles s c x (by rwa [hadds.eq hnew] at hs)

end Files

end GradleBuild
