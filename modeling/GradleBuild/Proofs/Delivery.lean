import GradleBuild.Proofs.Runs
import GradleBuild.Proofs.Writing

/-!
# What collecting delivers

A copy opens its target before it reads its source, and does so file by file while it goes through the source.  So what
arrives depends on where the paths lead: a file that is to be read must not be written, nothing new may come up in the
source, and no two files may go to one place.  `Undisturbed` says this of the tree at the start.

* `copyDirectory_delivers`: an undisturbed copy that comes to a good end has delivered every file.
* `undisturbed_of_apart`: between directories that lie apart nothing is disturbed.
* `Step.collect_delivers`: what a collect step has delivered can be read at both ends.
* `Step.collect_empties`: from a directory into itself it empties the files, and comes to a good end.
-/

namespace GradleBuild

/-- A path with names joined to it one after another. -/
def Path.below (p : Path) (r : Location) : Path := r.foldl (fun q name => q.join ⟨name⟩) p

@[simp] theorem Path.below_nil (p : Path) : p.below [] = p := rfl

theorem Path.below_concat (p : Path) (r : Location) (name : Name) :
    p.below (r ++ [name]) = (p.below r).join ⟨name⟩ := by
  simp [below]

/-- Each name that is joined to a path makes it longer. -/
theorem Path.length_below (p : Path) {r : Location} (hv : ∀ n ∈ r, n.IsValid) :
    r.length ≤ (p.below r).bytes.length := by
  induction r using List.reverseRecOn with
  | nil => simp
  | append_singleton r name ih =>
    have hr := ih fun n hn => hv n (List.mem_append_left _ hn)
    have hname := hv name (by simp)
    have hpos := List.length_pos_iff.2 hname.1
    rw [Path.below_concat, List.length_append, List.length_singleton]
    unfold Path.join
    rw [if_neg (by simp [Path.isAbsolute_name hname])]
    split <;> simp only [List.length_append, List.length_cons] <;> omega

namespace Tree

/-- All that has changed is that there are new directories. -/
def GainsDirectories (t t' : Tree) : Prop := ∀ k, t'.entryAt? k ≠ t.entryAt? k → t'.entryAt? k = some .directory

theorem GainsDirectories.refl (t : Tree) : t.GainsDirectories t := fun _ hk => absurd rfl hk

theorem GainsDirectories.trans {t t' t'' : Tree} (h : t.GainsDirectories t') (h' : t'.GainsDirectories t'') :
    t.GainsDirectories t'' := by
  intro k hk
  by_cases he : t''.entryAt? k = t'.entryAt? k
  · rw [he] at hk ⊢
    exact h k hk
  · exact h' k he

end Tree

namespace Files

variable {t t₁ t₂ t₃ : Tree} {cwd a b k l q r : Location} {p source destination : Path} {name : Name}
  {entries : List (Name × Bool)} {stats : CopyStats}

/-! ### Creating directories -/

private theorem makeDirectory_gains {r : Except Fault Unit} (h : makeDirectory cwd p t = (r, t₁)) :
    t.GainsDirectories t₁ := by
  cases r with
  | error => exact makeDirectory_error h ▸ .refl t
  | ok =>
    obtain ⟨d, name, _, hf, rfl⟩ := makeDirectory_ok h
    obtain ⟨-, -, hn, -⟩ := findPlace_free hf
    intro k hk
    rw [Tree.put_only (Or.inl hn) hk]
    exact Tree.put_ne hk

private theorem makeDirectoryBelow_gains {r : Except Fault Unit} {above : Unit → FileAction Fault Unit}
    (habove : ∀ r₁ t₁, above () t = (r₁, t₁) → t.GainsDirectories t₁)
    (h : makeDirectoryBelow cwd p above t = (r, t₂)) : t.GainsDirectories t₂ := by
  obtain ⟨t₁, ht₁, hcases⟩ := makeDirectoryBelow_cases h
  have hgains : t.GainsDirectories t₁ := by
    rcases ht₁ with rfl | ⟨r₁, h₁⟩
    · exact .refl _
    · exact habove r₁ t₁ h₁
  rcases hcases with ⟨rfl, -⟩ | ⟨hm, -⟩
  · exact hgains
  · exact hgains.trans (makeDirectory_gains hm)

theorem createFirst_gains {r : Except Fault Unit} {ps : List Path} (h : createFirst cwd ps t = (r, t₁)) :
    t.GainsDirectories t₁ := by
  induction ps generalizing r t₁ with
  | nil =>
    obtain ⟨-, rfl⟩ := Prod.mk.inj h
    exact .refl t
  | cons p ps ih =>
    unfold createFirst at h
    split at h
    · obtain ⟨-, rfl⟩ := Prod.mk.inj h
      exact .refl t
    · exact makeDirectoryBelow_gains (fun _ _ h₁ => ih h₁) h

theorem createDirectories_gains {r : Except Fault Unit} (h : createDirectories cwd p t = (r, t₁)) :
    t.GainsDirectories t₁ := by
  unfold createDirectories at h
  split at h
  · obtain ⟨-, rfl⟩ := Prod.mk.inj h
    exact .refl t
  · exact makeDirectoryBelow_gains (fun _ _ h₁ => createFirst_gains h₁) h

/-! ### What a copy has delivered -/

/-- Below `a` something is at `r` that is no directory. -/
def IsLeaf (t : Tree) (a r : Location) : Prop := ∃ e, t.entryAt? (a ++ r) = some e ∧ e ≠ .directory

/-- Nothing is below a leaf. -/
theorem IsLeaf.eq_of_prefix (h : IsLeaf t a r) (h' : IsLeaf t a k) (hp : r <+: k) : r = k := by
  obtain ⟨m, rfl⟩ := hp
  obtain ⟨e, he, hne⟩ := h
  obtain ⟨e', he', -⟩ := h'
  by_contra hm
  rw [← List.append_assoc] at he'
  have hd := Tree.entryAt?_of_append (by simpa using hm) he'
  rw [he, Option.some.injEq] at hd
  exact hne hd

/-- Copying what is below `a`, the place of `source`, into `destination` gets in its own way nowhere: no leaf goes to
a place in the source, or to one that a leaf is read from, or to the place that another leaf goes to. -/
structure Undisturbed (t : Tree) (cwd : Location) (source destination : Path) (a : Location) : Prop where
  outside : ∀ r l, IsLeaf t a r → LeadsTo t cwd (destination.below r) l → ¬ a <+: l
  unread : ∀ r r' l, IsLeaf t a r → IsLeaf t a r' → LeadsTo t cwd (destination.below r) l →
    ¬ LeadsTo t cwd (source.below r') l
  apart : ∀ r r' l, IsLeaf t a r → IsLeaf t a r' → LeadsTo t cwd (destination.below r) l →
    LeadsTo t cwd (destination.below r') l → r = r'

/-- From one tree to another nothing has been done but to create directories, and to write files where leaves `S` go.
Which are the leaves, and where they go, is up to the first tree `t` of all. -/
structure Carries (t : Tree) (cwd : Location) (destination : Path) (a : Location) (S : Location → Prop)
    (t₁ t₂ : Tree) : Prop where
  kept : t₁.Extends t₂
  sameLinks : t₁.SameLinks t₂
  only : ∀ k, t₂.entryAt? k ≠ t₁.entryAt? k → t₂.entryAt? k = some .directory ∨
    ∃ r, S r ∧ IsLeaf t a r ∧ LeadsTo t cwd (destination.below r) k

/-- The leaf has been copied: what its source held at first is found where it went. -/
def Delivered (t : Tree) (cwd : Location) (source destination : Path) (r : Location) (t₁ : Tree) : Prop :=
  ∃ s c x l, LeadsTo t cwd (source.below r) s ∧ t.entryAt? s = some (.file c x) ∧
    stat t₁ cwd (destination.below r) true = .ok (l, .file c x)

/-- The leaves `S` have been copied, and nothing else has been done. -/
structure Delivers (t : Tree) (cwd : Location) (source destination : Path) (a : Location) (S : Location → Prop)
    (t₁ t₂ : Tree) : Prop extends Carries t cwd destination a S t₁ t₂ where
  delivered : ∀ r, S r → IsLeaf t a r → Delivered t cwd source destination r t₂

variable {S S' : Location → Prop}

namespace Carries

theorem refl (t₁ : Tree) : Carries t cwd destination a S t₁ t₁ :=
  ⟨.refl t₁, .refl t₁, fun _ hk => absurd rfl hk⟩

theorem mono (hS : ∀ r, S r → S' r) (h : Carries t cwd destination a S t₁ t₂) :
    Carries t cwd destination a S' t₁ t₂ := by
  refine ⟨h.kept, h.sameLinks, fun k hk => (h.only k hk).imp_right ?_⟩
  rintro ⟨r, hr, hleaf, hl⟩
  exact ⟨r, hS r hr, hleaf, hl⟩

theorem trans (h : Carries t cwd destination a S t₁ t₂) (h' : Carries t cwd destination a S t₂ t₃) :
    Carries t cwd destination a S t₁ t₃ := by
  refine ⟨h.kept.trans h'.kept, h.sameLinks.trans h'.sameLinks, fun k hk => ?_⟩
  by_cases he : t₃.entryAt? k = t₂.entryAt? k
  · rw [he] at hk ⊢
    exact h.only k hk
  · exact h'.only k he

/-- A file that no leaf goes to stays as it is. -/
theorem file {c : Bytes} {x : Bool} (h : Carries t cwd destination a S t₁ t₂) (hl : t₁.entryAt? l = some (.file c x))
    (hnot : ∀ r, S r → IsLeaf t a r → ¬ LeadsTo t cwd (destination.below r) l) :
    t₂.entryAt? l = some (.file c x) := by
  by_contra hne
  rcases h.only l (by rwa [hl]) with hd | ⟨r, hr, hleaf, hl'⟩
  · obtain ⟨c', x', hfile⟩ := h.kept.file hl
    simp [hd] at hfile
  · exact hnot r hr hleaf hl'

/-- A leaf that is found in the source was there at first. -/
theorem leaf (hu : Undisturbed t cwd source destination a) (h : Carries t cwd destination a S t t₁)
    (hr : IsLeaf t₁ a r) : IsLeaf t a r := by
  obtain ⟨e, he, hne⟩ := hr
  by_contra hnot
  rcases h.only (a ++ r) (fun heq => hnot ⟨e, by rw [← heq, he], hne⟩) with hd | ⟨r', -, hleaf, hl⟩
  · rw [he, Option.some.injEq] at hd
    exact hne hd
  · exact hu.outside r' _ hleaf hl (List.prefix_append a r)

end Carries

/-- What has been delivered stays where it is while other leaves are copied. -/
theorem Delivered.carries (hu : Undisturbed t cwd source destination a) (hsince : t.SameLinks t₁)
    (hr : IsLeaf t a r) (hS : ¬ S r) (h : Delivered t cwd source destination r t₁)
    (ht : Carries t cwd destination a S t₁ t₂) : Delivered t cwd source destination r t₂ := by
  obtain ⟨s, c, x, l, hs, hfile, hfound⟩ := h
  have hl : LeadsTo t cwd (destination.below r) l := (stat_leadsTo hfound (Or.inl rfl)).sameLinks hsince.symm
  have hkept : t₂.entryAt? l = some (.file c x) :=
    ht.file (Tree.entryAt?_eq_file_iff.2 (stat_get? hfound)) fun r' hr' hleaf hl' =>
      hS (hu.apart r r' l hr hleaf hl hl' ▸ hr')
  exact ⟨s, c, x, l, hs, hfile, stat_file_extends ht.kept hfound hkept⟩

/-- What is copied one after another is copied, as long as nothing is copied twice. -/
theorem Delivers.trans (hu : Undisturbed t cwd source destination a) (hsince : t.SameLinks t₁)
    (h : Delivers t cwd source destination a S t₁ t₂) (h' : Delivers t cwd source destination a S' t₂ t₃)
    (hdisjoint : ∀ r, S r → ¬ S' r) : Delivers t cwd source destination a (fun r => S r ∨ S' r) t₁ t₃ where
  toCarries := (h.toCarries.mono fun _ => Or.inl).trans (h'.toCarries.mono fun _ => Or.inr)
  delivered r hr hleaf := by
    rcases hr with hr | hr
    · exact (h.delivered r hr hleaf).carries hu (hsince.trans h.sameLinks) hleaf (hdisjoint r hr) h'.toCarries
    · exact h'.delivered r hr hleaf

/-- Which leaves there are is all that matters. -/
theorem Delivers.congr (hS : ∀ r, IsLeaf t a r → (S r ↔ S' r)) (h : Delivers t cwd source destination a S t₁ t₂) :
    Delivers t cwd source destination a S' t₁ t₂ where
  kept := h.kept
  sameLinks := h.sameLinks
  only k hk := (h.only k hk).imp_right fun ⟨r, hr, hleaf, hl⟩ => ⟨r, (hS r hleaf).1 hr, hleaf, hl⟩
  delivered r hr hleaf := h.delivered r ((hS r hleaf).2 hr) hleaf

/-! ### The walk -/

/-- A leaf is delivered by the copy of its file. -/
private theorem copyFile_delivers (hu : Undisturbed t cwd source destination a) (hnul : t.NoNul)
    (hsince : Carries t cwd destination a (fun _ => True) t t₁) (hr : IsLeaf t a r)
    (h : copyFile cwd (source.below r) (destination.below r) t₁ = (.ok (), t₂)) :
    Delivers t cwd source destination a (· = r) t₁ t₂ := by
  obtain ⟨s, c, x, l, c', hstat, hgrows, hfound, hc⟩ := copyFile_found (hnul.sameLinks hsince.sameLinks) h
  have hs : LeadsTo t cwd (source.below r) s := (stat_leadsTo hstat (Or.inl rfl)).sameLinks hsince.sameLinks.symm
  have hl : LeadsTo t cwd (destination.below r) l :=
    (stat_leadsTo hfound (Or.inl rfl)).sameLinks (hsince.sameLinks.trans hgrows.sameLinks).symm
  have hne : s ≠ l := fun he => hu.unread r r l hr hr hl (he ▸ hs)
  -- the source has not been written since the start
  have hfile : t.entryAt? s = some (.file c x) := by
    have hnow : t₁.entryAt? s = some (.file c x) := Tree.entryAt?_eq_file_iff.2 (stat_get? hstat)
    by_contra hold
    rcases hsince.only s (fun he => hold (by rw [← he, hnow])) with hd | ⟨r', -, hleaf, hl'⟩
    · simp [hnow] at hd
    · exact hu.unread r' r s hleaf hr hl' hs
  obtain rfl := hc hne
  refine ⟨⟨hgrows.kept, hgrows.sameLinks, fun k hk => Or.inr ⟨r, rfl, hr, ?_⟩⟩, ?_⟩
  · rw [hgrows.only k hk]
    exact hl
  · rintro r' rfl -
    exact ⟨s, c', x, l, hs, hfile, hfound⟩

section

variable (hu : Undisturbed t cwd source destination a) (hnul : t.NoNul)
  {descend : Path → Path → FileAction Cause CopyStats}
  (hdescend : ∀ {q t₁ stats t₂}, Carries t cwd destination a (fun _ => True) t t₁ →
    LeadsTo t cwd (source.below q) (a ++ q) →
    descend (source.below q) (destination.below q) t₁ = (.ok stats, t₂) →
      Delivers t cwd source destination a (q <+: ·) t₁ t₂)

include hu hnul hdescend

private theorem copyEntry_delivers (hsince : Carries t cwd destination a (fun _ => True) t t₁)
    (hq : LeadsTo t cwd (source.below q) (a ++ q)) {e : Name × Bool} (hes : Listed t₁ (a ++ q) (e :: entries))
    (h : copyEntry cwd descend (source.below q) (destination.below q) e t₁ = (.ok stats, t₂)) :
    Delivers t cwd source destination a (q ++ [e.1] <+: ·) t₁ t₂ := by
  obtain ⟨name, isDirectory⟩ := e
  obtain ⟨hn, hd⟩ := hes (name, isDirectory) (by simp)
  obtain ⟨e, he⟩ := Option.ne_none_iff_exists'.1 hn
  have hv : name.IsValid := Tree.isValid_of_entryAt? he name (by simp)
  cases isDirectory with
  | true =>
    obtain ⟨r₁, h₁, hok⟩ := of_copyEntry_directory h
    obtain ⟨s, rfl⟩ := hok stats rfl
    rw [← Path.below_concat, ← Path.below_concat] at h₁
    refine hdescend hsince ?_ h₁
    rw [Path.below_concat, ← List.append_assoc]
    refine leadsTo_join hv hq fun target hlink => ?_
    rw [hsince.sameLinks, hd.1 rfl] at hlink
    cases hlink
  | false =>
    obtain ⟨r₁, h₁, hok⟩ := of_copyEntry_file h
    obtain rfl := hok stats rfl
    rw [← Path.below_concat, ← Path.below_concat] at h₁
    have hleaf : IsLeaf t a (q ++ [name]) := hsince.leaf hu ⟨e, by rwa [← List.append_assoc], by
      rintro rfl
      simpa using hd.2 he⟩
    exact (copyFile_delivers hu hnul hsince hleaf h₁).congr fun r hr =>
      ⟨fun (heq : r = q ++ [name]) => heq ▸ List.prefix_refl _, fun hp => (hleaf.eq_of_prefix hr hp).symm⟩

private theorem copyEntries_delivers (hsince : Carries t cwd destination a (fun _ => True) t t₁)
    (hq : LeadsTo t cwd (source.below q) (a ++ q)) (hes : Listed t₁ (a ++ q) entries)
    (hnodup : (entries.map Prod.fst).Nodup)
    (h : copyEntries cwd descend (source.below q) (destination.below q) entries t₁ = (.ok stats, t₂)) :
    Delivers t cwd source destination a (fun r => ∃ e ∈ entries, q ++ [e.1] <+: r) t₁ t₂ := by
  induction entries generalizing t₁ stats with
  | nil =>
    obtain ⟨-, rfl⟩ := Prod.mk.inj h
    exact ⟨.refl t₁, by simp⟩
  | cons e entries ih =>
    obtain ⟨s₁, t₃, h₁, hrest⟩ := of_bind_ok h
    obtain ⟨s₂, t₄, h₂, hend⟩ := of_bind_ok hrest
    obtain ⟨-, rfl⟩ := Prod.mk.inj hend
    rw [List.map_cons, List.nodup_cons] at hnodup
    have hfirst := copyEntry_delivers hu hnul hdescend hsince hq hes h₁
    have hsince' := hsince.trans (hfirst.toCarries.mono fun _ _ => trivial)
    have hthen := ih hsince' (hes.tail.extends hfirst.kept) hnodup.2 h₂
    -- what is below one entry is not below another
    have hdisjoint : ∀ r, q ++ [e.1] <+: r → ¬ ∃ e' ∈ entries, q ++ [e'.1] <+: r := by
      rintro r hr ⟨e', he', hr'⟩
      have heq := (List.prefix_of_prefix_length_le hr hr' (by simp)).eq_of_length (by simp)
      have hname : e.1 = e'.1 := by simpa using heq
      exact hnodup.1 (hname ▸ List.mem_map_of_mem he')
    exact (hfirst.trans hu hsince.sameLinks hthen hdisjoint).congr fun r _ => by simp

end

/-- Every leaf below a directory is at or below one of the entries listed there. -/
private theorem listed_above {cs : List (Name × Node)} (ht : t.Extends t₁)
    (hget : t₁.get? (a ++ q) = some (.directory cs)) (hr : IsLeaf t a r) (hp : q <+: r) :
    ∃ c ∈ cs, q ++ [c.1] <+: r := by
  obtain ⟨m, rfl⟩ := hp
  obtain ⟨e, he, hne⟩ := hr
  obtain ⟨e', he', hkind⟩ := ht _ _ he
  cases m with
  | nil =>
    -- the directory itself is no leaf
    rw [List.append_nil, Tree.entryAt?_eq_directory_iff.2 ⟨cs, hget⟩, Option.some.injEq] at he'
    subst he'
    cases e <;> simp_all [Entry.SameKind]
  | cons name m =>
    have hn : t₁.get? (a ++ q ++ [name]) ≠ none := by
      intro hnone
      have := Tree.entryAt?_append_eq_none (Tree.entryAt?_eq_none_iff.2 hnone) m
      simp [he'] at this
    obtain ⟨n, hn⟩ := Option.ne_none_iff_exists'.1 hn
    exact ⟨(name, n), (Tree.mem_children_iff hget).2 hn, ⟨m, by simp⟩⟩

/-- A copy of a directory delivers every leaf below it. -/
private theorem copyLevels_delivers (hu : Undisturbed t cwd source destination a) (hnul : t.NoNul) (depth : Nat)
    (hsince : Carries t cwd destination a (fun _ => True) t t₁) (hq : LeadsTo t cwd (source.below q) (a ++ q))
    (h : copyLevels cwd depth (source.below q) (destination.below q) t₁ = (.ok stats, t₂)) :
    Delivers t cwd source destination a (q <+: ·) t₁ t₂ := by
  induction depth generalizing q t₁ stats t₂ with
  | zero => cases h
  | succ depth ih =>
    obtain ⟨r₁, t₃, hcreate, hrest⟩ := of_copyLevels_succ h
    rcases hrest with ⟨hne, -⟩ | ⟨rfl, a', cs, hstat, hentries⟩
    · exact absurd rfl (hne stats)
    have hmade {S : Location → Prop} : Carries t cwd destination a S t₁ t₃ := by
      have hgrows := createDirectories_grows (K := fun _ => True) (fun _ _ _ => trivial) hcreate
      exact ⟨hgrows.kept, hgrows.sameLinks, fun k hk => Or.inl (createDirectories_gains hcreate k hk)⟩
    have hsince₃ := hsince.trans hmade
    obtain rfl := (stat_leadsTo hstat (Or.inl rfl)).unique (hq.sameLinks hsince₃.sameLinks)
    have hget := stat_get? hstat
    have hcopied := copyEntries_delivers hu hnul (fun hs hq h => ih hs hq h) hsince₃ hq (listed_of_stat hstat)
      (by simpa [List.map_map, Function.comp_def] using Tree.nodup_children hget) hentries
    have hall : Delivers t cwd source destination a (q <+: ·) t₃ t₂ := by
      refine hcopied.congr fun r hr => ⟨?_, fun hp => ?_⟩
      · rintro ⟨e, -, hp⟩
        exact (List.prefix_append q [e.1]).trans hp
      · obtain ⟨c, hc, hp⟩ := listed_above hsince₃.kept hget hr hp
        exact ⟨(c.1, c.2.isDirectory), List.mem_map.2 ⟨c, hc, rfl⟩, hp⟩
    exact ⟨hmade.trans hall.toCarries, hall.delivered⟩

/-- A copy that nothing disturbs, and that comes to a good end, has delivered every leaf of its source. -/
theorem copyDirectory_delivers (hu : Undisturbed t cwd source destination a) (hnul : t.NoNul)
    (ha : LeadsTo t cwd source a) (h : copyDirectory cwd source destination t = (.ok stats, t₁)) :
    Delivers t cwd source destination a (fun _ => True) t t₁ :=
  (copyLevels_delivers (q := []) hu hnul _ (.refl t) (by simpa using ha) h).congr fun r _ => by simp

/-! ### Directories that lie apart -/

/-- Names joined to a path lead from place to place, where no link is. -/
theorem leadsTo_below (hb : LeadsTo t cwd p b) (hv : ∀ n ∈ r, n.IsValid)
    (hlinks : ∀ l target, l ≠ [] → l <+: r → t.entryAt? (b ++ l) ≠ some (.link target)) :
    LeadsTo t cwd (p.below r) (b ++ r) := by
  induction r using List.reverseRecOn with
  | nil => simpa using hb
  | append_singleton r name ih =>
    have hr := ih (fun n hn => hv n (List.mem_append_left _ hn))
      fun l target hl hp => hlinks l target hl (hp.trans (List.prefix_append r [name]))
    rw [Path.below_concat, ← List.append_assoc]
    refine leadsTo_join (hv name (by simp)) hr fun target => ?_
    rw [List.append_assoc]
    exact hlinks _ target (by simp) (List.prefix_refl _)

/-- The way of a path with names joined to it is that of the path itself, and then goes from place to place. -/
theorem onWay_below (hb : LeadsTo t cwd p b) (hv : ∀ n ∈ r, n.IsValid)
    (hlinks : ∀ l target, l ≠ [] → l <+: r → t.entryAt? (b ++ l) ≠ some (.link target))
    (h : OnWay t cwd (p.below r) k) : OnWay t cwd p k ∨ ∃ q, q <+: r ∧ k = b ++ q := by
  induction r using List.reverseRecOn with
  | nil => exact Or.inl h
  | append_singleton r name ih =>
    rw [Path.below_concat] at h
    rcases onWay_join (hv name (by simp)) h with h | h
    · refine (ih (fun n hn => hv n (List.mem_append_left _ hn))
        (fun l target hl hp => hlinks l target hl (hp.trans (List.prefix_append r [name]))) h).imp_right ?_
      rintro ⟨q, hq, rfl⟩
      exact ⟨q, hq.trans (List.prefix_append r [name]), rfl⟩
    · rw [← Path.below_concat] at h
      exact Or.inr ⟨_, List.prefix_refl _, h.unique (leadsTo_below hb hv hlinks)⟩

theorem isValid_of_isLeaf (hr : IsLeaf t a r) : ∀ n ∈ r, n.IsValid := by
  obtain ⟨e, he, -⟩ := hr
  exact fun n hn => Tree.isValid_of_entryAt? he n (List.mem_append_right a hn)

/-- A leaf is read where it is, or where a link at its place leads to. -/
theorem read_cases {s : Location} (ha : LeadsTo t cwd source a) (hr : IsLeaf t a r)
    (h : LeadsTo t cwd (source.below r) s) : s = a ++ r ∨ ∃ target,
      t.entryAt? (a ++ r) = some (.link target) ∧ Leads t (linkBase (a ++ r).dropLast target) target.segments s := by
  rcases List.eq_nil_or_concat' r with rfl | ⟨d, name, rfl⟩
  · rw [List.append_nil]
    exact Or.inl (h.unique ha)
  · have hv := isValid_of_isLeaf hr
    obtain ⟨e, he, -⟩ := hr
    rw [← List.append_assoc] at he ⊢
    -- above a leaf there are directories only
    have hd : LeadsTo t cwd (source.below d) (a ++ d) := by
      refine leadsTo_below ha (fun n hn => hv n (List.mem_append_left _ hn)) fun l target _ hl hlink => ?_
      have hdir := Tree.directory_above ((List.prefix_append_right_inj a).2 hl)
        (Tree.entryAt?_of_append (List.cons_ne_nil name []) he)
      rw [hlink] at hdir
      cases hdir
    rw [Path.below_concat] at h
    have hname := hv name (by simp)
    rw [List.dropLast_concat]
    exact (leads_of_join hname hd h).name_cases hname

/-- A copy between directories that lie apart is not disturbed, unless a link is in its target, or leads there from
the source. -/
theorem undisturbed_of_apart (ha : LeadsTo t cwd source a) (hb : LeadsTo t cwd destination b) (hab : ¬ a <+: b)
    (hba : ¬ b <+: a) (hlinks : ∀ l target, t.entryAt? (b ++ l) ≠ some (.link target))
    (hout : ∀ r target s, t.entryAt? (a ++ r) = some (.link target) →
      Leads t (linkBase (a ++ r).dropLast target) target.segments s → ¬ b <+: s) :
    Undisturbed t cwd source destination a := by
  have hgoes {r l : Location} (hr : IsLeaf t a r) (hl : LeadsTo t cwd (destination.below r) l) : l = b ++ r :=
    hl.unique (leadsTo_below hb (isValid_of_isLeaf hr) fun l target _ _ => hlinks l target)
  have hapart (m m' : Location) : a ++ m ≠ b ++ m' := by
    intro he
    exact not_prefix_of_apart ⟨hab, hba⟩ (List.prefix_append a m) (he ▸ List.prefix_append b m')
  refine ⟨fun r l hr hl hp => ?_, fun r r' l hr hr' hl hs => ?_, fun r r' l hr hr' hl hl' => ?_⟩
  · obtain ⟨m, hm⟩ := hp
    exact hapart m r (hm.trans (hgoes hr hl))
  · rcases read_cases ha hr' hs with rfl | ⟨target, hlink, hs⟩
    · exact hapart r' r (hgoes hr hl)
    · exact hout r' target l hlink hs (hgoes hr hl ▸ List.prefix_append b r)
  · exact List.append_cancel_left ((hgoes hr hl).symm.trans (hgoes hr' hl'))

end Files

/-! ### The collect step -/

namespace Step

open Files (LeadsTo IsLeaf Undisturbed)

variable {p : Project} {s : Surroundings} {m m' : Machine} {source destination : Path} {a r : Location}
  {content : Bytes}

/-- What a collect step that nothing disturbs has delivered can be read at both ends: what is in the source still reads
as it did, and so does its counterpart, which is a file or a link that was there before. -/
theorem collect_delivers (hdry : p.dry = false) (hnul : m.tree.NoNul) (ha : LeadsTo m.tree s.cwd source a)
    (hu : Undisturbed m.tree s.cwd source destination a)
    (h : (Step.collect source destination).run p s m = (.ok (), m')) (hr : IsLeaf m.tree a r)
    (hread : Files.read m.tree s.cwd (source.below r) = .ok content) :
    Files.read m'.tree s.cwd (source.below r) = .ok content ∧
      Files.read m'.tree s.cwd (destination.below r) = .ok content ∧
      ∃ l n, Files.stat m'.tree s.cwd (destination.below r) false = .ok (l, n) ∧
        ((∃ x, n = .file content x) ∨ ∃ target, n = .link target ∧ m.tree.entryAt? l = some (.link target)) := by
  obtain ⟨-, -, ⟨-, -, hne⟩ | ⟨-, htree, hok⟩⟩ := collect_step hdry h
  · exact absurd rfl hne
  obtain ⟨stats, hstats⟩ := hok rfl
  have hcopy : Files.copyDirectory s.cwd source destination m.tree = (.ok stats, m'.tree) := Prod.ext hstats htree.symm
  have hdelivers := Files.copyDirectory_delivers hu hnul ha hcopy
  obtain ⟨k, c, x, l, hk, hfile, hfound⟩ := hdelivers.delivered r trivial hr
  -- what has been read is what was there at first
  obtain ⟨k', x', hstat⟩ := Files.read_eq_ok hread
  obtain rfl := (Files.stat_leadsTo hstat (Or.inl rfl)).unique hk
  have hfirst : m.tree.entryAt? k' = some (.file content x') := Tree.entryAt?_eq_file_iff.2 (Files.stat_get? hstat)
  obtain ⟨rfl, rfl⟩ := Entry.file.inj (Option.some.inj (hfirst.symm.trans hfile))
  have hkept := hdelivers.file hfile fun r' _ hr' hl => hu.unread r' r k' hr' hr hl hk
  refine ⟨Files.read_of_stat (Files.stat_file_extends hdelivers.kept hstat hkept), Files.read_of_stat hfound, ?_⟩
  rcases Files.stat_unfollowed hfound with hlast | ⟨d, target, hlast⟩
  · exact ⟨l, _, hlast, Or.inl ⟨x', rfl⟩⟩
  · have hlink := Tree.entryAt?_eq_link_iff.2 (Files.stat_get? hlast)
    exact ⟨d, _, hlast, Or.inr ⟨target, rfl, (hdelivers.sameLinks d target).2 hlink⟩⟩

/-- A project with a library that has been built. -/
def stocked : Tree := .ofEntries [([encode "p"], .directory), ([encode "p", encode "build"], .directory),
  ([encode "p", encode "build", encode "libs"], .directory),
  ([encode "p", encode "build", encode "libs", encode "a.jar"], .file (encode "new") false)]

private theorem noLinks_stocked : stocked.NoLinks := Tree.noLinks_ofEntries (by simp)

theorem collect_delivers_plain : ∃ m',
    (Project.plain (.ofText "/p")).dry = false ∧ stocked.NoNul ∧
    LeadsTo stocked [] (.ofText "/p/build/libs") [encode "p", encode "build", encode "libs"] ∧
    Undisturbed stocked [] (.ofText "/p/build/libs") (.ofText "/p/.out/deliverables/java")
      [encode "p", encode "build", encode "libs"] ∧
    (Step.collect (.ofText "/p/build/libs") (.ofText "/p/.out/deliverables/java")).run (.plain (.ofText "/p"))
      ⟨[], [], fun _ _ tree => { tree }⟩ { tree := stocked } = (.ok (), m') ∧
    IsLeaf stocked [encode "p", encode "build", encode "libs"] [encode "a.jar"] ∧
    Files.read stocked [] ((Path.ofText "/p/build/libs").below [encode "a.jar"]) = .ok (encode "new") ∧
    Files.read m'.tree [] ((Path.ofText "/p/build/libs").below [encode "a.jar"]) = .ok (encode "new") ∧
    Files.read m'.tree [] ((Path.ofText "/p/.out/deliverables/java").below [encode "a.jar"]) = .ok (encode "new") ∧
    ∃ l n, Files.stat m'.tree [] ((Path.ofText "/p/.out/deliverables/java").below [encode "a.jar"]) false = .ok (l, n) ∧
      ((∃ x, n = .file (encode "new") x) ∨ ∃ target, n = .link target ∧ stocked.entryAt? l = some (.link target)) := by
  have hsource : LeadsTo stocked [] (.ofText "/p/build/libs") [encode "p", encode "build", encode "libs"] :=
    Files.leads_lexical noLinks_stocked [] _
  have hdestination : LeadsTo stocked [] (.ofText "/p/.out/deliverables/java")
      [encode "p", encode ".out", encode "deliverables", encode "java"] := Files.leads_lexical noLinks_stocked [] _
  have hu := Files.undisturbed_of_apart hsource hdestination (by decide) (by decide) (fun _ => noLinks_stocked _)
    fun _ target _ hlink => absurd hlink (noLinks_stocked _ target)
  obtain ⟨m', hrun⟩ : ∃ m', (Step.collect (.ofText "/p/build/libs") (.ofText "/p/.out/deliverables/java")).run
      (.plain (.ofText "/p")) ⟨[], [], fun _ _ tree => { tree }⟩ { tree := stocked } = (.ok (), m') :=
    exists_state (by decide +kernel)
  have hleaf : IsLeaf stocked [encode "p", encode "build", encode "libs"] [encode "a.jar"] :=
    ⟨.file (encode "new") false, by decide +kernel, by simp⟩
  have hread : Files.read stocked [] ((Path.ofText "/p/build/libs").below [encode "a.jar"]) = .ok (encode "new") := by
    decide +kernel
  exact ⟨m', rfl, noLinks_stocked.noNul, hsource, hu, hrun, hleaf, hread,
    collect_delivers rfl noLinks_stocked.noNul hsource hu hrun hleaf hread⟩

/-- The libraries are to be delivered where they are built. -/
def inPlace : Config :=
  { paths := { projectRoot := some (.ofText "/p"), java := some (.ofText "/p/build/libs") } }

/-- A library that is collected into its own directory is lost: each file is emptied before it is read, and the step
comes to a good end. -/
theorem collect_empties : inPlace.validate = .ok () ∧ ∃ p, Project.ofConfig inPlace = .ok p ∧
    .collect p.layout.libs p.layout.java ∈ (Task.library false).plan p.layout ∧
    Files.read stocked [] (p.layout.libs.below [encode "a.jar"]) = .ok (encode "new") ∧
    ((Step.collect p.layout.libs p.layout.java).run p ⟨[], [], fun _ _ tree => { tree }⟩ { tree := stocked }).1 =
      .ok () ∧
    Files.read ((Step.collect p.layout.libs p.layout.java).run p ⟨[], [], fun _ _ tree => { tree }⟩
      { tree := stocked }).2.tree [] (p.layout.libs.below [encode "a.jar"]) = .ok [] := by
  refine ⟨by decide +kernel, ⟨inPlace, inPlace.paths.layoutFrom (.ofText "/p"), false⟩, by decide +kernel, ?_,
    by decide +kernel, by decide +kernel, by decide +kernel⟩
  simp [Task.plan, Task.products]

end Step

end GradleBuild
