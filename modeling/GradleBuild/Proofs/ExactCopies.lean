import GradleBuild.Proofs.Making
import Mathlib.Data.Set.Card

/-!
# Copies that are exact

Between two directories that lie apart, a copy comes to a good end and leaves the target as the source is, if nothing
stands in its way: no file where a directory goes, no directory where a file goes, no link in the target, and no path
too long.  `Copyable` says this of the tree at the start.  In which order the entries of a directory are listed is up
to the tree.

One step changes places of the target that have a counterpart in the source, and gives each what it has in the end
(`Advances`).  So what one step has done the later ones leave as it is, and all steps together are `Exact`.

* `Advances.reads`: the source is read throughout as at the start.
* `copyDirectory_exact`: what a copy returns, what is where afterwards, and that nothing else has changed.
-/

namespace GradleBuild.Files

variable {t t₁ t₂ t₃ : Tree} {cwd a b k q r : Location} {source destination : Path} {name : Name} {c : Bytes} {x : Bool}
  {S S' : Location → Prop} {stats stats' : CopyStats} {entries : List (Name × Bool)}

/-- Below the source, the path to `r` leads to a file with this content, links being followed. -/
def Reads (t : Tree) (cwd : Location) (source : Path) (r : Location) (c : Bytes) (x : Bool) : Prop :=
  ∃ s, stat t cwd (source.below r) true = .ok (s, .file c x)

/-- Nothing in the tree stands in the way of a copy from `a`, the place of `source`, to `b`. -/
structure Unobstructed (t : Tree) (cwd : Location) (source destination : Path) (a b : Location) : Prop where
  sourceAt : ∃ cs, stat t cwd source true = .ok (a, .directory cs)
  outside : ¬ a <+: b
  apart : ¬ b <+: a
  noLinks : ∀ r target, t.entryAt? (b ++ r) ≠ some (.link target)
  /-- Where a directory is copied to is no file. -/
  directories : ∀ r c x, t.entryAt? (a ++ r) = some .directory → t.entryAt? (b ++ r) ≠ some (.file c x)
  /-- Where anything else is copied to is no directory. -/
  leaves : ∀ r, IsLeaf t a r → t.entryAt? (b ++ r) ≠ some .directory
  /-- A link leads to a file, and not into the target. -/
  links : ∀ r target, t.entryAt? (a ++ r) = some (.link target) →
    ∃ s c x, stat t cwd (source.below r) true = .ok (s, .file c x) ∧ ¬ b <+: s
  short : ∀ r, t.entryAt? (a ++ r) ≠ none →
    (source.below r).bytes.length ≤ longestPath ∧ (destination.below r).bytes.length ≤ longestPath

/-- And the path of the target is one whose directory is there or can be made. -/
structure Copyable (t : Tree) (cwd : Location) (source destination : Path) (a b : Location) : Prop
    extends Unobstructed t cwd source destination a b where
  targetAt : Makeable t cwd destination b

/-- From one tree to another nothing has been done but to make directories, above the target or for those of the
source, and to write files for what else is in the source.  What is in the source is up to the tree `t`. -/
structure Advances (t : Tree) (cwd : Location) (source : Path) (a b : Location) (t₁ t₂ : Tree) : Prop where
  only : ∀ k, t₂.entryAt? k ≠ t₁.entryAt? k →
    (t₁.entryAt? k = none ∧ t₂.entryAt? k = some .directory ∧
      (k <+: b ∨ ∃ r, k = b ++ r ∧ t.entryAt? (a ++ r) = some .directory)) ∨
    ∃ r c x, k = b ++ r ∧ IsLeaf t a r ∧ Reads t cwd source r c x ∧ t₁.Writable k ∧ t₂.entryAt? k = some (.file c x)

theorem Reads.unique {c' : Bytes} {x' : Bool} (h : Reads t cwd source r c x) (h' : Reads t cwd source r c' x') :
    c = c' ∧ x = x' := by
  obtain ⟨s, hs⟩ := h
  obtain ⟨s', hs'⟩ := h'
  obtain ⟨-, hfile⟩ := Prod.mk.inj (Except.ok.inj (hs.symm.trans hs'))
  exact Node.file.inj hfile

namespace Advances

theorem refl (t₁ : Tree) : Advances t cwd source a b t₁ t₁ := ⟨fun _ hk => absurd rfl hk⟩

theorem extends_to (h : Advances t cwd source a b t₁ t₂) : t₁.Extends t₂ := by
  intro k e he
  by_cases hk : t₂.entryAt? k = t₁.entryAt? k
  · exact ⟨e, hk.trans he, .refl e⟩
  · rcases h.only k hk with ⟨hn, -⟩ | ⟨r, c, x, rfl, -, -, hw, hfile⟩
    · simp [hn] at he
    · rcases hw with hn | ⟨c', x', hold⟩
      · simp [hn] at he
      · obtain rfl := Option.some.inj (hold.symm.trans he)
        exact ⟨_, hfile, trivial⟩

theorem trans (h : Advances t cwd source a b t₁ t₂) (h' : Advances t cwd source a b t₂ t₃) :
    Advances t cwd source a b t₁ t₃ := by
  refine ⟨fun k hk => ?_⟩
  by_cases he : t₃.entryAt? k = t₂.entryAt? k
  · rw [he] at hk ⊢
    exact h.only k hk
  · rcases h'.only k he with ⟨hn, hdir, hplace⟩ | ⟨r, c, x, rfl, hleaf, hreads, hw, hfile⟩
    · exact Or.inl ⟨h.extends_to.eq_none hn, hdir, hplace⟩
    · refine Or.inr ⟨r, c, x, rfl, hleaf, hreads, ?_, hfile⟩
      -- what can be written later could be written before
      rcases hw with hn | ⟨c', x', hold⟩
      · exact Or.inl (h.extends_to.eq_none hn)
      · by_cases heq : t₂.entryAt? (b ++ r) = t₁.entryAt? (b ++ r)
        · exact Or.inr ⟨c', x', heq ▸ hold⟩
        · rcases h.only _ heq with ⟨hn, -⟩ | ⟨-, -, -, -, -, -, hw, -⟩
          · exact Or.inl hn
          · exact hw

/-- The directories that are made on the way to a directory of the target. -/
theorem of_made (hq : t.entryAt? (a ++ q) = some .directory) (h : Made t₁ (b ++ q) t₂) :
    Advances t cwd source a b t₁ t₂ := by
  refine ⟨fun k hk => ?_⟩
  obtain ⟨hn, hdir, hpre⟩ := h.only k hk
  refine Or.inl ⟨hn, hdir, ?_⟩
  rcases List.prefix_or_prefix_of_prefix hpre (List.prefix_append b q) with hpre' | ⟨r, rfl⟩
  · exact Or.inl hpre'
  · rw [List.prefix_append_right_inj] at hpre
    exact Or.inr ⟨r, rfl, Tree.directory_above ((List.prefix_append_right_inj a).2 hpre) hq⟩

/-- The file that is written for a leaf. -/
theorem of_put (hleaf : IsLeaf t a r) (hreads : Reads t cwd source r c x) (hw : t₁.Writable (b ++ r)) (y : Bool)
    (hput : ((t₁.put (b ++ r) (.file [] y)).put (b ++ r) (.file c x)).entryAt? (b ++ r) = some (.file c x)) :
    Advances t cwd source a b t₁ ((t₁.put (b ++ r) (.file [] y)).put (b ++ r) (.file c x)) := by
  refine ⟨fun k hk => ?_⟩
  have hgrows := (Tree.grows_put_file (K := (· = b ++ r)) hw rfl [] y).trans
    (Tree.grows_put_file (K := (· = b ++ r)) (Tree.writable_put hw [] y) rfl c x)
  obtain rfl := hgrows.only k hk
  exact Or.inr ⟨r, c, x, rfl, hleaf, hreads, hw, hput⟩

/-- What has been copied stays as it is. -/
theorem file (h : Advances t cwd source a b t₁ t₂) (hreads : Reads t cwd source r c x)
    (hfile : t₁.entryAt? (b ++ r) = some (.file c x)) : t₂.entryAt? (b ++ r) = some (.file c x) := by
  by_contra hne
  rcases h.only _ (by rwa [hfile]) with ⟨hn, -⟩ | ⟨r', c', x', he, -, hreads', -, hfile'⟩
  · simp [hn] at hfile
  · obtain rfl := List.append_cancel_left he
    obtain ⟨rfl, rfl⟩ := hreads.unique hreads'
    exact hne hfile'

end Advances

section

variable (hcopy : Copyable t cwd source destination a b)

include hcopy

namespace Copyable

theorem directory_source : t.entryAt? a = some .directory := by
  obtain ⟨cs, hstat⟩ := hcopy.sourceAt
  exact Tree.entryAt?_eq_directory_iff.2 ⟨cs, stat_get? hstat⟩

/-- No place is both in the source and in the target. -/
theorem ne_target (r r' : Location) : a ++ r ≠ b ++ r' := fun he =>
  not_prefix_of_apart ⟨hcopy.outside, hcopy.apart⟩ (List.prefix_append a r) (he ▸ List.prefix_append b r')

end Copyable

/-- The source stays as it is. -/
theorem Advances.source_eq (h : Advances t cwd source a b t t₁) (r : Location) :
    t₁.entryAt? (a ++ r) = t.entryAt? (a ++ r) := by
  by_contra hne
  rcases h.only _ hne with ⟨-, -, hpre | ⟨r', he, -⟩⟩ | ⟨r', -, -, he, -⟩
  · exact hcopy.outside ((List.prefix_append a r).trans hpre)
  · exact hcopy.ne_target r r' he
  · exact hcopy.ne_target r r' he

/-- Directories of the source are found. -/
theorem Copyable.stat_directory (hr : t.entryAt? (a ++ r) = some .directory) :
    ∃ cs, stat t cwd (source.below r) true = .ok (a ++ r, .directory cs) := by
  induction r using List.reverseRecOn with
  | nil => simpa using hcopy.sourceAt
  | append_singleton r name ih =>
    have hlength := (hcopy.short (r ++ [name]) (by simp [hr])).1
    rw [← List.append_assoc] at hr ⊢
    obtain ⟨cs, hstat⟩ := ih (Tree.entryAt?_of_append (List.cons_ne_nil name []) hr)
    rw [Path.below_concat] at hlength ⊢
    exact stat_join_directory hstat hlength hr

/-- Every leaf of the source leads to a file outside the target. -/
theorem Copyable.stat_leaf (hr : IsLeaf t a r) :
    ∃ s c x, stat t cwd (source.below r) true = .ok (s, .file c x) ∧ ¬ b <+: s := by
  obtain ⟨e, he, hne⟩ := hr
  cases e with
  | directory => exact absurd rfl hne
  | link target => exact hcopy.links r target he
  | file c x =>
    rcases List.eq_nil_or_concat' r with rfl | ⟨r, name, rfl⟩
    · rw [List.append_nil, hcopy.directory_source] at he
      cases he
    · have hlength := (hcopy.short (r ++ [name]) (by simp [he])).1
      rw [← List.append_assoc] at he
      obtain ⟨cs, hstat⟩ := hcopy.stat_directory (Tree.entryAt?_of_append (List.cons_ne_nil name []) he)
      rw [Path.below_concat] at hlength ⊢
      refine ⟨_, c, x, stat_join_file hstat hlength he, ?_⟩
      rw [List.append_assoc]
      exact not_prefix_of_apart ⟨hcopy.outside, hcopy.apart⟩ (List.prefix_append a _)

/-- The source is read throughout as at the start. -/
theorem Advances.reads (h : Advances t cwd source a b t t₁) (hr : IsLeaf t a r) :
    ∃ s c x, Reads t cwd source r c x ∧ stat t₁ cwd (source.below r) true = .ok (s, .file c x) ∧ ¬ b <+: s := by
  obtain ⟨s, c, x, hstat, hs⟩ := hcopy.stat_leaf hr
  refine ⟨s, c, x, ⟨s, hstat⟩, stat_file_extends h.extends_to hstat ?_, hs⟩
  have hfile : t.entryAt? s = some (.file c x) := Tree.entryAt?_eq_file_iff.2 (stat_get? hstat)
  by_contra hne
  rcases h.only s (by rwa [hfile]) with ⟨hn, -⟩ | ⟨r', -, -, rfl, -⟩
  · simp [hn] at hfile
  · exact hs (List.prefix_append b r')

/-- Where a directory is to be, there is one or nothing. -/
theorem Advances.directory_or_none (h : Advances t cwd source a b t t₁) (hr : t.entryAt? (a ++ r) = some .directory) :
    t₁.entryAt? (b ++ r) = none ∨ t₁.entryAt? (b ++ r) = some .directory := by
  by_cases heq : t₁.entryAt? (b ++ r) = t.entryAt? (b ++ r)
  · rw [heq]
    cases hk : t.entryAt? (b ++ r) with
    | none => exact Or.inl rfl
    | some e =>
      cases e with
      | directory => exact Or.inr rfl
      | file c x => exact absurd hk (hcopy.directories r c x hr)
      | link target => exact absurd hk (hcopy.noLinks r target)
  · rcases h.only _ heq with ⟨-, hdir, -⟩ | ⟨r', c, x, he, ⟨e, hleaf, hne⟩, -⟩
    · exact Or.inr hdir
    · obtain rfl := List.append_cancel_left he
      rw [hr, Option.some.injEq] at hleaf
      exact absurd hleaf.symm hne

/-- Where a file is to be, there is one or nothing. -/
theorem Advances.writable (h : Advances t cwd source a b t t₁) (hr : IsLeaf t a r) : t₁.Writable (b ++ r) := by
  by_cases heq : t₁.entryAt? (b ++ r) = t.entryAt? (b ++ r)
  · unfold Tree.Writable
    rw [heq]
    cases hk : t.entryAt? (b ++ r) with
    | none => exact Or.inl rfl
    | some e =>
      cases e with
      | directory => exact absurd hk (hcopy.leaves r hr)
      | file c x => exact Or.inr ⟨c, x, rfl⟩
      | link target => exact absurd hk (hcopy.noLinks r target)
  · rcases h.only _ heq with ⟨-, -, hplace⟩ | ⟨r', c, x, -, -, -, -, hfile⟩
    · -- a leaf of the source is no directory there
      exfalso
      obtain ⟨e, he, hne⟩ := hr
      have hdir : t.entryAt? (a ++ r) = some .directory := by
        rcases hplace with hpre | ⟨r', he', hdir⟩
        · have hlength := hpre.length_le
          rw [List.length_append] at hlength
          obtain rfl : r = [] := List.eq_nil_of_length_eq_zero (by omega)
          rw [List.append_nil]
          exact hcopy.directory_source
        · exact List.append_cancel_left he' ▸ hdir
      rw [he, Option.some.injEq] at hdir
      exact hne hdir
    · exact Or.inr ⟨c, x, hfile⟩

end

/-! ### What one step does -/

/-- At the places `S` everything has been copied, and has been counted. -/
structure Exact (t : Tree) (cwd : Location) (source : Path) (a b : Location) (S : Location → Prop) (t₁ : Tree)
    (stats : CopyStats) (t₂ : Tree) : Prop extends Advances t cwd source a b t₁ t₂ where
  files : ∀ r, S r → IsLeaf t a r → ∃ c x, Reads t cwd source r c x ∧ t₂.entryAt? (b ++ r) = some (.file c x)
  directories : ∀ r, S r → t.entryAt? (a ++ r) = some .directory → t₂.entryAt? (b ++ r) = some .directory
  fileCount : {r | S r ∧ IsLeaf t a r}.encard = stats.files
  dirCount : {r | S r ∧ t.entryAt? (a ++ r) = some .directory}.encard = stats.dirs

namespace Exact

theorem nothing (t₁ : Tree) : Exact t cwd source a b (fun _ => False) t₁ {} t₁ := by
  refine ⟨.refl t₁, by simp, by simp, ?_, ?_⟩ <;> simp

/-- One step after another, if they are about different places. -/
theorem trans (h : Exact t cwd source a b S t₁ stats t₂) (h' : Exact t cwd source a b S' t₂ stats' t₃)
    (hdisjoint : ∀ r, S r → ¬ S' r) : Exact t cwd source a b (fun r => S r ∨ S' r) t₁ (stats.add stats') t₃ := by
  have hcount (P : Location → Prop) :
      {r | (S r ∨ S' r) ∧ P r}.encard = {r | S r ∧ P r}.encard + {r | S' r ∧ P r}.encard := by
    rw [← Set.encard_union_eq]
    · congr 1
      ext r
      simp only [Set.mem_ofPred_eq, Set.mem_union]
      tauto
    · rw [Set.disjoint_left]
      exact fun r hr hr' => hdisjoint r hr.1 hr'.1
  refine ⟨h.toAdvances.trans h'.toAdvances, fun r hr hleaf => ?_, fun r hr hdir => ?_, ?_, ?_⟩
  · rcases hr with hr | hr
    · obtain ⟨c, x, hreads, hfile⟩ := h.files r hr hleaf
      exact ⟨c, x, hreads, h'.toAdvances.file hreads hfile⟩
    · exact h'.files r hr hleaf
  · rcases hr with hr | hr
    · exact h'.extends_to.directory (h.directories r hr hdir)
    · exact h'.directories r hr hdir
  · rw [hcount, h.fileCount, h'.fileCount]
    rfl
  · rw [hcount, h.dirCount, h'.dirCount]
    rfl

/-- What is done before counts for nothing. -/
theorem advance (h : Advances t cwd source a b t₁ t₂) (h' : Exact t cwd source a b S t₂ stats t₃) :
    Exact t cwd source a b S t₁ stats t₃ :=
  ⟨h.trans h'.toAdvances, h'.files, h'.directories, h'.fileCount, h'.dirCount⟩

/-- Only the places in the source matter. -/
theorem congr (h : Exact t cwd source a b S t₁ stats t₂) (hS : ∀ r, t.entryAt? (a ++ r) ≠ none → (S r ↔ S' r)) :
    Exact t cwd source a b S' t₁ stats t₂ := by
  have hleaf {r : Location} (hr : IsLeaf t a r) : t.entryAt? (a ++ r) ≠ none := by
    obtain ⟨e, he, -⟩ := hr
    simp [he]
  have hdirectory {r : Location} (hr : t.entryAt? (a ++ r) = some .directory) : t.entryAt? (a ++ r) ≠ none := by
    simp [hr]
  refine ⟨h.toAdvances, fun r hr hl => h.files r ((hS r (hleaf hl)).2 hr) hl,
    fun r hr hd => h.directories r ((hS r (hdirectory hd)).2 hr) hd, ?_, ?_⟩
  · rw [← h.fileCount]
    congr 1
    ext r
    exact and_congr_left fun hl => (hS r (hleaf hl)).symm
  · rw [← h.dirCount]
    congr 1
    ext r
    exact and_congr_left fun hd => (hS r (hdirectory hd)).symm

/-- A leaf counts for one, and nothing is below it. -/
theorem leaf (h : Advances t cwd source a b t₁ t₂) (hq : IsLeaf t a q) (hreads : Reads t cwd source q c x)
    (hfile : t₂.entryAt? (b ++ q) = some (.file c x)) : Exact t cwd source a b (q <+: ·) t₁ ⟨1, 0⟩ t₂ := by
  have hnot {r : Location} (hp : q <+: r) : t.entryAt? (a ++ r) ≠ some .directory := by
    intro hd
    obtain ⟨e, he, hne⟩ := hq
    rw [Tree.directory_above ((List.prefix_append_right_inj a).2 hp) hd, Option.some.injEq] at he
    exact hne he.symm
  refine ⟨h, fun r hp hr => ?_, fun r hp hd => absurd hd (hnot hp), ?_, ?_⟩
  · obtain rfl := hq.eq_of_prefix hr hp
    exact ⟨c, x, hreads, hfile⟩
  · have hfiles : {r | q <+: r ∧ IsLeaf t a r} = {q} := by
      ext r
      refine ⟨fun hr => (hq.eq_of_prefix hr.2 hr.1).symm, ?_⟩
      rintro rfl
      exact ⟨List.prefix_refl r, hq⟩
    rw [hfiles, Set.encard_singleton]
    rfl
  · have hdirs : {r | q <+: r ∧ t.entryAt? (a ++ r) = some .directory} = ∅ :=
      Set.eq_empty_of_forall_notMem fun r hr => hnot hr.1 hr.2
    rw [hdirs, Set.encard_empty]
    rfl

/-- A directory counts for one with all that is below it. -/
theorem top (h : Exact t cwd source a b (fun r => q <+: r ∧ r ≠ q) t₁ stats t₂)
    (hq : t.entryAt? (a ++ q) = some .directory) (htop : t₂.entryAt? (b ++ q) = some .directory) :
    Exact t cwd source a b (q <+: ·) t₁ (CopyStats.add ⟨0, 1⟩ stats) t₂ := by
  have hne {r : Location} (hr : IsLeaf t a r) : r ≠ q := by
    rintro rfl
    obtain ⟨e, he, hne⟩ := hr
    rw [hq, Option.some.injEq] at he
    exact hne he.symm
  refine ⟨h.toAdvances, fun r hr hl => h.files r ⟨hr, hne hl⟩ hl, fun r hr hd => ?_, ?_, ?_⟩
  · by_cases he : r = q
    · rwa [he]
    · exact h.directories r ⟨hr, he⟩ hd
  · have hfiles : {r | q <+: r ∧ IsLeaf t a r} = {r | (q <+: r ∧ r ≠ q) ∧ IsLeaf t a r} := by
      ext r
      exact ⟨fun hr => ⟨⟨hr.1, hne hr.2⟩, hr.2⟩, fun hr => ⟨hr.1.1, hr.2⟩⟩
    rw [hfiles, h.fileCount]
    simp [CopyStats.add]
  · have hdirs : {r | q <+: r ∧ t.entryAt? (a ++ r) = some .directory} =
        insert q {r | (q <+: r ∧ r ≠ q) ∧ t.entryAt? (a ++ r) = some .directory} := by
      ext r
      by_cases he : r = q
      · simp [he, hq]
      · simp [he]
    rw [hdirs, Set.encard_insert_of_notMem (by simp), h.dirCount, add_comm]
    simp [CopyStats.add]

end Exact

/-- What is below a directory is at or below one of the entries listed there. -/
private theorem below_listed {cs : List (Name × Node)} (ht : t.Extends t₁)
    (hcs : t₁.get? (a ++ q) = some (.directory cs)) (hr : t.entryAt? (a ++ r) ≠ none) :
    (∃ e ∈ cs.map fun (name, n) => (name, n.isDirectory), q ++ [e.1] <+: r) ↔ q <+: r ∧ r ≠ q := by
  constructor
  · rintro ⟨e, -, hp⟩
    refine ⟨(List.prefix_append q _).trans hp, ?_⟩
    rintro rfl
    have hlength := hp.length_le
    rw [List.length_append, List.length_singleton] at hlength
    omega
  · rintro ⟨⟨m, rfl⟩, hne⟩
    obtain ⟨name, m, rfl⟩ := List.exists_cons_of_ne_nil (fun hm : m = [] => hne (by simp [hm]))
    have hn : t₁.get? (a ++ q ++ [name]) ≠ none := by
      intro hnone
      have hfree := ht.eq_none (Tree.entryAt?_eq_none_iff.2 hnone)
      exact hr (by simpa using Tree.entryAt?_append_eq_none hfree m)
    obtain ⟨n, hn⟩ := Option.ne_none_iff_exists'.1 hn
    exact ⟨(name, n.isDirectory), List.mem_map.2 ⟨(name, n), (Tree.mem_children_iff hcs).2 hn, rfl⟩, ⟨m, by simp⟩⟩

section

variable (hcopy : Copyable t cwd source destination a b)

include hcopy

/-- A leaf is copied. -/
private theorem copyFile_exact (hsince : Advances t cwd source a b t t₁) (hr : IsLeaf t a (q ++ [name]))
    {ds : List (Name × Node)} (hparent : stat t₁ cwd (destination.below q) true = .ok (b ++ q, .directory ds)) :
    ∃ t₂, copyFile cwd ((source.below q).join ⟨name⟩) ((destination.below q).join ⟨name⟩) t₁ = (.ok (), t₂) ∧
      Exact t cwd source a b (q ++ [name] <+: ·) t₁ ⟨1, 0⟩ t₂ := by
  obtain ⟨s, c, x, hreads, hstat, hs⟩ := hsince.reads hcopy hr
  have hw := hsince.writable hcopy hr
  obtain ⟨e, he, hne⟩ := id hr
  have hv : name.IsValid := Tree.isValid_of_entryAt? he name (by simp)
  have hlength := (hcopy.short (q ++ [name]) (by simp [he])).2
  rw [Path.below_concat] at hlength hstat
  rw [← List.append_assoc] at hw
  obtain ⟨y, hcreate⟩ := createFile_join hparent hv hlength hw
  have hplace : b ++ q ++ [name] = b ++ (q ++ [name]) := List.append_assoc ..
  rw [hplace] at hw hcreate
  -- the file that is read is not the one that has been created
  have hread : (t₁.put (b ++ (q ++ [name])) (.file [] y)).entryAt? s = some (.file c x) := by
    rw [Tree.entryAt?_put, Tree.entryAt?_eq_file_iff.2 (stat_get? hstat)]
    exact fun hpre => hs ((List.prefix_append b _).trans hpre)
  have hempty : (t₁.put (b ++ (q ++ [name])) (.file [] y)).entryAt? (b ++ (q ++ [name])) = some (.file [] y) := by
    have hd : t₁.entryAt? (b ++ q) = some .directory := Tree.entryAt?_eq_directory_iff.2 ⟨ds, stat_get? hparent⟩
    simpa using Tree.entryAt?_put_below (r := []) hd hv (.file [] y)
  have hfile := Tree.entryAt?_put_of_file hempty (.file c x)
  refine ⟨_, ?_, .leaf (.of_put hr hreads hw y hfile) hr hreads hfile⟩
  unfold copyFile
  rw [query_bind_ok hstat]
  dsimp only
  rw [bind_apply_ok hcreate, bind_apply_ok (get_apply _), hread]
  rfl

section

variable (descend : Path → Path → FileAction Cause CopyStats)
  (hdescend : ∀ {name t₁}, t.entryAt? (a ++ (q ++ [name])) = some .directory → Advances t cwd source a b t t₁ →
    Makeable t₁ cwd (destination.below (q ++ [name])) (b ++ (q ++ [name])) →
    ∃ stats t₂, descend (source.below (q ++ [name])) (destination.below (q ++ [name])) t₁ = (.ok stats, t₂) ∧
      Exact t cwd source a b (fun r => q ++ [name] <+: r ∧ r ≠ q ++ [name]) t₁ stats t₂ ∧
      t₂.entryAt? (b ++ (q ++ [name])) = some .directory)

include hdescend

private theorem copyEntry_exact (hsince : Advances t cwd source a b t t₁)
    (hm : Makeable t₁ cwd (destination.below q) (b ++ q)) (hq : t₁.entryAt? (b ++ q) = some .directory)
    {e : Name × Bool} (he : Listed t (a ++ q) (e :: entries)) :
    ∃ stats t₂, copyEntry cwd descend (source.below q) (destination.below q) e t₁ = (.ok stats, t₂) ∧
      Exact t cwd source a b (q ++ [e.1] <+: ·) t₁ stats t₂ := by
  obtain ⟨name, isDirectory⟩ := e
  obtain ⟨hn, hd⟩ := he (name, isDirectory) (by simp)
  obtain ⟨ds, hparent⟩ := hm.stat_directory hq
  dsimp only at hn hd ⊢
  rw [List.append_assoc] at hn hd
  cases isDirectory with
  | true =>
    have hdir := hd.1 rfl
    have hv : name.IsValid := Tree.isValid_of_entryAt? hdir name (by simp)
    have hlength := (hcopy.short (q ++ [name]) hn).2
    have hplace := hsince.directory_or_none hcopy hdir
    rw [Path.below_concat] at hlength
    rw [← List.append_assoc] at hplace
    have hmake := hm.join hv hlength hplace
    rw [← Path.below_concat, List.append_assoc] at hmake
    obtain ⟨stats, t₂, hbelow, hexact, htop⟩ := hdescend hdir hsince hmake
    refine ⟨_, t₂, ?_, hexact.top hdir htop⟩
    rw [Path.below_concat, Path.below_concat] at hbelow
    unfold copyEntry
    dsimp only
    rw [bind_apply_ok hbelow]
    rfl
  | false =>
    obtain ⟨e, he⟩ := Option.ne_none_iff_exists'.1 hn
    have hleaf : IsLeaf t a (q ++ [name]) := ⟨e, he, by
      rintro rfl
      simpa using hd.2 he⟩
    obtain ⟨t₂, hfile, hexact⟩ := copyFile_exact hcopy hsince hleaf hparent
    refine ⟨_, t₂, ?_, hexact⟩
    unfold copyEntry
    dsimp only
    rw [bind_apply_ok (onPath_apply_ok hfile)]
    rfl

private theorem copyEntries_exact (hsince : Advances t cwd source a b t t₁)
    (hm : Makeable t₁ cwd (destination.below q) (b ++ q)) (hq : t₁.entryAt? (b ++ q) = some .directory)
    (hes : Listed t (a ++ q) entries) (hnodup : (entries.map Prod.fst).Nodup) :
    ∃ stats t₂, copyEntries cwd descend (source.below q) (destination.below q) entries t₁ = (.ok stats, t₂) ∧
      Exact t cwd source a b (fun r => ∃ e ∈ entries, q ++ [e.1] <+: r) t₁ stats t₂ := by
  induction entries generalizing t₁ with
  | nil => exact ⟨_, t₁, rfl, (Exact.nothing t₁).congr (by simp)⟩
  | cons e entries ih =>
    rw [List.map_cons, List.nodup_cons] at hnodup
    obtain ⟨s₁, t₂, h₁, hfirst⟩ := copyEntry_exact hcopy descend hdescend hsince hm hq hes
    have hq₂ := hfirst.extends_to.directory hq
    obtain ⟨s₂, t₃, h₂, hothers⟩ := ih (hsince.trans hfirst.toAdvances) (hm.extends_to hfirst.extends_to hq₂) hq₂
      hes.tail hnodup.2
    -- what is below one entry is not below another
    have hdisjoint : ∀ r, q ++ [e.1] <+: r → ¬ ∃ e' ∈ entries, q ++ [e'.1] <+: r := by
      rintro r hr ⟨e', he', hr'⟩
      have heq := (List.prefix_of_prefix_length_le hr hr' (by simp)).eq_of_length (by simp)
      have hname : e.1 = e'.1 := by simpa using heq
      exact hnodup.1 (hname ▸ List.mem_map_of_mem he')
    refine ⟨_, t₃, ?_, (hfirst.trans hothers hdisjoint).congr (by simp)⟩
    unfold copyEntries
    rw [bind_apply_ok h₁, bind_apply_ok h₂]
    rfl

end

/-- A copy of a directory lists the source once the target has been made. -/
private theorem copyLevels_exact (depth : Nat) (hdepth : longestPath + 2 ≤ depth + q.length)
    (hq : t.entryAt? (a ++ q) = some .directory) (hsince : Advances t cwd source a b t t₁)
    (hm : Makeable t₁ cwd (destination.below q) (b ++ q)) :
    ∃ stats t₂, copyLevels cwd depth (source.below q) (destination.below q) t₁ = (.ok stats, t₂) ∧
      Exact t cwd source a b (fun r => q <+: r ∧ r ≠ q) t₁ stats t₂ ∧ t₂.entryAt? (b ++ q) = some .directory := by
  induction depth generalizing q t₁ with
  | zero =>
    -- the path to the directory has a byte at least for each level
    have hlevels := Path.length_below source fun n hn => Tree.isValid_of_entryAt? hq n (List.mem_append_right a hn)
    have hlength := (hcopy.short q (by simp [hq])).1
    omega
  | succ depth ih =>
    obtain ⟨t₂, hcreate, hmade⟩ := createDirectories_made hm
    have hstep : Advances t cwd source a b t₁ t₂ := .of_made hq hmade
    have hsince₂ := hsince.trans hstep
    have hm₂ := hm.extends_to hmade.extends_to hmade.there
    -- the source is listed as it was at the start
    obtain ⟨ds, hds⟩ := hcopy.stat_directory hq
    obtain ⟨n, hstat⟩ := stat_extends hsince₂.extends_to hds
    obtain ⟨cs, hcs⟩ := Tree.entryAt?_eq_directory_iff.1 (hsince₂.extends_to.directory hq)
    obtain rfl := Option.some.inj ((stat_get? hstat).symm.trans hcs)
    have hlisted : Listed t (a ++ q) (cs.map fun (name, n) => (name, n.isDirectory)) := by
      intro e he
      have := listed_of_stat hstat e he
      rwa [List.append_assoc, hsince₂.source_eq hcopy, ← List.append_assoc] at this
    obtain ⟨stats, t₃, hentries, hexact⟩ := copyEntries_exact hcopy (copyLevels cwd depth)
      (fun hdir hsince hm => ih (by simp; omega) hdir hsince hm) hsince₂ hm₂ hmade.there hlisted
      (by simpa [List.map_map, Function.comp_def] using Tree.nodup_children hcs)
    have hall := (Exact.advance hstep hexact).congr fun r hr => below_listed hsince₂.extends_to hcs hr
    refine ⟨stats, t₃, ?_, hall, hexact.extends_to.directory hmade.there⟩
    unfold copyLevels
    rw [bind_apply_ok (onPath_apply_ok hcreate), bind_apply_ok (onPath_apply_ok (list_apply_ok hstat))]
    exact hentries

end

/-! ### The whole copy -/

/-- A target in which all directories of the source have been made is found directory by directory. -/
private theorem stat_target (hcopy : Copyable t cwd source destination a b) (ht : t.Extends t₁)
    (hdirectories : ∀ r, t.entryAt? (a ++ r) = some .directory → t₁.entryAt? (b ++ r) = some .directory)
    (hr : t.entryAt? (a ++ r) = some .directory) :
    ∃ cs, stat t₁ cwd (destination.below r) true = .ok (b ++ r, .directory cs) := by
  have hthere := hdirectories r hr
  induction r using List.reverseRecOn with
  | nil =>
    rw [List.append_nil] at hthere ⊢
    exact (hcopy.targetAt.extends_to ht hthere).stat_directory hthere
  | append_singleton r name ih =>
    have hlength := (hcopy.short (r ++ [name]) (by simp [hr])).2
    rw [← List.append_assoc] at hr hthere ⊢
    have habove := Tree.entryAt?_of_append (List.cons_ne_nil name []) hr
    obtain ⟨cs, hstat⟩ := ih habove (hdirectories r habove)
    rw [Path.below_concat] at hlength ⊢
    exact stat_join_directory hstat hlength hthere

/-- What an exact copy comes to. -/
structure Outcome (t : Tree) (cwd : Location) (source destination : Path) (a b : Location) (stats : CopyStats)
    (t' : Tree) : Prop where
  files : {r | IsLeaf t a r}.encard = stats.files
  dirs : {r | r ≠ [] ∧ t.entryAt? (a ++ r) = some .directory}.encard = stats.dirs
  /-- Each directory of the source has its counterpart. -/
  directories : ∀ r, t.entryAt? (a ++ r) = some .directory →
    ∃ cs, stat t' cwd (destination.below r) true = .ok (b ++ r, .directory cs)
  /-- The counterpart of anything else is a file, with the content and the execute permission that are found in the
  source when links are followed. -/
  leaves : ∀ r, IsLeaf t a r → ∃ s c x, stat t cwd (source.below r) true = .ok (s, .file c x) ∧
    stat t' cwd (destination.below r) true = .ok (b ++ r, .file c x)
  source_eq : ∀ r, t'.entryAt? (a ++ r) = t.entryAt? (a ++ r)
  /-- Where nothing of the source goes to, only directories that were missing above the target are new. -/
  only : ∀ k, (∀ r, t.entryAt? (a ++ r) ≠ none → k ≠ b ++ r) → t'.entryAt? k ≠ t.entryAt? k →
    k <+: b ∧ t.entryAt? k = none ∧ t'.entryAt? k = some .directory

/-- A copy that nothing stands in the way of comes to a good end, and is exact. -/
theorem copyDirectory_exact (h : Copyable t cwd source destination a b) : ∃ stats t',
    copyDirectory cwd source destination t = (.ok stats, t') ∧ Outcome t cwd source destination a b stats t' := by
  have hroot : t.entryAt? (a ++ []) = some .directory := by simpa using h.directory_source
  obtain ⟨stats, t', hrun, hexact, htop⟩ := copyLevels_exact h (longestPath + 2) (Nat.le_refl _) hroot (.refl t)
    (by simpa using h.targetAt)
  have hdirectories : ∀ r, t.entryAt? (a ++ r) = some .directory → t'.entryAt? (b ++ r) = some .directory := by
    intro r hr
    rcases eq_or_ne r [] with rfl | hne
    · exact htop
    · exact hexact.directories r ⟨List.nil_prefix, hne⟩ hr
  have hne {r : Location} (hr : IsLeaf t a r) : r ≠ [] := by
    rintro rfl
    obtain ⟨e, he, hne⟩ := hr
    rw [hroot, Option.some.injEq] at he
    exact hne he.symm
  refine ⟨stats, t', hrun, ?_, ?_, fun r hr => stat_target h hexact.extends_to hdirectories hr, fun r hr => ?_,
    hexact.source_eq h, fun k hk hchanged => ?_⟩
  · rw [← hexact.fileCount]
    congr 1
    ext r
    exact ⟨fun hr => ⟨⟨List.nil_prefix, hne hr⟩, hr⟩, fun hr => hr.2⟩
  · rw [← hexact.dirCount]
    congr 1
    ext r
    simp
  · obtain ⟨c, x, ⟨s, hs⟩, hfile⟩ := hexact.files r ⟨List.nil_prefix, hne hr⟩ hr
    refine ⟨s, c, x, hs, ?_⟩
    obtain ⟨r, name, rfl⟩ := (List.eq_nil_or_concat' r).resolve_left (hne hr)
    obtain ⟨e, he, -⟩ := hr
    have hlength := (h.short (r ++ [name]) (by simp [he])).2
    rw [← List.append_assoc] at he hfile ⊢
    obtain ⟨cs, hstat⟩ := stat_target h hexact.extends_to hdirectories
      (Tree.entryAt?_of_append (List.cons_ne_nil name []) he)
    rw [Path.below_concat] at hlength ⊢
    exact stat_join_file hstat hlength hfile
  · rcases hexact.only k hchanged with ⟨hn, hdir, hpre | ⟨r, hr, hsource⟩⟩ | ⟨r, c, x, hr, ⟨e, he, -⟩, -⟩
    · exact ⟨hpre, hn, hdir⟩
    · exact absurd hr (hk r (by simp [hsource]))
    · exact absurd hr (hk r (by simp [he]))

/-- A source with a link in it. -/
def stock : List (Location × Entry) := [([], .directory), ([encode "a"], .file (encode "new") true),
  ([encode "sub"], .directory), ([encode "sub", encode "b"], .link (.ofText "../a"))]

/-- A target that holds something already. -/
def leftovers : List (Location × Entry) := [([], .directory), ([encode "a"], .file (encode "old") false),
  ([encode "keep"], .file (encode "kept") false)]

def shelf : Tree := .ofEntries
  (stock.map (fun e => (encode "src" :: e.1, e.2)) ++ leftovers.map fun e => (encode "out" :: e.1, e.2))

private theorem copyable_shelf :
    Copyable shelf [] (.ofText "/src") (.ofText "/out") [encode "src"] [encode "out"] := by
  have hsource {r : Location} {e : Entry} (h : shelf.entryAt? ([encode "src"] ++ r) = some e) : (r, e) ∈ stock := by
    have hlist : ([], .directory) :: ((shelf.get? [encode "src"]).map Node.contents).getD [] = stock := by
      decide +kernel
    exact hlist ▸ Tree.mem_contents (by decide +kernel) h
  have htarget {r : Location} {e : Entry} (h : shelf.entryAt? ([encode "out"] ++ r) = some e) : (r, e) ∈ leftovers := by
    have hlist : ([], .directory) :: ((shelf.get? [encode "out"]).map Node.contents).getD [] = leftovers := by
      decide +kernel
    exact hlist ▸ Tree.mem_contents (by decide +kernel) h
  -- the same names are directories on both sides, or on neither
  have hkinds : ∀ e ∈ stock, ∀ e' ∈ leftovers, e.1 = e'.1 → (e.2 = .directory ↔ e'.2 = .directory) := by
    decide +kernel
  have hlink : ∀ e ∈ stock, ∀ target, e.2 = .link target → e.1 = [encode "sub", encode "b"] := by
    simp [stock]
  have hshort : ∀ e ∈ stock, ((Path.ofText "/src").below e.1).bytes.length ≤ longestPath ∧
      ((Path.ofText "/out").below e.1).bytes.length ≤ longestPath := by decide +kernel
  have hsrc : ((stat shelf [] (.ofText "/src") true).toOption.map fun f => (f.1, f.2.entry)) =
      some ([encode "src"], .directory) := by decide +kernel
  have hout : ((stat shelf [] (.ofText "/out") true).toOption.map fun f => (f.1, f.2.entry)) =
      some ([encode "out"], .directory) := by decide +kernel
  obtain ⟨cs, hout⟩ := stat_directory_of_entry hout
  refine ⟨⟨stat_directory_of_entry hsrc, by decide, by decide, fun r target h => ?_, fun r c x h h' => ?_,
    fun r ⟨e, he, hne⟩ h' => ?_, fun r target h => ?_, fun r h => ?_⟩, .of_stat hout⟩
  · simpa [leftovers] using htarget h
  · have := (hkinds _ (hsource h) _ (htarget h') rfl).1 rfl
    cases this
  · exact hne ((hkinds _ (hsource he) _ (htarget h') rfl).2 rfl)
  · obtain rfl : r = [encode "sub", encode "b"] := hlink _ (hsource h) target rfl
    have hstat : (stat shelf [] ((Path.ofText "/src").below [encode "sub", encode "b"]) true).toOption.map
        (fun f => (f.1, f.2.entry)) = some ([encode "src", encode "a"], .file (encode "new") true) := by decide +kernel
    obtain ⟨n, hn, he⟩ := stat_of_entry hstat
    exact ⟨_, _, _, Node.entry_eq_file he ▸ hn, by decide⟩
  · obtain ⟨e, he⟩ := Option.ne_none_iff_exists'.1 h
    exact hshort _ (hsource he)

theorem copyDirectory_exact_shelf :
    Copyable shelf [] (.ofText "/src") (.ofText "/out") [encode "src"] [encode "out"] ∧ ∃ t',
      copyDirectory [] (.ofText "/src") (.ofText "/out") shelf = (.ok ⟨2, 1⟩, t') ∧
      Outcome shelf [] (.ofText "/src") (.ofText "/out") [encode "src"] [encode "out"] ⟨2, 1⟩ t' := by
  obtain ⟨stats, t', hrun, houtcome⟩ := copyDirectory_exact copyable_shelf
  have hstats : (copyDirectory [] (.ofText "/src") (.ofText "/out") shelf).1 = .ok ⟨2, 1⟩ := by decide +kernel
  rw [hrun] at hstats
  obtain rfl := Except.ok.inj hstats
  exact ⟨copyable_shelf, t', hrun, houtcome⟩

/-- One file in a directory. -/
def single : Tree := .ofEntries [([encode "src"], .directory), ([encode "src", encode "a"], .file (encode "x") false)]

private theorem noLinks_single : single.NoLinks := Tree.noLinks_ofEntries (by simp)

private theorem unobstructed_single {p : Path} {l : Location} (hout : ¬ [encode "src"] <+: l)
    (hapart : ¬ l <+: [encode "src"]) (hl : single.entryAt? l = none)
    (hshort : (p.below [encode "a"]).bytes.length ≤ longestPath) (hp : p.bytes.length ≤ longestPath) :
    Unobstructed single [] (.ofText "/src") p [encode "src"] l := by
  have hsrc : ((stat single [] (.ofText "/src") true).toOption.map fun f => (f.1, f.2.entry)) =
      some ([encode "src"], .directory) := by decide +kernel
  have hfree (r : Location) : single.entryAt? (l ++ r) = none := Tree.entryAt?_append_eq_none hl r
  refine ⟨stat_directory_of_entry hsrc, hout, hapart, fun r _ => by simp [hfree], fun r _ _ _ => by simp [hfree],
    fun r _ => by simp [hfree], fun r target h => absurd h (noLinks_single _ target), fun r h => ?_⟩
  have hlist : ([], .directory) :: ((single.get? [encode "src"]).map Node.contents).getD [] =
      [([], .directory), ([encode "a"], .file (encode "x") false)] := by decide +kernel
  obtain ⟨e, he⟩ := Option.ne_none_iff_exists'.1 h
  have hmem := hlist ▸ Tree.mem_contents (by decide +kernel) he
  simp only [List.mem_cons, Prod.mk.injEq, List.not_mem_nil, or_false] at hmem
  rcases hmem with ⟨rfl, -⟩ | ⟨rfl, -⟩
  · exact ⟨by decide, hp⟩
  · exact ⟨by decide, hshort⟩

/-- Where nothing is yet, it matters how a path says so: with a dot at its end no directory is made, and with `..`
behind a missing name one is made that nobody asked for, even in the source, where it is then copied as well. -/
theorem copyDirectory_inexact :
    (Unobstructed single [] (.ofText "/src") (.ofText "/new/.") [encode "src"] [encode "new"] ∧
      LeadsTo single [] (.ofText "/new/.") [encode "new"] ∧ single.entryAt? [encode "new"] = none ∧
      (copyDirectory [] (.ofText "/src") (.ofText "/new/.") single).1 = .error (.fileFault "/new/." .noEntry)) ∧
    Unobstructed single [] (.ofText "/src") (.ofText "/src/new/../../out") [encode "src"] [encode "out"] ∧
      LeadsTo single [] (.ofText "/src/new/../../out") [encode "out"] ∧ single.entryAt? [encode "out"] = none ∧
      (copyDirectory [] (.ofText "/src") (.ofText "/src/new/../../out") single).1 = .ok ⟨1, 1⟩ ∧
      single.entryAt? [encode "src", encode "new"] = none ∧
      (copyDirectory [] (.ofText "/src") (.ofText "/src/new/../../out") single).2.entryAt?
        [encode "src", encode "new"] = some .directory := by
  refine ⟨⟨unobstructed_single (by decide) (by decide) (by decide +kernel) (by decide) (by decide),
    leads_lexical noLinks_single [] _, by decide +kernel, by decide +kernel⟩,
    unobstructed_single (by decide) (by decide) (by decide +kernel) (by decide) (by decide),
    leads_lexical noLinks_single [] _, by decide +kernel, by decide +kernel, by decide +kernel, by decide +kernel⟩

end GradleBuild.Files
