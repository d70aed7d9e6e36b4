import GradleBuild.Proofs.Copying
import GradleBuild.Proofs.Runs

/-!
# Where a build writes

Whatever becomes of a build, it changes entries in four ways only: it removes what its outputs name (`AtOutput`), its
children change what they change (`ByGradle`), and collecting makes the missing directories on the way to its
destination (`MadeForCollect`) and the counterparts of what is in its source (`Collected`).

* `collect_grows`: a collect step stays in its two ways.
* `run_confined`: so does the whole run, and what was there before is changed in the other three only.
-/

namespace GradleBuild.Task

open Files (LeadsTo OnWay)

/-- An output of the task names the entry, or a directory above it, when the run begins. -/
def AtOutput (t : Task) (p : Project) (s : Surroundings) (m : Machine) (k : Location) : Prop :=
  ∃ q ∈ t.outputs p.layout, ∃ l n, Files.stat m.tree s.cwd q false = .ok (l, n) ∧ l <+: k

/-- A child changes the entry: one that the run starts, with the program that is found for Gradle at its step. -/
def ByGradle (t : Task) (p : Project) (s : Surroundings) (m : Machine) (k : Location) : Prop :=
  ∃ i a m₁ program call, t.Reaches p s m i m₁ ∧ (t.plan p.layout)[i]? = some (.gradle a) ∧
    (p.gradle a).program s m₁.tree = .ok program ∧ ((p.gradle a).command program).call s m₁.tree = .ok call ∧
    (s.child m₁.calls call m₁.tree).tree.entryAt? k ≠ m₁.tree.entryAt? k

/-- The run has come to its collect step. -/
def Collecting (t : Task) (p : Project) (s : Surroundings) (m m₁ : Machine) : Prop :=
  t.Reaches p s m ((t.outputs p.layout).length + t.actions.length) m₁

/-- A directory on the way to the destination, or the destination itself, is missing when collecting begins. -/
def MadeForCollect (t : Task) (p : Project) (s : Surroundings) (m : Machine) (k : Location) : Prop :=
  ∃ m₁, t.Collecting p s m m₁ ∧ OnWay m₁.tree s.cwd p.layout.java k ∧ m₁.tree.entryAt? k = none

/-- The entry lies below the destination where an entry lies below the source: one that is there when collecting
begins, or a missing directory that is made for it. -/
def Collected (t : Task) (p : Project) (s : Surroundings) (m : Machine) (k : Location) : Prop :=
  ∃ m₁ source destination l, t.Collecting p s m m₁ ∧ LeadsTo m₁.tree s.cwd (t.products p.layout) source ∧
    LeadsTo m₁.tree s.cwd p.layout.java destination ∧ l ≠ [] ∧ k = destination ++ l ∧
    (m₁.tree.entryAt? (source ++ l) ≠ none ∨ t.MadeForCollect p s m (source ++ l))

/-- When collecting begins, source and destination lead to trees apart from each other, and the destination holds no
link. -/
def CollectsApart (t : Task) (p : Project) (s : Surroundings) (m : Machine) : Prop :=
  ∀ m₁, t.Collecting p s m m₁ → ∀ source destination, LeadsTo m₁.tree s.cwd (t.products p.layout) source →
    LeadsTo m₁.tree s.cwd p.layout.java destination → ¬ source <+: destination ∧ ¬ destination <+: source ∧
      ∀ l q, m₁.tree.entryAt? (destination ++ l) ≠ some (.link q)

variable {t : Task} {p : Project} {s : Surroundings} {m m₁ m' : Machine} {r : Except Failure Unit} {k : Location}

/-- There is room for the counterparts of what is in the source. -/
private theorem room_to_collect (hapart : t.CollectsApart p s m) (h : t.Collecting p s m m₁) {a b : Location}
    (ha : LeadsTo m₁.tree s.cwd (t.products p.layout) a) (hb : LeadsTo m₁.tree s.cwd p.layout.java b) :
    Files.Room (fun k => t.MadeForCollect p s m k ∨ t.Collected p s m k) m₁.tree s.cwd (t.products p.layout)
      p.layout.java a b where
  sourceAt := ha
  targetAt := hb
  way k hk hn := Or.inl ⟨m₁, h, hk, hn⟩
  counterpart tree ht l name hn := by
    obtain ⟨hab, hba, -⟩ := hapart m₁ h a b ha hb
    refine Or.inr ⟨m₁, a, b, l ++ [name], h, ha, hb, by simp, by simp, ?_⟩
    rw [← List.append_assoc]
    by_cases he : m₁.tree.entryAt? (a ++ l ++ [name]) = none
    · right
      -- the entry is new in the source, where only directories on the way can be new
      have hchanged : tree.entryAt? (a ++ l ++ [name]) ≠ m₁.tree.entryAt? (a ++ l ++ [name]) := by rwa [he]
      rcases ht.only _ hchanged with hway | ⟨m₂, a', b', l', h₂, -, hb', -, hl', -⟩
      · exact hway
      · obtain rfl := h₂.unique h
        obtain rfl := hb'.unique hb
        have hpa : a <+: b' ++ l' := ⟨l ++ [name], by rw [← hl', List.append_assoc]⟩
        exact absurd (List.prefix_append b' l') (not_prefix_of_apart ⟨hab, hba⟩ hpa)
    · exact Or.inl he
  noLinks := (hapart m₁ h a b ha hb).2.2

/-- Collecting changes what is made on the way to the destination, and the counterparts of the source. -/
theorem collect_grows (hdry : p.dry = false) (hapart : t.CollectsApart p s m) (h : t.Collecting p s m m₁)
    (hrun : t.announced p s ((t.outputs p.layout).length + t.actions.length)
      (.collect (t.products p.layout) p.layout.java) m₁ = (r, m'))
    (hk : m'.tree.entryAt? k ≠ m₁.tree.entryAt? k) : t.MadeForCollect p s m k ∨ t.Collected p s m k := by
  obtain ⟨-, -, hcases⟩ := Step.collect_step hdry hrun
  rcases hcases with ⟨-, htree, -⟩ | ⟨-, htree, -⟩
  · exact absurd (by rw [htree]; rfl) hk
  rw [Run.logged_tree] at htree
  rcases hcopy : Files.copyDirectory s.cwd (t.products p.layout) p.layout.java m₁.tree with ⟨c, tree⟩
  rw [hcopy] at htree
  rw [htree] at hk
  exact (Files.copyDirectory_grows (fun k hway hn => Or.inl ⟨m₁, h, hway, hn⟩)
    (fun a b ha hb => room_to_collect hapart h ha hb) hcopy).only k hk

/-! ### Without links -/

/-- Until it collects, a build makes no link unless its children do. -/
theorem Reaches.noLinks (hdry : p.dry = false) {i : Nat}
    (hchild : ∀ calls call tree, tree.NoLinks → (s.child calls call tree).tree.NoLinks) (hm : m.tree.NoLinks)
    (h : t.Reaches p s m i m₁) (hi : i ≤ (t.outputs p.layout).length + t.actions.length) : m₁.tree.NoLinks := by
  induction h with
  | start => exact hm
  | step hreach hstep hrun ih =>
    have hm₁ := ih (by omega)
    rcases plan_cases hstep with ⟨q, hq, rfl⟩ | ⟨j, a, rfl, ha, rfl⟩ | ⟨rfl, rfl⟩
    · rw [(Step.remove_step hdry hrun).1]
      exact hm₁.of_extends (Files.remove_spec ..).extends
    · rcases (Step.gradle_step hdry hrun).2 with ⟨htree, -⟩ | ⟨program, call, -, -, htree, -⟩
      · rw [htree]
        exact hm₁
      · rw [htree]
        exact hchild _ _ _ hm₁
    · omega

/-- Where there are no links, the names alone say whether source and destination lie apart. -/
theorem collectsApart_of_noLinks (hdry : p.dry = false)
    (hchild : ∀ calls call tree, tree.NoLinks → (s.child calls call tree).tree.NoLinks) (hm : m.tree.NoLinks)
    (hsource : ¬ Files.lexical (Files.start s.cwd (t.products p.layout)) (t.products p.layout).segments <+:
      Files.lexical (Files.start s.cwd p.layout.java) p.layout.java.segments)
    (hdestination : ¬ Files.lexical (Files.start s.cwd p.layout.java) p.layout.java.segments <+:
      Files.lexical (Files.start s.cwd (t.products p.layout)) (t.products p.layout).segments) :
    t.CollectsApart p s m := by
  intro m₁ h source destination ha hb
  have hlinks := Reaches.noLinks hdry hchild hm h (Nat.le_refl _)
  rw [Files.Leads.eq_lexical hlinks ha, Files.Leads.eq_lexical hlinks hb]
  exact ⟨hsource, hdestination, fun l q => hlinks _ q⟩

/-! ### The whole run -/

/-- What changes while the run is on its way to the collect step is an output or changed by a child. -/
private theorem before_collect (hdry : p.dry = false) {i : Nat} {step : Step} {m₂ : Machine}
    (h : t.Reaches p s m i m₁) (hstep : (t.plan p.layout)[i]? = some step)
    (hrun : t.announced p s i step m₁ = (r, m₂)) (hi : i < (t.outputs p.layout).length + t.actions.length)
    (hk : m₂.tree.entryAt? k ≠ m₁.tree.entryAt? k) : t.AtOutput p s m k ∨ t.ByGradle p s m k := by
  rcases plan_cases hstep with ⟨q, hq, rfl⟩ | ⟨j, a, rfl, ha, rfl⟩ | ⟨rfl, -⟩
  · left
    obtain ⟨htree, -⟩ := Step.remove_step hdry hrun
    rw [htree] at hk
    obtain ⟨l, n, hstat, hl⟩ := (Files.remove_spec ..).frame hk
    -- what the path names now it named at the start, since the tree has only shrunk
    have hlt := (List.getElem?_eq_some_iff.1 hq).1
    obtain ⟨n', hn'⟩ := Files.stat_extends (h.removals hdry (by omega)).1 hstat
    exact ⟨q, List.mem_of_getElem? hq, l, n', hn', hl⟩
  · right
    obtain ⟨-, hcases⟩ := Step.gradle_step hdry hrun
    rcases hcases with ⟨htree, -⟩ | ⟨program, call, hprogram, hcall, htree, -⟩
    · exact absurd (by rw [htree]; rfl) hk
    · rw [htree] at hk
      exact ⟨_, a, m₁, program, call, h, hstep, hprogram, hcall, hk⟩
  · omega

/-- A run changes entries in four ways only. -/
private theorem confined (hdry : p.dry = false) (hapart : t.CollectsApart p s m) (h : t.run p s m = (r, m'))
    (hk : m'.tree.entryAt? k ≠ m.tree.entryAt? k) :
    t.AtOutput p s m k ∨ t.ByGradle p s m k ∨ t.MadeForCollect p s m k ∨ t.Collected p s m k := by
  obtain ⟨i, step, m₁, r₁, m₂, hreach, hstep, hrun, hne⟩ := exists_step_of_ne h hk
  by_cases hi : i < (t.outputs p.layout).length + t.actions.length
  · rcases before_collect hdry hreach hstep hrun hi hne with h | h
    · exact Or.inl h
    · exact Or.inr (Or.inl h)
  · rcases plan_cases hstep with ⟨q, hq, -⟩ | ⟨j, a, rfl, ha, -⟩ | ⟨rfl, rfl⟩
    · have := (List.getElem?_eq_some_iff.1 hq).1
      omega
    · have := (List.getElem?_eq_some_iff.1 ha).1
      omega
    · exact Or.inr (Or.inr (collect_grows hdry hapart hreach hrun hne))

/-- An entry that has changed when collecting begins is an output or changed by a child. -/
theorem Collecting.atOutput_or_byGradle (hdry : p.dry = false) (h : t.Collecting p s m m₁)
    (hk : m₁.tree.entryAt? k ≠ m.tree.entryAt? k) : t.AtOutput p s m k ∨ t.ByGradle p s m k := by
  obtain ⟨i, step, m₂, m₃, hi, h₂, hstep, hrun, hne⟩ := h.exists_step_of_ne hk
  exact before_collect hdry h₂ hstep hrun hi hne

private theorem gone_before_collect (hdry : p.dry = false) (hmade : t.MadeForCollect p s m k)
    (hk : m.tree.entryAt? k ≠ none) : t.AtOutput p s m k ∨ t.ByGradle p s m k := by
  obtain ⟨m₁, hreach, -, hn⟩ := hmade
  exact hreach.atOutput_or_byGradle hdry (by rw [hn]; exact hk.symm)

/-- Whatever becomes of a build, every entry that it changes is at or below an output, or changed by a child, or the
destination of the collect step or a missing directory on the way there, or the counterpart of an entry to be
collected.  A documentation build so keeps every entry that is neither of the first two nor a counterpart. -/
theorem run_confined (t : Task) (p : Project) (s : Surroundings) (m : Machine) (hdry : p.dry = false)
    (hapart : t.CollectsApart p s m) :
    (∀ k, (t.run p s m).2.tree.entryAt? k ≠ m.tree.entryAt? k →
      t.AtOutput p s m k ∨ t.ByGradle p s m k ∨ t.MadeForCollect p s m k ∨ t.Collected p s m k) ∧
    (t = .documentation → ∀ k e, m.tree.entryAt? k = some e →
      (∀ l n, Files.stat m.tree s.cwd p.layout.javaDocs false = .ok (l, n) → ¬ l <+: k) →
      ¬ t.ByGradle p s m k → ¬ t.Collected p s m k → (t.run p s m).2.tree.entryAt? k = some e) := by
  refine ⟨fun k hk => confined hdry hapart rfl hk, fun ht k e he houtput hgradle hcollected => ?_⟩
  have hnot : ¬ t.AtOutput p s m k := by
    rintro ⟨q, hq, l, n, hstat, hl⟩
    rw [ht] at hq
    rw [List.mem_singleton.1 hq] at hstat
    exact houtput l n hstat hl
  by_contra hne
  rcases confined hdry hapart rfl (by rwa [he]) with h | h | h | h
  · exact hnot h
  · exact hgradle h
  · rcases gone_before_collect hdry h (by simp [he]) with h | h
    · exact hnot h
    · exact hgradle h
  · exact hcollected h

/-- A project with a wrapper and the documentation of an earlier build. -/
def documented : Tree := .ofEntries [([encode "p"], .directory),
  ([encode "p", encode "gradlew"], .file (encode "#!") true), ([encode "p", encode "build"], .directory),
  ([encode "p", encode "build", encode "docs"], .directory),
  ([encode "p", encode "build", encode "docs", encode "index.html"], .file [] false)]

theorem run_confined_documented :
    documentation.CollectsApart (.plain (.ofText "/p")) ⟨[], [], fun _ _ tree => { tree }⟩ { tree := documented } ∧
    ∀ k, (documentation.run (.plain (.ofText "/p")) ⟨[], [], fun _ _ tree => { tree }⟩
        { tree := documented }).2.tree.entryAt? k ≠ documented.entryAt? k →
      documentation.AtOutput (.plain (.ofText "/p")) ⟨[], [], fun _ _ tree => { tree }⟩ { tree := documented } k ∨
      documentation.ByGradle (.plain (.ofText "/p")) ⟨[], [], fun _ _ tree => { tree }⟩ { tree := documented } k ∨
      documentation.MadeForCollect (.plain (.ofText "/p")) ⟨[], [], fun _ _ tree => { tree }⟩
        { tree := documented } k ∨
      documentation.Collected (.plain (.ofText "/p")) ⟨[], [], fun _ _ tree => { tree }⟩ { tree := documented } k := by
  have hapart : documentation.CollectsApart (.plain (.ofText "/p")) ⟨[], [], fun _ _ tree => { tree }⟩
      { tree := documented } :=
    collectsApart_of_noLinks rfl (fun _ _ _ h => h) (Tree.noLinks_ofEntries (by simp)) (by decide) (by decide)
  exact ⟨hapart, (run_confined documentation _ _ _ rfl hapart).1⟩

end GradleBuild.Task
