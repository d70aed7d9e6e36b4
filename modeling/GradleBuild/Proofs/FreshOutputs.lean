import GradleBuild.Proofs.Clearing
import GradleBuild.Proofs.Merging
import GradleBuild.Proofs.Mirroring

/-!
# A library build forgets what was there

Two machines may hold anything at the places of the libraries, of the documentation and of the deliverables.  If these
places are settled, and the builds of the library come to a good end on both, then they leave the same.  The two runs
are followed side by side: the removals make the trees agree, equal calls of a child keep them so (`lockstep`), and the
copies of equal trees are equal.  Along the way the place for the deliverables stays `Fresh`.

* `library_fresh`: the trees agree in the end, and the deliverables mirror the libraries.
* `library_stale`: a place that is not settled can keep what was there.
-/

namespace GradleBuild.Task

open Files (LeadsTo ByName SettledAll)

variable {c : Bool} {p : Project} {s : Surroundings} {m m' n m₁ m₂ n₁ n₂ : Machine} {t : Task} {i j : Nat} {a : Action}
  {base ll dl jl : Location} {tree tree' : Tree}

/-- Nothing is at the place for the deliverables, and their path leads there by name.  The root of the project is in
`base`. -/
structure Fresh (p : Project) (cwd base jl : Location) (tree : Tree) : Prop where
  root : ∀ r x, Files.stat tree cwd p.layout.projectRoot true = .ok (r, x) → r = base
  free : tree.entryAt? jl = none
  byName : ByName tree cwd p.layout.java jl
  noNul : 0 ∉ p.layout.java.bytes

private theorem Fresh.agrees {cwd : Location} (h : Fresh p cwd base jl tree) (ht : tree.Agrees tree') :
    Fresh p cwd base jl tree' where
  root r x hr := by
    obtain ⟨x', hx'⟩ := Files.stat_extends ht.symm.extends hr
    exact h.root r x' hx'
  free := by rw [← ht jl, h.free]
  byName := h.byName.agrees ht
  noNul := h.noNul

/-! ### One run -/

/-- A child that merges leaves the place fresh. -/
private theorem Fresh.gradle (hdry : p.dry = false) (hchild : MergesBeside s.child base jl)
    (h : Fresh p s.cwd base jl m.tree) (hrun : t.announced p s i (.gradle a) m = (.ok (), m')) :
    Fresh p s.cwd base jl m'.tree ∧ ∃ calls call, call.directory = base ∧
      call.arguments = (p.gradle a).arguments ∧ m'.tree = (s.child calls call m.tree).tree := by
  obtain ⟨-, ⟨-, -, hne⟩ | ⟨program, call, -, hcall, htree, -⟩⟩ := Step.gradle_step hdry hrun
  · exact absurd rfl hne
  rw [Run.logged_tree] at hcall htree
  obtain ⟨hargs, hdir⟩ := call_ok hcall
  obtain ⟨cs, hstat⟩ := hdir p.layout.projectRoot rfl
  have hbase := h.root _ _ hstat
  have hkeeps := hchild.keeps (Run.logged m (t.headerEvent p i (.gradle a))).calls call m.tree hbase
  rw [htree]
  refine ⟨⟨fun r x hr => ?_, ?_, h.byName.mono hkeeps fun k hk q => hchild.noLink _ _ _ k q hbase hk, h.noNul⟩,
    _, call, hbase, hargs, rfl⟩
  · -- the root was there when the child was started, and still is where it was
    obtain ⟨x', hx'⟩ := Files.stat_extends hkeeps hstat
    rw [hx'] at hr
    rw [← (Prod.mk.inj (Except.ok.inj hr)).1, hbase]
  · rw [hchild.beside _ _ _ jl hbase (List.prefix_refl jl), h.free]

private theorem places_map (p : Project) (ll dl jl : Location) :
    [(p.layout.libs, ll), (p.layout.docs, dl), (p.layout.java, jl)].map Prod.fst = (library c).outputs p.layout := rfl

/-- After the removals the place is fresh. -/
private theorem Reaches.fresh (hdry : p.dry = false) (hroot : LeadsTo m.tree s.cwd p.layout.projectRoot base)
    (hset : SettledAll m.tree s.cwd [(p.layout.libs, ll), (p.layout.docs, dl), (p.layout.java, jl)])
    (h : (library c).Reaches p s m 3 n) : Fresh p s.cwd base jl n.tree := by
  obtain ⟨hname, hfree, hnul⟩ := h.byName hdry (places_map p ll dl jl) hset rfl
  refine ⟨fun r x hr => ?_, hfree, hname, hnul⟩
  obtain ⟨x', hx'⟩ := Files.stat_extends (h.removals hdry (Nat.le_refl 3)).1 hr
  exact (Files.stat_leadsTo hx' (Or.inl rfl)).unique hroot

/-- What is collected into a fresh place is copied there, from a place apart. -/
private theorem Fresh.collect (hdry : p.dry = false) (h : Fresh p s.cwd base jl m.tree)
    (hrun : t.announced p s i (.collect p.layout.libs p.layout.java) m = (.ok (), m')) :
    ∃ l, LeadsTo m.tree s.cwd p.layout.libs l ∧ m.tree.entryAt? l = some .directory ∧ ¬ l <+: jl ∧ ¬ jl <+: l ∧
      m.tree.Copied m'.tree l jl := by
  obtain ⟨-, -, ⟨-, -, hne⟩ | ⟨hdir, htree, hok⟩⟩ := Step.collect_step hdry hrun
  · exact absurd rfl hne
  obtain ⟨stats, hstats⟩ := hok rfl
  rw [Run.logged_tree] at hdir htree hstats
  have hcopy : Files.copyDirectory s.cwd p.layout.libs p.layout.java m.tree = (.ok stats, m'.tree) :=
    Prod.ext hstats htree.symm
  obtain ⟨l, cs, hstat⟩ := Files.isDirectory_iff.1 hdir
  have hsource : LeadsTo m.tree s.cwd p.layout.libs l := Files.stat_leadsTo hstat (Or.inl rfl)
  have hl : m.tree.entryAt? l = some .directory := Tree.entryAt?_eq_directory_iff.2 ⟨cs, Files.stat_get? hstat⟩
  have hspelled := h.byName.spelled h.noNul
  have hbelow (r : Location) : m.tree.entryAt? (jl ++ r) = none := Tree.entryAt?_append_eq_none h.free r
  -- a place where nothing is has no links either, and does not hold the source
  have hlinks (r : Location) (q : Path) : m.tree.entryAt? (jl ++ r) ≠ some (.link q) := by
    rw [hbelow r]
    simp
  have hapart : ¬ jl <+: l := by
    rintro ⟨r, rfl⟩
    rw [hbelow r] at hl
    simp at hl
  have houtside : ¬ l <+: jl := by
    rintro ⟨r, rfl⟩
    have hr : r ≠ [] := by
      rintro rfl
      exact hapart ⟨[], by simp⟩
    exact Files.copyLevels_inside _ ⟨hsource, h.byName.leadsTo, fun _ _ _ => trivial, fun _ _ _ _ _ => trivial,
      hlinks⟩ hr hspelled h.byName.start hcopy
  exact ⟨l, hsource, hl, houtside, hapart, Files.copyLevels_copies _ ⟨hsource, h.byName.leadsTo,
    fun k hk hn => h.byName.way hk hn, houtside, hapart, h.byName.start, hspelled, hlinks⟩
    h.free hcopy⟩

/-! ### Two runs -/

private theorem library_step {step : Step} (hstep : ((library c).plan p.layout)[3 + j]? = some step)
    (hj : j < (library c).actions.length) : ∃ a, (library c).actions[j]? = some a ∧ step = .gradle a := by
  have hlength : ((library c).outputs p.layout).length = 3 := rfl
  rcases plan_cases hstep with ⟨q, hq, -⟩ | ⟨j', a, hi, ha, rfl⟩ | ⟨hi, -⟩
  · have := (List.getElem?_eq_some_iff.1 hq).1
    omega
  · obtain rfl : j = j' := by omega
    exact ⟨a, ha, rfl⟩
  · omega

/-- Side by side, two runs whose trees agree after the removals start the same children, and their trees agree until
they collect. -/
private theorem lockstep (hdry : p.dry = false) (hchild : MergesBeside s.child base jl)
    (hstart : ∀ n₁ n₂, (library c).Reaches p s m₁ 3 n₁ → (library c).Reaches p s m₂ 3 n₂ →
      n₁.tree.Agrees n₂.tree ∧ Fresh p s.cwd base jl n₁.tree ∧ Fresh p s.cwd base jl n₂.tree)
    (h₁ : (library c).Reaches p s m₁ (3 + j) n₁) (h₂ : (library c).Reaches p s m₂ (3 + j) n₂)
    (hj : j ≤ (library c).actions.length) :
    n₁.tree.Agrees n₂.tree ∧ Fresh p s.cwd base jl n₁.tree ∧ Fresh p s.cwd base jl n₂.tree := by
  induction j generalizing n₁ n₂ with
  | zero => exact hstart n₁ n₂ h₁ h₂
  | succ j ih =>
    rw [← Nat.add_assoc] at h₁ h₂
    cases h₁ with
    | step hreach₁ hstep₁ hrun₁ =>
      cases h₂ with
      | step hreach₂ hstep₂ hrun₂ =>
        obtain ⟨hagree, hfresh₁, hfresh₂⟩ := ih hreach₁ hreach₂ (by omega)
        -- both runs are at the same Gradle step
        obtain ⟨a, ha, rfl⟩ := library_step hstep₁ (by omega)
        obtain ⟨a', ha', rfl⟩ := library_step hstep₂ (by omega)
        obtain rfl := Option.some.inj (ha.symm.trans ha')
        obtain ⟨hnext₁, calls₁, call₁, hd₁, hargs₁, htree₁⟩ := hfresh₁.gradle hdry hchild hrun₁
        obtain ⟨hnext₂, calls₂, call₂, hd₂, hargs₂, htree₂⟩ := hfresh₂.gradle hdry hchild hrun₂
        refine ⟨?_, hnext₁, hnext₂⟩
        rw [htree₁, htree₂]
        exact hchild.same _ _ _ _ _ _ hd₁ hd₂ (hargs₁.trans hargs₂.symm) hagree

/-- If the places of the libraries, of the documentation and of the deliverables are settled, and all else is the same
on two machines, then builds of the library that come to a good end on both leave the same trees.  The deliverables
mirror the libraries: nothing is missing, and nothing else is there. -/
theorem library_fresh (c : Bool) (p : Project) (s : Surroundings) (m₁ m₂ : Machine) (hdry : p.dry = false)
    (hroot : LeadsTo m₁.tree s.cwd p.layout.projectRoot base) (hchild : MergesBeside s.child base jl)
    (hset₁ : SettledAll m₁.tree s.cwd [(p.layout.libs, ll), (p.layout.docs, dl), (p.layout.java, jl)])
    (hset₂ : SettledAll m₂.tree s.cwd [(p.layout.libs, ll), (p.layout.docs, dl), (p.layout.java, jl)])
    (helse : ∀ k, ¬ ll <+: k → ¬ dl <+: k → ¬ jl <+: k → m₁.tree.entryAt? k = m₂.tree.entryAt? k)
    (hok₁ : ((library c).run p s m₁).1 = .ok ()) (hok₂ : ((library c).run p s m₂).1 = .ok ()) :
    ((library c).run p s m₁).2.tree.Agrees ((library c).run p s m₂).2.tree ∧
      ∃ l, LeadsTo ((library c).run p s m₁).2.tree s.cwd p.layout.libs l ∧
        LeadsTo ((library c).run p s m₁).2.tree s.cwd p.layout.java jl ∧
        ∀ r, ((library c).run p s m₁).2.tree.Mirrors (l ++ r) (jl ++ r) := by
  -- after the three removals both trees are the same one, cleared
  have hstart : ∀ n₁ n₂, (library c).Reaches p s m₁ 3 n₁ → (library c).Reaches p s m₂ 3 n₂ →
      n₁.tree.Agrees n₂.tree ∧ Fresh p s.cwd base jl n₁.tree ∧ Fresh p s.cwd base jl n₂.tree := by
    intro n₁ n₂ h₁ h₂
    obtain ⟨hclear₁, -, hne⟩ := h₁.cleared hdry (places_map p ll dl jl) hset₁ (Nat.le_refl 3)
    obtain ⟨hclear₂, -, -⟩ := h₂.cleared hdry (places_map p ll dl jl) hset₂ (Nat.le_refl 3)
    have hcleared : (m₁.tree.clear [ll, dl, jl]).Agrees (m₂.tree.clear [ll, dl, jl]) :=
      Tree.agrees_clear hne fun k hk => helse k (hk ll (by simp)) (hk dl (by simp)) (hk jl (by simp))
    have hagree : n₁.tree.Agrees n₂.tree := hclear₁.trans (hcleared.trans hclear₂.symm)
    have hfresh := h₁.fresh hdry hroot hset₁
    exact ⟨hagree, hfresh, hfresh.agrees hagree⟩
  obtain ⟨n₁, m₁', h₁, hlast₁, htree₁⟩ := of_run_ok hok₁
  obtain ⟨n₂, m₂', h₂, hlast₂, htree₂⟩ := of_run_ok hok₂
  obtain ⟨hagree, hfresh₁, hfresh₂⟩ := lockstep hdry hchild hstart h₁ h₂ (Nat.le_refl _)
  obtain ⟨l, hl, hdir, houtside, hapart, hcopied₁⟩ := hfresh₁.collect hdry hlast₁
  obtain ⟨l₂, hl₂, -, -, -, hcopied₂⟩ := hfresh₂.collect hdry hlast₂
  obtain rfl : l = l₂ := (hl.sameLinks fun k q => by rw [hagree k]).unique hl₂
  rw [htree₁, htree₂]
  exact ⟨hcopied₁.agrees hcopied₂ hagree houtside hapart hdir, l, hl.sameLinks hcopied₁.adds.sameLinks,
    hfresh₁.byName.leadsTo.sameLinks hcopied₁.adds.sameLinks, hcopied₁.mirrors⟩

/-- A project with a wrapper that has not been built. -/
def unbuilt : Tree := .ofEntries [([encode "p"], .directory),
  ([encode "p", encode "gradlew"], .file (encode "#!") true), ([encode "p", encode "build"], .directory)]

/-- The libraries that a build makes. -/
def jars : List (Location × Entry) := [([encode "build"], .directory), ([encode "build", encode "libs"], .directory),
  ([encode "build", encode "libs", encode "a.jar"], .file [1] false),
  ([encode "build", encode "libs", encode "latest.jar"], .link (.ofText "a.jar"))]

/-- The same project with a file where the libraries belong, and with documentation. -/
def cluttered : Tree :=
  ((unbuilt.put [encode "p", encode "build", encode "libs"] (.file [] false)).put
    [encode "p", encode "build", encode "docs"] .directory).put
      [encode "p", encode "build", encode "docs", encode "index.html"] (.file [] false)

private theorem noLinks_unbuilt : unbuilt.NoLinks := Tree.noLinks_ofEntries (by simp)

private theorem noLinks_cluttered : cluttered.NoLinks :=
  ((noLinks_unbuilt.put (by simp) _).put (by simp) _).put (by simp) _

private theorem settled_plain (h : tree.NoLinks) : SettledAll tree []
    [((Project.plain (.ofText "/p")).layout.libs, [encode "p", encode "build", encode "libs"]),
      ((Project.plain (.ofText "/p")).layout.docs, [encode "p", encode "build", encode "docs"]),
      ((Project.plain (.ofText "/p")).layout.java,
        [encode "p", encode ".out", encode "deliverables", encode "java"])] :=
  Files.settledAll_of_noLinks h (by decide)

private theorem merges_jars {jl : Location}
    (h : ∀ x ∈ jars, ¬ jl <+: encode "p" :: x.1 ∧ (encode "p" :: x.1 <+: jl → x.2 = .directory)) :
    MergesBeside (merging fun _ => jars) [encode "p"] jl :=
  mergesBeside_merging fun _ x hx => ⟨(h x hx).1, fun q hp => by rw [(h x hx).2 hp]; simp⟩

theorem library_fresh_plain :
    ((library false).run (.plain (.ofText "/p")) ⟨[], [], merging fun _ => jars⟩ { tree := unbuilt }).2.tree.Agrees
      ((library false).run (.plain (.ofText "/p")) ⟨[], [], merging fun _ => jars⟩ { tree := cluttered }).2.tree := by
  have hroot : LeadsTo unbuilt [] (Project.plain (.ofText "/p")).layout.projectRoot [encode "p"] :=
    Files.leads_lexical noLinks_unbuilt _ _
  refine (library_fresh false (.plain (.ofText "/p")) ⟨[], [], merging fun _ => jars⟩ { tree := unbuilt }
    { tree := cluttered } rfl hroot (merges_jars (by decide)) (settled_plain noLinks_unbuilt)
    (settled_plain noLinks_cluttered) (fun k hl hd _ => ?_) (by decide +kernel) (by decide +kernel)).1
  have hd' : ¬ [encode "p", encode "build", encode "docs", encode "index.html"] <+: k :=
    fun hp => hd ((List.prefix_append _ [encode "index.html"]).trans hp)
  exact ((Tree.entryAt?_put hd' _).trans ((Tree.entryAt?_put hd _).trans (Tree.entryAt?_put hl _))).symm

/-! ### A detour -/

/-- A project whose deliverables are reached through the directory of the documentation. -/
def detour : Project :=
  let c : Config :=
    { paths := { projectRoot := some (.ofText "/p"), java := some (.ofText "/p/build/docs/../java") } }
  ⟨c, c.paths.layoutFrom (.ofText "/p"), false⟩

/-- All places are there. -/
def built : Tree := .ofEntries [([encode "p"], .directory),
  ([encode "p", encode "gradlew"], .file (encode "#!") true), ([encode "p", encode "build"], .directory),
  ([encode "p", encode "build", encode "libs"], .directory), ([encode "p", encode "build", encode "docs"], .directory),
  ([encode "p", encode "build", encode "java"], .directory)]

/-- An old file among the deliverables. -/
def rebuilt : Tree := built.put [encode "p", encode "build", encode "java", encode "old.jar"] (.file [] false)

private theorem noLinks_built : built.NoLinks := Tree.noLinks_ofEntries (by simp)

private theorem leads_detour (h : tree.NoLinks) :
    LeadsTo tree [] detour.layout.libs [encode "p", encode "build", encode "libs"] ∧
      LeadsTo tree [] detour.layout.docs [encode "p", encode "build", encode "docs"] ∧
      LeadsTo tree [] detour.layout.java [encode "p", encode "build", encode "java"] :=
  ⟨Files.leads_lexical h _ _, Files.leads_lexical h _ _, Files.leads_lexical h _ _⟩

/-- Where the way to the deliverables goes through what is removed before them, they are not found, and what is there
stays: both runs come to a good end, and leave different deliverables. -/
theorem library_stale :
    (LeadsTo built [] detour.layout.libs [encode "p", encode "build", encode "libs"] ∧
      LeadsTo built [] detour.layout.docs [encode "p", encode "build", encode "docs"] ∧
      LeadsTo built [] detour.layout.java [encode "p", encode "build", encode "java"]) ∧
    (LeadsTo rebuilt [] detour.layout.libs [encode "p", encode "build", encode "libs"] ∧
      LeadsTo rebuilt [] detour.layout.docs [encode "p", encode "build", encode "docs"] ∧
      LeadsTo rebuilt [] detour.layout.java [encode "p", encode "build", encode "java"]) ∧
    MergesBeside (merging fun _ => jars) [encode "p"] [encode "p", encode "build", encode "java"] ∧
    (∀ k, ¬ [encode "p", encode "build", encode "java"] <+: k → built.entryAt? k = rebuilt.entryAt? k) ∧
    ((library false).run detour ⟨[], [], merging fun _ => jars⟩ { tree := built }).1 = .ok () ∧
    ((library false).run detour ⟨[], [], merging fun _ => jars⟩ { tree := rebuilt }).1 = .ok () ∧
    ((library false).run detour ⟨[], [], merging fun _ => jars⟩ { tree := built }).2.tree.entryAt?
      [encode "p", encode "build", encode "java", encode "old.jar"] = none ∧
    ((library false).run detour ⟨[], [], merging fun _ => jars⟩ { tree := rebuilt }).2.tree.entryAt?
      [encode "p", encode "build", encode "java", encode "old.jar"] = some (.file [] false) := by
  refine ⟨leads_detour noLinks_built, leads_detour (noLinks_built.put (by simp) _), merges_jars (by decide),
    fun k hk => ?_, by decide +kernel, by decide +kernel, by decide +kernel, by decide +kernel⟩
  have hold : ¬ [encode "p", encode "build", encode "java", encode "old.jar"] <+: k :=
    fun hp => hk ((List.prefix_append _ [encode "old.jar"]).trans hp)
  exact (Tree.entryAt?_put hold _).symm

end GradleBuild.Task
