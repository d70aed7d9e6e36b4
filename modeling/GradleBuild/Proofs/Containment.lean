import GradleBuild.Proofs.Guarantees

/-!
# Deletion stays in the project

Where the directories of a project are configured by relative paths that never lead up, each has the parts of the root
and then names only.  So what a plan removes lies below the root, unless it is the root itself: a `.` names nothing, and
a way down that is made of nothing but such entries does not leave the root.

* `parts_join`: what a path becomes when one that never leads up is joined to it.
* `parts_layoutFrom`: the parts of the eight directories.
* `remove_inside`: where nothing is linked, removing what lies below a path keeps what is at the path.
* `load_removes_inside`: when the removals of a plan lie strictly below the root.
-/

namespace GradleBuild

namespace Path

variable {p q root : Path} {s : Bytes}

/-- The segments that stand for something. -/
def moves (p : Path) : List Bytes := p.segments.filter (!isIdle ·)

/-- A relative path that never leads up. -/
def Descends (p : Path) : Prop := p.isAbsolute = false ∧ .up ∉ p.parts

instance (p : Path) : Decidable p.Descends := by unfold Descends; infer_instance

/-- A path that has a name among its parts. -/
def Names (p : Path) : Prop := ∃ name, .named name ∈ p.parts

/-- A path lies strictly below a root: behind the parts of the root it has names, and only names. -/
def Inside (root p : Path) : Prop := ∃ names, names ≠ [] ∧ p.parts = root.parts ++ names.map .named

theorem segments_append (bs bs' : Bytes) : segments ⟨bs ++ slash :: bs'⟩ = segments ⟨bs⟩ ++ segments ⟨bs'⟩ :=
  pieces_append_sep (by simp) bs bs'

/-- Joining a relative path appends what it stands for. -/
theorem moves_join (hq : q.isAbsolute = false) : (p.join q).moves = p.moves ++ q.moves := by
  obtain ⟨bs⟩ := p
  obtain ⟨bs'⟩ := q
  unfold join
  rw [if_neg (by simp [hq])]
  rcases List.eq_nil_or_concat' bs with rfl | ⟨l, b, rfl⟩
  · have hnil : moves ⟨[]⟩ = [] := by decide
    simp [hnil]
  · by_cases hb : b = slash
    · subst hb
      have hend : segments ⟨l ++ [slash]⟩ = segments ⟨l⟩ ++ [[]] := segments_append l []
      simp [moves, hend, segments_append, isIdle]
    · have hjoin : segments ⟨l ++ b :: slash :: bs'⟩ = segments ⟨l ++ [b]⟩ ++ segments ⟨bs'⟩ := by
        simpa using segments_append (l ++ [b]) bs'
      simp [moves, hb, hjoin]

theorem parts_of_isAbsolute (hp : p.isAbsolute = true) : p.parts = .root :: p.moves.map partOf := by
  obtain ⟨rest, -, hseg⟩ := isAbsolute_iff.1 hp
  simp [parts, moves, hseg, hp, isIdle]

theorem parts_of_not_isAbsolute (hp : p.isAbsolute = false) :
    p.parts = .current :: p.moves.map partOf ∨ p.parts = p.moves.map partOf := by
  obtain ⟨first, rest, hseg⟩ := List.exists_cons_of_ne_nil p.segments_ne_nil
  simp only [parts, moves, hseg, hp, Bool.false_eq_true, if_false]
  by_cases hempty : first = []
  · simp [hempty, isIdle]
  · by_cases hdot : first = [dot]
    · simp [hdot, isIdle]
    · simp [hempty, hdot, isIdle]

theorem partOf_eq_named (hs : s ≠ [dot, dot]) : partOf s = .named s := by simp [partOf, hs]

/-- What a path that never leads up stands for are names. -/
theorem Descends.map_partOf (hq : q.Descends) : q.moves.map partOf = q.moves.map .named := by
  obtain ⟨hrel, hup⟩ := hq
  refine List.map_congr_left fun s hs => partOf_eq_named ?_
  rintro rfl
  have hmem : Part.up ∈ q.moves.map partOf := List.mem_map_of_mem (f := partOf) hs
  rcases parts_of_not_isAbsolute hrel with h | h
  · exact hup (by simp [h, hmem])
  · exact hup (h ▸ hmem)

theorem Descends.names_iff (hq : q.Descends) : q.Names ↔ q.moves ≠ [] := by
  have hparts : ∀ name, .named name ∈ q.parts ↔ name ∈ q.moves := by
    intro name
    rcases parts_of_not_isAbsolute hq.1 with h | h <;> simp [h, hq.map_partOf]
  simp only [Names, hparts]
  exact ⟨fun ⟨_, hname⟩ => List.ne_nil_of_mem hname, List.exists_mem_of_ne_nil _⟩

/-- A path that never leads up, joined to an absolute one, appends its names. -/
theorem parts_join (hp : p.isAbsolute = true) (hq : q.Descends) :
    (p.join q).parts = p.parts ++ q.moves.map .named := by
  rw [parts_of_isAbsolute (isAbsolute_join hp q), parts_of_isAbsolute hp, moves_join hq.1, List.map_append,
    hq.map_partOf, List.cons_append]

end Path

/-! ### The directories of a project -/

/-- The directories on the way from the root down to a directory. -/
def Place.way : Place → List Place
  | projectRoot => []
  | build => [build]
  | libs => [build, libs]
  | docs => [build, docs]
  | out => [out]
  | deliverables => [out, deliverables]
  | java => [out, deliverables, java]
  | javaDocs => [out, deliverables, java, javaDocs]

namespace PathsConfig

variable {c : PathsConfig} {root : Path} {q r : Place}

/-- What is joined to the directory above: the entry, or the name where there is none. -/
def entry (c : PathsConfig) (q : Place) : Path := (c.get q).getD (.ofText q.defaultName)

/-- The entries below the root are relative paths that never lead up. -/
def Descends (c : PathsConfig) : Prop := ∀ q ≠ .projectRoot, ∀ path, c.get q = some path → path.Descends

/-- Some directory on the way down has no entry, or one with a name. -/
def Leaves (c : PathsConfig) (q : Place) : Prop := ∃ r ∈ q.way, ∀ path, c.get r = some path → path.Names

theorem place_eq (configured : Option Path) (above : Path) (q : Place) :
    place configured above q = above.join (configured.getD (.ofText q.defaultName)) := by
  cases configured with
  | none => rfl
  | some path =>
    show above.absoluteFrom path = above.join path
    unfold Path.absoluteFrom
    split
    · rename_i habs
      exact (Path.join_of_isAbsolute habs).symm
    · rfl

/-- Each directory lies where the entries on its way lead from the root. -/
theorem get_layoutFrom (c : PathsConfig) (root : Path) (q : Place) :
    (c.layoutFrom root).get q = q.way.foldl (fun above r => above.join (c.entry r)) root := by
  cases q <;> simp only [layoutFrom, Layout.get, Place.way, List.foldl, place_eq, entry, PathsConfig.get]

private theorem default_descends (hq : q ≠ .projectRoot) :
    (Path.ofText q.defaultName).Descends ∧ (Path.ofText q.defaultName).Names := by
  have hall : ∀ q ∈ Place.all, q ≠ .projectRoot → (Path.ofText q.defaultName).Descends ∧
      .named (encode q.defaultName) ∈ (Path.ofText q.defaultName).parts := by decide +kernel
  have hmem : q ∈ Place.all := by cases q <;> decide
  obtain ⟨hdescends, hname⟩ := hall q hmem hq
  exact ⟨hdescends, _, hname⟩

theorem Descends.entry (hc : c.Descends) (hq : q ≠ .projectRoot) : (c.entry q).Descends := by
  cases hget : c.get q with
  | none => simpa [PathsConfig.entry, hget] using (default_descends hq).1
  | some path => simpa [PathsConfig.entry, hget] using hc q hq path hget

theorem entry_names_iff (hq : q ≠ .projectRoot) : (c.entry q).Names ↔ ∀ path, c.get q = some path → path.Names := by
  cases hget : c.get q with
  | none => simp [PathsConfig.entry, hget, (default_descends hq).2]
  | some path => simp [PathsConfig.entry, hget]

theorem ne_projectRoot_of_mem_way (hr : r ∈ q.way) : r ≠ .projectRoot := by
  rintro rfl
  cases q <;> simp [Place.way] at hr

/-- The names on the way down to a directory. -/
def names (c : PathsConfig) (q : Place) : List Name := q.way.flatMap fun r => (c.entry r).moves

/-- A directory has the parts of the root, and then the names on its way. -/
theorem parts_layoutFrom (hroot : root.isAbsolute = true) (hc : c.Descends) (q : Place) :
    ((c.layoutFrom root).get q).parts = root.parts ++ (c.names q).map .named := by
  -- along the way the names are appended one entry after another
  have hway : ∀ (way : List Place) (above : Path), above.isAbsolute = true → (∀ r ∈ way, r ≠ .projectRoot) →
      (way.foldl (fun above r => above.join (c.entry r)) above).parts =
        above.parts ++ (way.flatMap fun r => (c.entry r).moves).map .named := by
    intro way
    induction way with
    | nil => simp
    | cons r way ih =>
      intro above habove hr
      rw [List.foldl_cons, ih _ (Path.isAbsolute_join habove _) fun r' hr' => hr r' (List.mem_cons_of_mem _ hr'),
        Path.parts_join habove (hc.entry (hr r List.mem_cons_self))]
      simp
  rw [get_layoutFrom]
  exact hway q.way root hroot fun r hr => ne_projectRoot_of_mem_way hr

theorem names_ne_nil_iff (hc : c.Descends) : c.names q ≠ [] ↔ c.Leaves q := by
  have hentry : ∀ r ∈ q.way, (c.entry r).moves ≠ [] ↔ ∀ path, c.get r = some path → path.Names := by
    intro r hr
    have hne := ne_projectRoot_of_mem_way hr
    rw [← (hc.entry hne).names_iff, entry_names_iff hne]
  constructor
  · intro h
    simp only [names, ne_eq, List.flatMap_eq_nil_iff, not_forall] at h
    obtain ⟨r, hr, hne⟩ := h
    exact ⟨r, hr, (hentry r hr).1 hne⟩
  · rintro ⟨r, hr, hnames⟩ hnil
    exact (hentry r hr).2 hnames (List.flatMap_eq_nil_iff.1 hnil r hr)

/-- A directory lies strictly below the root just if its way leaves the root. -/
theorem inside_iff (hroot : root.isAbsolute = true) (hc : c.Descends) (q : Place) :
    root.Inside ((c.layoutFrom root).get q) ↔ c.Leaves q := by
  rw [← names_ne_nil_iff hc]
  have hparts := parts_layoutFrom hroot hc q
  constructor
  · rintro ⟨names, hne, h⟩ hnil
    rw [hparts, hnil, List.map_nil, List.append_nil, List.self_eq_append_right, List.map_eq_nil_iff] at h
    exact hne h
  · exact fun hne => ⟨c.names q, hne, hparts⟩

end PathsConfig

/-! ### What removing keeps -/

/-- Where a part leads from a place, if there are no links. -/
def Path.Part.lead : Location → Path.Part → Location
  | _, .root => []
  | l, .current => l
  | l, .up => l.dropLast
  | l, .named name => l ++ [name]

namespace Files

variable {t : Tree} {cwd k l : Location} {root path : Path}

private theorem lexical_eq (l : Location) (xs : List Bytes) :
    lexical l xs = ((xs.filter (!Path.isIdle ·)).map Path.partOf).foldl Path.Part.lead l := by
  induction xs generalizing l with
  | nil => rfl
  | cons s xs ih =>
    by_cases hidle : Path.isIdle s = true
    · simp [lexical, hidle, ih]
    · by_cases hup : s = [Path.dot, Path.dot]
      · subst hup
        simp [lexical, hidle, ih, Path.partOf, Path.Part.lead]
      · simp [lexical, hidle, hup, ih, Path.partOf, Path.Part.lead]

/-- Without links the parts of a path say where it leads. -/
theorem lexical_parts (cwd : Location) (p : Path) :
    lexical (start cwd p) p.segments = p.parts.foldl Path.Part.lead cwd := by
  rw [lexical_eq]
  change ((p.moves.map Path.partOf).foldl _ _) = _
  by_cases habs : p.isAbsolute = true
  · rw [Path.parts_of_isAbsolute habs, start, if_pos habs]
    rfl
  · rw [Bool.not_eq_true] at habs
    rw [start, habs]
    rcases Path.parts_of_not_isAbsolute habs with h | h
    · rw [h]
      rfl
    · rw [h]
      rfl

/-- Without links a path inside a root leads to a place below that of the root. -/
theorem lexical_inside (h : root.Inside path) (cwd : Location) : ∃ names, names ≠ [] ∧
    lexical (start cwd path) path.segments = lexical (start cwd root) root.segments ++ names := by
  obtain ⟨names, hne, hparts⟩ := h
  have hnames : ∀ (l : Location) (names : List Name),
      (names.map Path.Part.named).foldl Path.Part.lead l = l ++ names := by
    intro l names
    induction names generalizing l with
    | nil => simp
    | cons name names ih => simp [Path.Part.lead, ih]
  exact ⟨names, hne, by rw [lexical_parts, lexical_parts, hparts, List.foldl_append, hnames]⟩

/-- Where nothing is linked, removing what lies inside a root changes nothing but what is below the root. -/
theorem remove_inside (ht : t.NoLinks) (h : root.Inside path)
    (hk : (remove cwd path t).2.entryAt? k ≠ t.entryAt? k) :
    ∃ rest, rest ≠ [] ∧ k = lexical (start cwd root) root.segments ++ rest := by
  obtain ⟨l, n, hstat, hl⟩ := (remove_spec cwd path t).frame hk
  have hlink : ∀ target, n ≠ .link target := fun target hn =>
    ht l target (Tree.entryAt?_eq_link_iff.2 (hn ▸ stat_get? hstat))
  obtain ⟨names, hne, hnames⟩ := lexical_inside h cwd
  obtain rfl := (stat_leadsTo hstat (Or.inr hlink)).eq_lexical ht
  obtain ⟨rest, rfl⟩ := hl
  exact ⟨names ++ rest, by simp [hne], by rw [hnames, List.append_assoc]⟩

end Files

/-! ### Plans -/

namespace Task

/-- The directories that a plan removes. -/
def cleared : Task → List Place
  | library _ => [.libs, .docs, .java]
  | documentation => [.javaDocs]

theorem outputs_eq (t : Task) (l : Layout) : t.outputs l = t.cleared.map l.get := by cases t <;> rfl

theorem mem_cleared_of_remove {t : Task} {l : Layout} {path : Path} (h : Step.remove path ∈ t.plan l) :
    ∃ q ∈ t.cleared, path = l.get q := by
  unfold plan at h
  rw [outputs_eq] at h
  simp only [List.mem_append, List.mem_map, List.mem_singleton, reduceCtorEq, and_false, exists_false, or_false] at h
  obtain ⟨_, ⟨q, hq, rfl⟩, hpath⟩ := h
  exact ⟨q, hq, (Step.remove.inj hpath).symm⟩

end Task

theorem Step.remove_tree (p : Project) (s : Surroundings) (path : Path) (m : Machine) :
    ((Step.remove path).run p s m).2.tree = if p.dry then m.tree else (Files.remove s.cwd path m.tree).2 := by
  cases hdry : p.dry with
  | false => exact (Step.remove_step hdry rfl).1
  | true => simp [Step.run, Step.runRemove, hdry, Run.log_apply]

namespace Config

/-- What a plan of a loaded configuration removes, where the entries below the root never lead up: directories that
lie strictly below the root, or have the very parts of the root.  The former are those whose way leaves the root, and
where nothing is linked to remove one of them changes only what is below the place of the root. -/
theorem load_removes_inside (i : Inputs) (loaded : LoadedConfig) (p : Project) (t : Task) (path : Path)
    (hdir : i.dir.isAbsolute = true) (h : i.load = .ok loaded) (hp : Project.ofConfig loaded.config = .ok p)
    (hc : loaded.config.paths.Descends) (hpath : Step.remove path ∈ t.plan p.layout) :
    (p.layout.projectRoot.Inside path ∨ path.parts = p.layout.projectRoot.parts) ∧
      (∃ q ∈ t.cleared, path = p.layout.get q ∧ (p.layout.projectRoot.Inside path ↔ loaded.config.paths.Leaves q)) ∧
      (p.layout.projectRoot.Inside path → ∀ s m root k, m.tree.NoLinks →
        Files.LeadsTo m.tree s.cwd p.layout.projectRoot root →
        ((Step.remove path).run p s m).2.tree.entryAt? k ≠ m.tree.entryAt? k →
        ∃ rest, rest ≠ [] ∧ k = root ++ rest) := by
  obtain ⟨root, hroot, rfl⟩ : ∃ root, loaded.config.paths.projectRoot = some root ∧
      p = ⟨loaded.config, loaded.config.paths.layoutFrom root, loaded.config.globals.dry⟩ := by
    cases hroot : loaded.config.paths.projectRoot with
    | none => simp [Project.ofConfig, Config.layout, PathsConfig.resolve, hroot, bind, Except.bind] at hp
    | some root => exact ⟨root, rfl, Except.ok.inj (hp.symm.trans (Project.ofConfig_eq hroot))⟩
  have habs : root.isAbsolute = true := by
    obtain ⟨-, hplaced, -⟩ := load_sound i loaded hdir h
    obtain ⟨root', p, hroot', hp', hall⟩ := hplaced.resolve_left (by simp [hroot])
    obtain rfl := Option.some.inj (hroot.symm.trans hroot')
    obtain rfl := Except.ok.inj (hp'.symm.trans hp)
    exact hall .projectRoot
  obtain ⟨q, hq, rfl⟩ := Task.mem_cleared_of_remove hpath
  refine ⟨?_, ⟨q, hq, rfl, PathsConfig.inside_iff habs hc q⟩, fun hinside s m place k hm hplace hk => ?_⟩
  · have hparts := PathsConfig.parts_layoutFrom habs hc q
    by_cases hnames : loaded.config.paths.names q = []
    · rw [hnames, List.map_nil, List.append_nil] at hparts
      exact Or.inr hparts
    · exact Or.inl ⟨_, hnames, hparts⟩
  · rw [Step.remove_tree] at hk
    split at hk
    · exact absurd rfl hk
    · obtain ⟨rest, hne, rfl⟩ := Files.remove_inside hm hinside hk
      exact ⟨rest, hne, by rw [hplace.eq_lexical hm]⟩

/-- A project whose libraries are said to lie where it is built, under `.`. -/
def Inputs.flat (build : String) : Inputs where
  tree := .ofEntries [([encode "p"], .directory), ([encode "p", encode "build.gradle"], .file [] false)]
  cwd := [encode "p"]
  environment := []
  options := { settings := ["paths.build_dir=" ++ build, "paths.libs_dir=."] }
  dir := .ofText "/p"

/-- What is loaded there. -/
def Inputs.loadedFlat (build : String) : LoadedConfig where
  config :=
    { paths := { projectRoot := some (.ofText "/p"), build := some (.ofText build), libs := some (.ofText ".") } }
  files := []

private theorem descends_flat {build : String} (h : (Path.ofText build).Descends) :
    (Inputs.loadedFlat build).config.paths.Descends := by
  intro q hq path hget
  have hpath : path = .ofText build ∨ path = .ofText "." := by
    cases q with
    | projectRoot => exact absurd rfl hq
    | build => exact Or.inl (Option.some.inj hget).symm
    | libs => exact Or.inr (Option.some.inj hget).symm
    | docs | out | deliverables | java | javaDocs => cases hget
  rcases hpath with rfl | rfl
  · exact h
  · decide

theorem load_removes_inside_flat :
    (Inputs.flat "out/").dir.isAbsolute = true ∧ (Inputs.flat "out/").load = .ok (Inputs.loadedFlat "out/") ∧
    (Inputs.loadedFlat "out/").config.paths.Descends ∧ ∃ p, Project.ofConfig (Inputs.loadedFlat "out/").config = .ok p ∧
      Step.remove (.ofText "/p/out/.") ∈ (Task.library false).plan p.layout ∧
      p.layout.projectRoot.Inside (.ofText "/p/out/.") := by
  have hload : (Inputs.flat "out/").load = .ok (Inputs.loadedFlat "out/") := by decide +kernel
  have hc : (Inputs.loadedFlat "out/").config.paths.Descends := descends_flat (by decide +kernel)
  have hp := Project.ofConfig_eq (c := (Inputs.loadedFlat "out/").config) rfl
  refine ⟨by decide, hload, hc, _, hp, by decide +kernel, ?_⟩
  obtain ⟨-, ⟨q, hq, -, hiff⟩, -⟩ := load_removes_inside (.flat "out/") (Inputs.loadedFlat "out/") _ (.library false)
    (.ofText "/p/out/.") (by decide) hload hp hc (by decide +kernel)
  -- both ways from the root leave it with their first entry
  have hout : (Path.ofText "out/").Names := ⟨encode "out", by decide +kernel⟩
  refine hiff.2 ?_
  cases q with
  | libs | docs => exact ⟨.build, by decide, fun path hpath => Option.some.inj hpath ▸ hout⟩
  | java => exact ⟨.out, by decide, fun path hpath => by cases hpath⟩
  | projectRoot | build | out | deliverables | javaDocs => simp [Task.cleared] at hq

/-- With `.` for the build directory as well, building the library begins with the removal of the root: nothing is
left of the project. -/
theorem load_removes_root : (Inputs.flat ".").dir.isAbsolute = true ∧
    (Inputs.flat ".").load = .ok (Inputs.loadedFlat ".") ∧ (Inputs.loadedFlat ".").config.paths.Descends ∧
    ∃ p path, Project.ofConfig (Inputs.loadedFlat ".").config = .ok p ∧
      ((Task.library false).plan p.layout)[0]? = some (.remove path) ∧ path.parts = p.layout.projectRoot.parts ∧
      ¬ p.layout.projectRoot.Inside path ∧
      ∀ s, s.cwd = (Inputs.flat ".").cwd → ((Step.remove path).run p s { tree := (Inputs.flat ".").tree }).2.tree =
        .ofEntries [([encode "p"], .directory)] := by
  have hparts : (Path.ofText "/p/./.").parts = (Path.ofText "/p").parts := by decide +kernel
  refine ⟨by decide, by decide +kernel, descends_flat (by decide +kernel), _, .ofText "/p/./.",
    Project.ofConfig_eq rfl, by decide +kernel, hparts, ?_, fun s hs => ?_⟩
  · rintro ⟨names, hne, hnames⟩
    rw [hparts] at hnames
    exact hne (List.map_eq_nil_iff.1 (List.self_eq_append_right.1 hnames))
  · rw [Step.remove_tree, hs]
    rfl

end Config

end GradleBuild
