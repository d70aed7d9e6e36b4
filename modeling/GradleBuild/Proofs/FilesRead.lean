import GradleBuild.Proofs.WorkingDirectories

/-!
# The files that are read

A run names its files when its loader is put together: the project's own one if a file is there, and those of the
command line as they are given.  They are found when the loader builds, under their paths or else with `.toml` behind
the names.  So what is reported is what was read just if no file is found under another name than its own.

* `opened`: the file that is read for a path; it is a regular file (`opened_eq_some`) and what a source holds
  (`collect_opened`).
* `mapM_collect_texts`: some files hold what their texts alone do, up to names.
* `build_texts`: so a loader builds the same from the texts of the files it opens, in any tree.
* `load_files`: what is read, and when it is what is reported.
* `load_files_suffixed`: a file that is reported under a name it does not have, and one that is not reported.
-/

namespace GradleBuild.Config

open Loader (locate? collect readToml fileText originOf)

variable {i : Inputs} {loaded : LoadedConfig} {t : Tree} {cwd : Location} {p found : Path} {content : Bytes}
  {f : Path × Bytes}

/-! ### Files and their texts -/

/-- The file that is read for a path, with its content. -/
def Loader.opened (t : Tree) (cwd : Location) (p : Path) : Option (Path × Bytes) := do
  let found ← locate? t cwd p
  let content ← (Files.read t cwd found).toOption
  return (found, content)

/-- A file is found under its path, or with `.toml` behind its name if there is none under its path. -/
theorem locate?_eq_some : locate? t cwd p = some found ↔ Files.isFile t cwd found = true ∧
    (found = p ∨ Files.isFile t cwd p = false ∧ p.withSuffix? ".toml" = some found) := by
  unfold locate?
  by_cases hp : Files.isFile t cwd p = true
  · rw [if_pos hp, Option.some.injEq]
    exact ⟨fun h => ⟨h ▸ hp, Or.inl h.symm⟩, fun h => (h.2.resolve_right fun h => by simp [hp] at h).symm⟩
  · rw [if_neg hp, Option.filter_eq_some_iff]
    constructor
    · exact fun h => ⟨h.2, Or.inr ⟨by simpa using hp, h.1⟩⟩
    · rintro ⟨hfile, rfl | ⟨-, hsuffix⟩⟩
      · exact absurd hfile hp
      · exact ⟨hsuffix, hfile⟩

theorem isFile_locate? (h : locate? t cwd p = some found) : Files.isFile t cwd found = true := (locate?_eq_some.1 h).1

/-- A regular file can be read: trees know no permission to read one. -/
theorem read_of_isFile (h : Files.isFile t cwd p = true) : ∃ content, Files.read t cwd p = .ok content := by
  unfold Files.isFile at h
  unfold Files.read
  cases hstat : Files.stat t cwd p true with
  | error e => simp [hstat] at h
  | ok found =>
    obtain ⟨l, n⟩ := found
    cases n with
    | file content executable => exact ⟨content, rfl⟩
    | directory | link => simp [hstat, Node.isFile] at h

/-- Whatever is found is read. -/
theorem opened_eq_some : Loader.opened t cwd p = some f ↔
    locate? t cwd p = some f.1 ∧ Files.read t cwd f.1 = .ok f.2 := by
  obtain ⟨path, bytes⟩ := f
  unfold Loader.opened
  cases hfound : locate? t cwd p with
  | none => simp
  | some found =>
    obtain ⟨content, hcontent⟩ := read_of_isFile (isFile_locate? hfound)
    simp only [Option.bind_eq_bind, Option.bind_some, hcontent, Except.toOption, Option.pure_def, Option.some.injEq,
      Prod.mk.injEq]
    constructor
    · rintro ⟨rfl, rfl⟩
      exact ⟨rfl, hcontent⟩
    · rintro ⟨rfl, hbytes⟩
      exact ⟨rfl, Except.ok.inj (hcontent.symm.trans hbytes)⟩

theorem opened_of_locate? (h : locate? t cwd p = some found) :
    ∃ content, Loader.opened t cwd p = some (found, content) := by
  obtain ⟨content, hcontent⟩ := read_of_isFile (isFile_locate? h)
  exact ⟨content, opened_eq_some.2 ⟨h, hcontent⟩⟩

/-- A source whose file is opened holds what the text of that says. -/
theorem collect_opened (h : Loader.opened t cwd p = some f) (required : Bool) :
    collect t cwd (.file p required) = readToml (some (originOf cwd f.1)) (fileText f.2) := by
  obtain ⟨hfound, hcontent⟩ := opened_eq_some.1 h
  simp only [collect, hfound, hcontent]

theorem locate?_of_unopened (h : Loader.opened t cwd p = none) : locate? t cwd p = none := by
  cases hfound : locate? t cwd p with
  | none => rfl
  | some found =>
    obtain ⟨content, hopened⟩ := opened_of_locate? hfound
    simp [h] at hopened

/-- A source without a file is skipped if it may be. -/
theorem collect_unopened (h : Loader.opened t cwd p = none) (required : Bool) :
    collect t cwd (.file p required) = if required then .error (.fileNotFound p.display) else .ok [] := by
  simp only [collect, locate?_of_unopened h]

/-- No source has a name. -/
def unnamed (_ : Option String) : Option String := none

theorem relabelFields_append (g : Option String → Option String) (fields fields' : Fields) :
    relabelFields g (fields ++ fields') = relabelFields g fields ++ relabelFields g fields' := by
  rw [relabelFields_eq, relabelFields_eq, relabelFields_eq, List.map_append]

/-- Some files, each of which must exist or may be missing. -/
def fileSources (wanted : List (Path × Bool)) : List Source := wanted.map fun (p, required) => .file p required

/-- The texts of some files. -/
def textSources (files : List (Path × Bytes)) : List Source := files.map fun f => .text (fileText f.2)

private theorem mapM_cons_eq_ok {α β ε : Type} {f : α → Except ε β} {x : α} {xs : List α} {zs : List β}
    (h : (x :: xs).mapM f = .ok zs) : ∃ y ys, f x = .ok y ∧ xs.mapM f = .ok ys ∧ zs = y :: ys := by
  rw [List.mapM_cons] at h
  obtain ⟨y, hy, h⟩ := bind_eq_ok h
  obtain ⟨ys, hys, h⟩ := bind_eq_ok h
  exact ⟨y, ys, hy, hys, (Except.ok.inj h).symm⟩

/-- Some files hold what the texts of those that are opened hold, up to names. -/
theorem mapM_collect_texts {wanted : List (Path × Bool)} {fields : List Fields} (t' : Tree) (cwd' : Location)
    (h : (fileSources wanted).mapM (collect t cwd) = .ok fields) : ∃ fields',
      (textSources ((wanted.map Prod.fst).filterMap (Loader.opened t cwd))).mapM (collect t' cwd') = .ok fields' ∧
      relabelFields unnamed fields.flatten = relabelFields unnamed fields'.flatten := by
  induction wanted generalizing fields with
  | nil =>
    obtain rfl := Except.ok.inj h
    exact ⟨[], rfl, rfl⟩
  | cons a wanted ih =>
    obtain ⟨p, required⟩ := a
    obtain ⟨first, rest, hfirst, hrest, rfl⟩ := mapM_cons_eq_ok h
    obtain ⟨rest', hrest', hagree⟩ := ih hrest
    rw [List.map_cons]
    cases hopened : Loader.opened t cwd p with
    | none =>
      -- a file that may be missing adds nothing
      rw [collect_unopened hopened] at hfirst
      rw [List.filterMap_cons_none hopened]
      split at hfirst
      · cases hfirst
      · obtain rfl := Except.ok.inj hfirst
        exact ⟨rest', hrest', hagree⟩
    | some f =>
      have htext := Loader.readToml_relabel unnamed (some (originOf cwd f.1)) (fileText f.2)
      rw [← collect_opened hopened required, hfirst] at htext
      replace htext : readToml none (fileText f.2) = .ok (relabelFields unnamed first) := htext
      -- the text itself has no name to drop
      have hagain := Loader.readToml_relabel unnamed none (fileText f.2)
      replace hagain : readToml none (fileText f.2) = relabelRead unnamed (readToml none (fileText f.2)) := hagain
      rw [htext] at hagain
      have hsame : relabelFields unnamed first = relabelFields unnamed (relabelFields unnamed first) :=
        Except.ok.inj hagain
      rw [List.filterMap_cons_some hopened]
      refine ⟨relabelFields unnamed first :: rest', ?_, ?_⟩
      · show List.mapM (collect t' cwd') (.text (fileText f.2) :: textSources _) = _
        rw [List.mapM_cons, hrest']
        show (readToml none (fileText f.2) >>= _) = _
        rw [htext]
        rfl
      · rw [List.flatten_cons, List.flatten_cons, relabelFields_append, relabelFields_append, ← hsame, hagree]

/-! ### Building from texts -/

/-- What values decode to shows no names. -/
theorem ofValue_of_unnamed {v w : Value} {c : Config} (h : v.relabel unnamed = w.relabel unnamed)
    (hv : ofValue v = .ok c) : ofValue w = .ok c := by
  have hw : renamed unnamed (ofValue w) = renamed unnamed (ofValue v) := by
    rw [← ofValue_blind rfl w, ← ofValue_blind rfl v, h]
  rw [hv] at hw
  exact mapError_eq_ok.1 hw

/-- Whatever a loader builds from some files, it builds from the texts of those it opens, in any tree. -/
theorem build_texts {l : Loader} {wanted : List (Path × Bool)} {environment : Environment} {c : Config} (t' : Tree)
    (cwd' : Location) (hsources : l.sources = fileSources wanted) (h : l.build t cwd environment = .ok c) :
    { l with sources := textSources ((wanted.map Prod.fst).filterMap (Loader.opened t cwd)) }.build t' cwd'
      environment = .ok c := by
  obtain ⟨pairs, hpairs, hvalue, hvalid⟩ := build_eq_ok.1 h
  obtain ⟨fields, values, hfields, hvalues, rfl⟩ := assignments_eq_ok.1 hpairs
  rw [hsources] at hfields
  obtain ⟨fields', hfields', hagree⟩ := mapM_collect_texts t' cwd' hfields
  refine build_eq_ok.2 ⟨_, assignments_eq_ok.2 ⟨fields', values, hfields', hvalues, rfl⟩, ?_, hvalid⟩
  refine ofValue_of_unnamed ?_ hvalue
  have hnone : unnamed none = none := rfl
  simp only [assignAll_relabel hnone, List.map_append, ← assigned_relabel, hagree]

/-! ### The files of a run -/

/-- The files that a run reads, in the order in which it merges them. -/
def Inputs.filesRead (i : Inputs) : List (Path × Bytes) := i.filePaths.filterMap (Loader.opened i.tree i.cwd)

/-- The loader of a run with some texts for its files. -/
def Inputs.withTexts (i : Inputs) (files : List (Path × Bytes)) : Loader :=
  { i.below with sources := textSources files, overrides := i.overriding }

/-- The sources of a run are its files, of which only the project's own one may be missing. -/
private theorem sources_below (i : Inputs) : ∃ wanted, i.below.sources = fileSources wanted ∧
    wanted.map Prod.fst = i.filePaths ∧ ∀ p ∈ i.options.configs.map i.dir.absoluteFrom, (p, true) ∈ wanted := by
  refine ⟨(i.root.join (.ofText projectFile), false) :: (i.options.configs.map i.dir.absoluteFrom).map (·, true),
    ?_, ?_, fun p hp => List.mem_cons_of_mem _ (List.mem_map.2 ⟨p, hp, rfl⟩)⟩
  · rw [below_eq]
    simp [fileSources, Inputs.projectSource, Inputs.fileSource]
  · rw [List.map_cons, List.map_map]
    exact congrArg _ (List.map_id _)

private theorem map_fst_opened {paths : List Path} (h : ∀ p ∈ paths, ∃ f, Loader.opened t cwd p = some f) :
    (paths.filterMap (Loader.opened t cwd)).length = paths.length ∧
      (paths = (paths.filterMap (Loader.opened t cwd)).map Prod.fst ↔
        ∀ p ∈ paths, ∀ f, Loader.opened t cwd p = some f → f.1 = p) := by
  induction paths with
  | nil => simp
  | cons p paths ih =>
    obtain ⟨f, hf⟩ := h p List.mem_cons_self
    obtain ⟨hlength, heq⟩ := ih fun q hq => h q (List.mem_cons_of_mem _ hq)
    rw [List.filterMap_cons_some hf, List.map_cons, List.cons.injEq, List.forall_mem_cons, heq]
    refine ⟨by rw [List.length_cons, List.length_cons, hlength], and_congr_left fun _ => ?_⟩
    constructor
    · rintro hp g hg
      obtain rfl := Option.some.inj (hf.symm.trans hg)
      exact hp.symm
    · exact fun hp => (hp f hf).symm

/-- The paths of the files that are read are those that are reported just if each file is read under its own path. -/
private theorem files_eq_read (hconfigs : ∀ p ∈ i.options.configs.map i.dir.absoluteFrom,
    ∃ f, Loader.opened i.tree i.cwd p = some f) : i.below.files = i.filesRead.map Prod.fst ↔
      ∀ p ∈ i.filePaths, ∀ f, Loader.opened i.tree i.cwd p = some f → f.1 = p := by
  obtain ⟨hlength, heq⟩ := map_fst_opened hconfigs
  unfold Inputs.filesRead Inputs.filePaths
  rw [files_below, List.forall_mem_cons, ← heq]
  cases hopened : Loader.opened i.tree i.cwd (i.root.join (.ofText projectFile)) with
  | none =>
    have hmissing : Files.isFile i.tree i.cwd (i.root.join (.ofText projectFile)) = false := by
      have hnone := locate?_of_unopened hopened
      unfold locate? at hnone
      split at hnone
      · cases hnone
      · next h => exact Bool.eq_false_iff.2 h
    rw [List.filterMap_cons_none hopened, hmissing]
    simp
  | some f =>
    obtain ⟨hfile, hplace⟩ := locate?_eq_some.1 (opened_eq_some.1 hopened).1
    rw [List.filterMap_cons_some hopened, List.map_cons]
    rcases hplace with hplace | ⟨hmissing, hsuffix⟩
    · rw [← hplace, hfile]
      simp
    · -- one file is read that is not reported
      have hother : f.1 ≠ i.root.join (.ofText projectFile) := fun h => by simp [← h, hfile] at hmissing
      rw [hmissing]
      constructor
      · intro h
        have hlengths := congrArg List.length h
        rw [if_neg (by decide), List.nil_append, List.length_cons, List.length_map Prod.fst, hlength] at hlengths
        omega
      · exact fun h => absurd (h.1 f rfl) hother

/-- Each path that is reported is one that is looked for, and a file is read for it. -/
private theorem opened_of_mem_files (hconfigs : ∀ p ∈ i.options.configs.map i.dir.absoluteFrom,
    ∃ f, Loader.opened i.tree i.cwd p = some f) (hp : p ∈ i.below.files) :
    p ∈ i.filePaths ∧ ∃ f, Loader.opened i.tree i.cwd p = some f := by
  rw [files_below] at hp
  rcases List.mem_append.1 hp with hp | hp
  · split at hp
    · next hfile =>
      obtain rfl := List.mem_singleton.1 hp
      obtain ⟨content, hopened⟩ := opened_of_locate? (locate?_eq_some.2 ⟨hfile, Or.inl rfl⟩)
      exact ⟨List.mem_cons_self, _, hopened⟩
    · cases hp
  · exact ⟨List.mem_cons_of_mem _ hp, hconfigs p hp⟩

private theorem exists_of_mapM {α β ε : Type} {f : α → Except ε β} {xs : List α} {ys : List β} {x : α}
    (h : xs.mapM f = .ok ys) (hx : x ∈ xs) : ∃ y, f x = .ok y := by
  induction xs generalizing ys with
  | nil => cases hx
  | cons x' xs ih =>
    obtain ⟨y, ys', hy, hys, -⟩ := mapM_cons_eq_ok h
    rcases List.mem_cons.1 hx with rfl | hx
    · exact ⟨y, hy⟩
    · exact ih hys hx

/-- The files of the command line are there if a run can be configured. -/
private theorem configs_opened {environment : Environment} {l : Loader} {c : Config}
    (h : l.build t cwd environment = .ok c) (hp : Source.file p true ∈ l.sources) :
    ∃ f, Loader.opened t cwd p = some f := by
  obtain ⟨pairs, hpairs, -⟩ := build_eq_ok.1 h
  obtain ⟨fields, values, hfields, -⟩ := assignments_eq_ok.1 hpairs
  obtain ⟨found, hfound⟩ := exists_of_mapM hfields hp
  cases hopened : Loader.opened t cwd p with
  | some f => exact ⟨f, rfl⟩
  | none =>
    rw [collect_unopened hopened] at hfound
    cases hfound

/-- What is loaded is made of the files that are read, found one after another under the paths of the project's own file
and of the command line: each is a regular file with the content that is read, and their texts alone give the same
configuration in any tree.  Each path that is reported leads to one of them.  The files that are reported are those that
are read just if each is found under its own path. -/
theorem load_files (h : i.load = .ok loaded) :
    (∀ f ∈ i.filesRead, Files.isFile i.tree i.cwd f.1 = true ∧ Files.read i.tree i.cwd f.1 = .ok f.2) ∧
    (∃ c, loaded.config = rooted i.dir c ∧
      ∀ t cwd, (i.withTexts i.filesRead).build t cwd i.environment = .ok c) ∧
    (∀ p ∈ loaded.files, ∃ f ∈ i.filesRead, locate? i.tree i.cwd p = some f.1) ∧
    (loaded.files = i.filesRead.map Prod.fst ↔
      ∀ p ∈ i.filePaths, ∀ found, locate? i.tree i.cwd p = some found → found = p) := by
  obtain ⟨l, hl, hbuild⟩ := bind_eq_ok h
  obtain ⟨c, hc, hloaded⟩ := bind_eq_ok hbuild
  obtain ⟨-, rfl⟩ := loaderFor_eq_ok.1 hl
  obtain rfl := Except.ok.inj hloaded
  obtain ⟨wanted, hsources, hpaths, hrequired⟩ := sources_below i
  have hconfigs : ∀ p ∈ i.options.configs.map i.dir.absoluteFrom, ∃ f, Loader.opened i.tree i.cwd p = some f := by
    intro p hp
    refine configs_opened hc ?_
    show Source.file p true ∈ i.below.sources
    rw [hsources]
    exact List.mem_map.2 ⟨(p, true), hrequired p hp, rfl⟩
  refine ⟨fun f hf => ?_, ⟨c, rfl, fun t cwd => ?_⟩, fun p hp => ?_, ?_⟩
  · obtain ⟨p, -, hopened⟩ := List.mem_filterMap.1 hf
    obtain ⟨hfound, hcontent⟩ := opened_eq_some.1 hopened
    exact ⟨isFile_locate? hfound, hcontent⟩
  · have htexts := build_texts (l := { i.below with overrides := i.overriding }) t cwd hsources hc
    rw [hpaths] at htexts
    exact htexts
  · obtain ⟨hmem, f, hopened⟩ := opened_of_mem_files hconfigs hp
    exact ⟨f, List.mem_filterMap.2 ⟨p, hmem, hopened⟩, (opened_eq_some.1 hopened).1⟩
  · show i.below.files = _ ↔ _
    rw [files_eq_read hconfigs]
    refine forall₂_congr fun p hp => ⟨fun h found hfound => ?_, fun h f hopened => h f.1 (opened_eq_some.1 hopened).1⟩
    obtain ⟨content, hopened⟩ := opened_of_locate? hfound
    exact h _ hopened

/-- A run in a project with some files, which are given to it as it is told. -/
def Inputs.filed (files : List (String × String)) (configs : List Path) : Inputs where
  tree := .ofEntries (([encode "p"], .directory) ::
    files.map fun (name, text) => ([encode "p", encode name], .file (encode text) false))
  cwd := [encode "p"]
  environment := []
  options := { configs }
  dir := .ofText "/p"

/-- Two files in three layers. -/
def Inputs.repeated : Inputs :=
  .filed [("scp-build.toml", "[global]\ndry=true\n"), ("ci.toml", "[gradle]\nconsole='rich'\n")]
    [.ofText "ci.toml", .ofText "/p/ci.toml"]

/-- What is loaded from them. -/
def Inputs.loadedRepeated : LoadedConfig where
  config :=
    { globals := { dry := true }, paths := { projectRoot := some (.ofText "/p") }, gradle := { console := .rich } }
  files := [.ofText "/p/scp-build.toml", .ofText "/p/ci.toml", .ofText "/p/ci.toml"]

theorem load_files_repeated : Inputs.repeated.load = .ok Inputs.loadedRepeated ∧
    Inputs.loadedRepeated.files = Inputs.repeated.filesRead.map Prod.fst := by
  have hload : Inputs.repeated.load = .ok Inputs.loadedRepeated := by decide +kernel
  obtain ⟨-, -, -, hfiles⟩ := load_files hload
  exact ⟨hload, hfiles.2 (by decide +kernel)⟩

/-- A file that is given without its suffix is reported without it too, though there is no such file.  The project's own
file is found with the suffix twice, and then it is not reported. -/
theorem load_files_suffixed :
    let given := Inputs.filed [("base.toml", "[gradle]\nconsole='rich'\n")] [.ofText "base"]
    let found := Inputs.filed [("scp-build.toml.toml", "[global]\ndry=true\n")] []
    given.load = .ok ⟨{ paths := { projectRoot := some (.ofText "/p") }, gradle := { console := .rich } },
      [.ofText "/p/base"]⟩ ∧
    Files.isFile given.tree given.cwd (.ofText "/p/base") = false ∧
    given.filesRead.map Prod.fst = [.ofText "/p/base.toml"] ∧
    found.load = .ok ⟨{ globals := { dry := true }, paths := { projectRoot := some (.ofText "/p") } }, []⟩ ∧
    found.filesRead.map Prod.fst = [.ofText "/p/scp-build.toml.toml"] := by
  refine ⟨by decide +kernel, by decide +kernel, by decide +kernel, by decide +kernel, by decide +kernel⟩

end GradleBuild.Config
