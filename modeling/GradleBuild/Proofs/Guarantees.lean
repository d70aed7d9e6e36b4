import GradleBuild.Proofs.Layouts
import GradleBuild.Proofs.Loading
import GradleBuild.Proofs.Runs

/-!
# What a loaded configuration guarantees

The root of the project comes in as a default below all layers, and is made absolute in the end.  In between a layer
can take it away: whatever is given for the section as a whole, and is no table, replaces the section with all that is
in it.  `keepsRoot` tells the assignments that do not.

* `HasRoot.layers`: as long as no layer takes the root away, it is there when the layers are merged.
* `load_sound`: what holds of every configuration that is loaded, and of its root unless that is taken away.
* `load_rootless`: a section that is given as a list leaves a configuration without a root.
-/

namespace GradleBuild.Config

open Key (fieldsOrNone changeField changeAt overlay overlayFields)

variable {i : Inputs} {loaded : LoadedConfig} {c : Config} {k : Key} {v top top' base paths : Value}
  {pairs : List (Key × Value)} {fields : Fields} {name : String}

/-! ### Keeping the root -/

def Value.isNull : Value → Bool
  | .scalar _ .null => true
  | _ => false

/-- The section is a table in which the root is set. -/
def SetsRoot (paths : Value) : Prop := ∃ o fields root, paths = .table o fields ∧
  fields.lookup "project_root" = some root ∧ root.isNull = false

/-- The root is set in its section. -/
def HasRoot (top : Value) : Prop := ∃ o fields paths, top = .table o fields ∧
  fields.lookup "paths" = some paths ∧ SetsRoot paths

/-- Whether a field put into the section leaves a root there, as all do but a root that is null. -/
def fieldKeepsRoot (f : String × Value) : Bool := f.1 != "project_root" || !f.2.isNull

/-- Whether an assignment leaves the root there. -/
def keepsRoot (k : Key) (v : Value) : Bool :=
  k.name != "paths" ||
    match k.steps, v with
    | [], .table _ fields => fields.all fieldKeepsRoot
    | [], _ => false
    | .index _ :: _, _ => false
    | [.child name], v => fieldKeepsRoot (name, v)
    | .child _ :: _ :: _, _ => true

private theorem isNull_overlay (h : v.isNull = false) (old : Value) : (overlay v old).isNull = false := by
  cases v with
  | scalar => simpa only [overlay] using h
  | list => simp only [overlay, Value.isNull]
  | table o fields =>
    obtain ⟨o', fields', he, -⟩ := overlayFields_table fields (fieldsOrNone old).1 (fieldsOrNone old).2
    simp only [overlay, he, Value.isNull]

private theorem SetsRoot.changeField {change : Value → Value} (h : SetsRoot paths)
    (hc : name = "project_root" → ∀ old, (change old).isNull = false) : SetsRoot (changeField change name paths) := by
  obtain ⟨o, fields, root, rfl, hroot, hnull⟩ := h
  by_cases hn : name = "project_root"
  · subst hn
    exact ⟨o, _, _, rfl, lookup_putField_self .., hc rfl _⟩
  · exact ⟨o, _, root, rfl, (lookup_putField_of_ne (Ne.symm hn) ..).trans hroot, hnull⟩

private theorem SetsRoot.overlayFields (h : SetsRoot paths) (hf : fields.all fieldKeepsRoot = true) :
    SetsRoot (overlayFields fields paths) := by
  induction fields generalizing paths with
  | nil => simpa only [Key.overlayFields] using h
  | cons f fields ih =>
    obtain ⟨name, new⟩ := f
    rw [List.all_cons, Bool.and_eq_true] at hf
    rw [Key.overlayFields]
    refine ih (h.changeField fun hn old => isNull_overlay ?_ old) hf.2
    simpa [fieldKeepsRoot, hn] using hf.1

private theorem SetsRoot.changeAt (h : SetsRoot paths) (hk : k.name = "paths") (hkeeps : keepsRoot k v = true) :
    SetsRoot (changeAt (overlay v) k.steps paths) := by
  obtain ⟨title, steps⟩ := k
  obtain rfl : title = "paths" := hk
  unfold keepsRoot at hkeeps
  rw [bne_self_eq_false, Bool.false_or] at hkeeps
  match steps with
  | [] =>
    cases v with
    | table o fields =>
      obtain ⟨o', fields', root, rfl, -⟩ := id h
      rw [Key.changeAt, overlay]
      exact h.overlayFields hkeeps
    | scalar | list => cases hkeeps
  | .index n :: steps => cases hkeeps
  | [.child name] =>
    refine h.changeField fun hn old => isNull_overlay ?_ old
    simpa [fieldKeepsRoot, hn] using hkeeps
  | .child name :: step :: steps =>
    refine h.changeField fun _ old => ?_
    cases step <;> rfl

/-- An assignment that keeps the root keeps it. -/
theorem HasRoot.set (h : HasRoot top) (hk : keepsRoot k v = true) : HasRoot (k.set v top) := by
  obtain ⟨o, fields, paths, rfl, hpaths, hroot⟩ := h
  by_cases hn : k.name = "paths"
  · have hold : ((fieldsOrNone (.table o fields)).2.lookup "paths").getD .null = paths := by
      simp [fieldsOrNone, hpaths]
    refine ⟨o, _, _, rfl, by rw [hn]; exact lookup_putField_self .., ?_⟩
    rw [← hold] at hroot
    exact hroot.changeAt hn hk
  · exact ⟨o, _, paths, rfl, (lookup_putField_of_ne (Ne.symm hn) ..).trans hpaths, hroot⟩

theorem HasRoot.assignAll (h : HasRoot top) (hk : ∀ a ∈ pairs, keepsRoot a.1 a.2 = true) :
    HasRoot (Loader.assignAll pairs top) := by
  induction pairs generalizing top with
  | nil => exact h
  | cons a pairs ih =>
    exact ih (h.set (hk a (by simp))) fun a ha => hk a (List.mem_cons_of_mem _ ha)

/-! ### The assignments of all layers -/

/-- Whatever some layer assigns. -/
def Inputs.assignments (i : Inputs) : List (Key × Value) :=
  (i.projectSource :: i.options.configs.map i.fileSource).flatMap (fun s => assigned (contents i.tree i.cwd s))
    ++ assigned (i.environment.filterMap assignment?)
    ++ i.options.overrides.filterMap override?

/-- As long as no layer takes the root away, it is there when the layers are merged. -/
theorem HasRoot.layers (hk : ∀ a ∈ i.assignments, keepsRoot a.1 a.2 = true) (h : i.base = .ok base) :
    HasRoot (Loader.assignAll i.overriding base) := by
  have hassignments : i.assignments = i.lowerLayers.flatten ++ i.options.overrides.filterMap override? := by
    unfold Inputs.assignments Inputs.lowerLayers
    rw [List.flatten_append, List.flatten_singleton, List.flatMap_def]
  rw [hassignments] at hk
  -- the default is there first, and each layer keeps it
  have h₀ : HasRoot
      (Loader.assignAll [((Setting.directory .projectRoot).key, .text i.root.display)] (.table none [])) :=
    ⟨_, _, _, rfl, rfl, _, _, _, rfl, rfl, rfl⟩
  have hbase : HasRoot base := by
    rw [base_layers h]
    exact h₀.assignAll fun a ha => hk a (List.mem_append_left _ ha)
  refine hbase.assignAll fun a ha => ?_
  rcases mem_overriding ha with ha | rfl
  · exact hk a (List.mem_append_right _ ha)
  · rfl

/-! ### What is loaded -/

/-- The values of a configuration can be worked with. -/
structure Sound (c : Config) : Prop where
  wrapper : ∀ w, c.gradle.wrapper = some w → w.isEmpty = false
  arguments : ∀ a ∈ c.gradle.args, ∃ ch ∈ a.toList, isBlank ch = false
  directories : ∀ p path, c.paths.get p = some path → path.isEmpty = false
  levels : c.globals.outputLogLevel.toNat ≤ 5 ∧ ∀ level, c.globals.fileLogLevel = some level → level.toNat ≤ 5

/-- The root of the project is set, and all its directories have absolute paths. -/
def Placed (c : Config) : Prop := ∃ root p, c.paths.projectRoot = some root ∧ Project.ofConfig c = .ok p ∧
  ∀ q, (p.layout.get q).isAbsolute = true

theorem validate_ok (h : c.validate = .ok ()) : Sound c := by
  obtain ⟨hwrapper, hargs, hplaces⟩ := validate_eq_ok.1 h
  refine ⟨fun w hw => ?_, fun a ha => ?_, fun p path hp => ?_, ?_, fun level _ => ?_⟩
  · simpa [hw] using hwrapper
  · have hblank : isAllBlank a = false := by simpa using List.any_eq_false.1 hargs a ha
    simpa [isAllBlank] using hblank
  · simpa [hp] using hplaces p
  · exact c.globals.outputLogLevel.toNat_le_highest
  · exact level.toNat_le_highest

/-- A root that is set is decoded. -/
private theorem ofValue_hasRoot (h : HasRoot top) (hc : ofValue top = .ok c) : c.paths.projectRoot ≠ none := by
  obtain ⟨o, fields, paths, rfl, hpaths, o', fs, root, rfl, hroot, hnull⟩ := h
  obtain ⟨_, hf, hc⟩ := bind_eq_ok hc
  obtain rfl := sectionFields_ok hf
  obtain ⟨globals, -, hc⟩ := bind_eq_ok hc
  obtain ⟨paths, hwant, hc⟩ := bind_eq_ok hc
  obtain ⟨gradle, -, hc⟩ := bind_eq_ok hc
  obtain rfl := Except.ok.inj hc
  have hsection := field_ok hwant
  rw [hpaths] at hsection
  have htaken : Taken (wantOption wantPath) none (fs.lookup "project_root") paths.projectRoot :=
    wantPaths_ok hsection .projectRoot
  rw [hroot] at htaken
  replace htaken : wantOption wantPath root = .ok paths.projectRoot := htaken
  intro hnone
  replace hnone : paths.projectRoot = none := hnone
  rw [hnone] at htaken
  unfold wantOption at htaken
  split at htaken
  · cases hnull
  · obtain ⟨path, -, hsome⟩ := bind_eq_ok htaken
    cases hsome

private theorem Sound.rooted {dir : Path} (h : Sound c) (hdir : dir.isAbsolute = true) : Sound (rooted dir c) where
  wrapper := h.wrapper
  arguments := h.arguments
  levels := h.levels
  directories p path hp := by
    cases p with
    | projectRoot =>
      obtain ⟨root, -, rfl⟩ := Option.map_eq_some_iff.1 hp
      have := Path.isAbsolute_absoluteFrom hdir root
      cases hbytes : (dir.absoluteFrom root).bytes with
      | nil => simp [Path.isAbsolute, hbytes] at this
      | cons => simp [Path.isEmpty, hbytes]
    | build => exact h.directories .build path hp
    | libs => exact h.directories .libs path hp
    | docs => exact h.directories .docs path hp
    | out => exact h.directories .out path hp
    | deliverables => exact h.directories .deliverables path hp
    | java => exact h.directories .java path hp
    | javaDocs => exact h.directories .javaDocs path hp

/-- A configuration that is loaded is sound.  Its root is set, and all directories are absolute, unless some layer has
taken the root away. -/
theorem load_sound (i : Inputs) (loaded : LoadedConfig) (hdir : i.dir.isAbsolute = true) (h : i.load = .ok loaded) :
    Sound loaded.config ∧ (loaded.config.paths.projectRoot = none ∨ Placed loaded.config) ∧
      ((∀ a ∈ i.assignments, keepsRoot a.1 a.2 = true) → Placed loaded.config) := by
  obtain ⟨-, base, c, hbase, hvalue, hvalid, rfl⟩ := load_eq_ok h
  have hplaced : c.paths.projectRoot ≠ none → Placed (rooted i.dir c) := by
    intro hne
    obtain ⟨root, hroot⟩ := Option.ne_none_iff_exists'.1 hne
    have hsome : (rooted i.dir c).paths.projectRoot = some (i.dir.absoluteFrom root) := by simp [rooted, hroot]
    exact ⟨_, _, hsome, Project.ofConfig_eq hsome, isAbsolute_layoutFrom (Path.isAbsolute_absoluteFrom hdir root) _⟩
  refine ⟨(validate_ok hvalid).rooted hdir, ?_, fun hk => ?_⟩
  · by_cases hne : c.paths.projectRoot = none
    · exact Or.inl (by simp [rooted, hne])
    · exact Or.inr (hplaced hne)
  · exact hplaced (ofValue_hasRoot (HasRoot.layers hk hbase) hvalue)

theorem load_sound_sample : Inputs.sample.dir.isAbsolute = true ∧
    Inputs.sample.load = .ok (Inputs.loadedSample false) ∧ Sound (Inputs.loadedSample false).config ∧
    ((Inputs.loadedSample false).config.paths.projectRoot = none ∨ Placed (Inputs.loadedSample false).config) ∧
    (∀ a ∈ Inputs.sample.assignments, keepsRoot a.1 a.2 = true) ∧ Placed (Inputs.loadedSample false).config := by
  have hload : Inputs.sample.load = .ok (Inputs.loadedSample false) := by decide +kernel
  obtain ⟨hsound, hroot, hplaced⟩ := load_sound .sample (Inputs.loadedSample false) (by decide) hload
  have hkeeps : ∀ a ∈ Inputs.sample.assignments, keepsRoot a.1 a.2 = true := by decide +kernel
  exact ⟨by decide, hload, hsound, hroot, hkeeps, hplaced hkeeps⟩

/-- A project whose own file gives the section of the directories as a list. -/
def Inputs.listing : Inputs where
  tree := .ofEntries [([encode "p"], .directory),
    ([encode "p", encode "scp-build.toml"], .file (encode "paths = []\n") false)]
  cwd := [encode "p"]
  environment := []
  options := {}
  dir := .ofText "/p"

/-- Such a configuration is loaded without a root, and no project can be made of it. -/
theorem load_rootless : Inputs.listing.dir.isAbsolute = true ∧ ∃ loaded, Inputs.listing.load = .ok loaded ∧
    loaded.config.paths.projectRoot = none ∧
    Project.ofConfig loaded.config = .error (.missingKey "paths" "project_root") :=
  ⟨by decide, ⟨{}, [.ofText "/p/scp-build.toml"]⟩, by decide +kernel, rfl, rfl⟩

end GradleBuild.Config
