import GradleBuild.Proofs.Origins
import GradleBuild.Proofs.Roots

/-!
# Runs from other directories

A run that starts elsewhere in the same project finds the same project's file, and its other files have absolute paths.
So its sources hold the same values, in whatever order they are gone through, and what is decoded from them is the same.
Two things still depend on where a run starts: a relative root is taken from there, and messages name files as they are
seen from the process.

Two files may look the same in messages.  So the values of both runs are compared with those under names that tell all
files (`tagOf`), which either process sees as its own names (`seenFrom`).

* `find_of_isAbsolute`: an absolute path means the same everywhere.
* `exists_collect`, `exists_gathered`: what the sources of both runs hold, under other names.
* `exists_made`: what their layers make in any order.
* `below_movedTo`, `loaderFor_movedTo`: the loader of a run does not depend on where it starts in the project.
* `load_movedTo`: how both runs may end.
* `load_movedTo_differs`: a relative root, and a message with the name of a file.
-/

namespace GradleBuild

/-! ### Absolute paths -/

namespace Files

variable {p : Path} (t : Tree) (cwd cwd' : Location)

/-- An absolute path names the same, whatever the current directory is. -/
theorem find_of_isAbsolute (h : p.isAbsolute = true) (followLast : Bool) :
    find t cwd p followLast = find t cwd' p followLast := by
  unfold find walkFrom start
  rw [if_pos h, if_pos h]

theorem stat_of_isAbsolute (h : p.isAbsolute = true) (followLast : Bool) :
    stat t cwd p followLast = stat t cwd' p followLast := by
  unfold stat
  rw [find_of_isAbsolute t cwd cwd' h]

theorem isFile_of_isAbsolute (h : p.isAbsolute = true) : isFile t cwd p = isFile t cwd' p := by
  unfold isFile
  rw [stat_of_isAbsolute t cwd cwd' h]

theorem read_of_isAbsolute (h : p.isAbsolute = true) : read t cwd p = read t cwd' p := by
  unfold read
  rw [stat_of_isAbsolute t cwd cwd' h]

end Files

namespace Config

variable {α β : Type} {i : Inputs} {cwd cwd' : Location} {dir root p found : Path} {t : Tree} {l : Loader}
  {environment : Environment} {s : Source}

theorem locate?_of_isAbsolute (t : Tree) (cwd cwd' : Location) (h : p.isAbsolute = true) :
    Loader.locate? t cwd p = Loader.locate? t cwd' p := by
  unfold Loader.locate?
  rw [Files.isFile_of_isAbsolute t cwd cwd' h]
  cases hsuffix : p.withSuffix? ".toml" with
  | none => rfl
  | some q =>
    simp only [Option.filter, Files.isFile_of_isAbsolute t cwd cwd' (Path.isAbsolute_withSuffix? h hsuffix)]

theorem isAbsolute_locate? (h : p.isAbsolute = true) (hfound : Loader.locate? t cwd p = some found) :
    found.isAbsolute = true := by
  unfold Loader.locate? at hfound
  split at hfound
  · exact Option.some.inj hfound ▸ h
  · exact Path.isAbsolute_withSuffix? h (Option.filter_eq_some_iff.1 hfound).1

/-! ### Names of files -/

/-- A name that tells a file from all others, whatever the current directory is. -/
def tagOf (p : Path) : String := String.ofList (':' :: p.bytes.map fun b => Char.ofNat b.toNat)

/-- The tags of some files as the names that messages give them. -/
def seenFrom (files : List Path) (cwd : Location) : Option String → Option String
  | none => none
  | some s =>
    match files.find? fun p => tagOf p = s with
    | some p => some (Loader.originOf cwd p)
    | none => some s

theorem tagOf_injective {p q : Path} (h : tagOf p = tagOf q) : p = q := by
  have hbyte (b : UInt8) : (Char.ofNat b.toNat).toNat = b.toNat := by
    have hvalid : b.toNat.isValidChar := Or.inl (by have := b.toNat_lt; omega)
    rw [Char.ofNat, dif_pos hvalid]
    rfl
  have hinj : Function.Injective fun b : UInt8 => Char.ofNat b.toNat := fun b c hbc => by
    have hnat := congrArg Char.toNat hbc
    rw [hbyte, hbyte] at hnat
    exact UInt8.toNat_inj.1 hnat
  have hbytes := (List.cons.inj (String.ofList_injective h)).2
  exact congrArg Path.mk (List.map_injective_iff.2 hinj hbytes)

theorem seenFrom_tagOf {files : List Path} (h : p ∈ files) :
    seenFrom files cwd (some (tagOf p)) = some (Loader.originOf cwd p) := by
  obtain ⟨q, hq⟩ : ∃ q, files.find? (fun q => tagOf q = tagOf p) = some q := by
    refine Option.isSome_iff_exists.1 (List.find?_isSome.2 ⟨p, h, ?_⟩)
    simp
  have hsame : q = p := tagOf_injective (by simpa using List.find?_some hq)
  unfold seenFrom
  dsimp only
  rw [hq, hsame]

/-- A name that is no tag is left as it is. -/
theorem seenFrom_of_head {files : List Path} {s : String} (h : s.toList.head? ≠ some ':') :
    seenFrom files cwd (some s) = some s := by
  have hnone : files.find? (fun p => tagOf p = s) = none := by
    refine List.find?_eq_none.2 fun p _ htag => h ?_
    rw [← of_decide_eq_true htag]
    simp [tagOf]
  unfold seenFrom
  dsimp only
  rw [hnone]

/-- A name that depends on the current directory is that of a file. -/
theorem seenFrom_cases (files : List Path) (cwd cwd' : Location) (o : Option String) :
    seenFrom files cwd o = seenFrom files cwd' o ∨ ∃ p ∈ files,
      seenFrom files cwd o = some (Loader.originOf cwd p) ∧ seenFrom files cwd' o = some (Loader.originOf cwd' p) := by
  cases o with
  | none => exact Or.inl rfl
  | some s =>
    unfold seenFrom
    dsimp only
    cases hfind : files.find? fun p => tagOf p = s with
    | none => exact Or.inl rfl
    | some p => exact Or.inr ⟨p, List.mem_of_find?_eq_some hfind, rfl, rfl⟩

/-! ### What sources hold -/

/-- The values of some sources under other names. -/
def relabelAll (f : Option String → Option String) : Except Problem (List Fields) → Except Problem (List Fields)
  | .ok found => .ok (found.map (relabelFields f))
  | .error p => .error (p.relabel f)

/-- The file of a source holds the same wherever the process is, up to how it is named. -/
theorem exists_collect (t : Tree) {files : List Path} {p : Path} (hp : p.isAbsolute = true)
    (hfiles : ∀ found, Loader.locate? t [] p = some found → found ∈ files) (required : Bool) :
    ∃ r, ∀ cwd, Loader.collect t cwd (.file p required) = relabelRead (seenFrom files cwd) r := by
  have hlocate (cwd : Location) : Loader.locate? t cwd p = Loader.locate? t [] p := locate?_of_isAbsolute t cwd [] hp
  have hmissing : ∃ r, ∀ cwd, (if required then .error (.fileNotFound p.display) else .ok [] : Except Problem Fields) =
      relabelRead (seenFrom files cwd) r :=
    ⟨if required then .error (.fileNotFound p.display) else .ok [], fun _ => by cases required <;> rfl⟩
  simp only [Loader.collect, hlocate]
  cases hfound : Loader.locate? t [] p with
  | none => exact hmissing
  | some found =>
    have habsolute := isAbsolute_locate? hp hfound
    simp only [Files.read_of_isAbsolute t _ [] habsolute]
    cases Files.read t [] found with
    | error => exact hmissing
    | ok content =>
      refine ⟨Loader.readToml (some (tagOf found)) (Loader.fileText content), fun cwd => ?_⟩
      rw [← Loader.readToml_relabel, seenFrom_tagOf (hfiles found hfound)]

private theorem exists_mapM {sources : List Source} {files : List Path}
    (h : ∀ s ∈ sources, ∃ r, ∀ cwd, Loader.collect t cwd s = relabelRead (seenFrom files cwd) r) :
    ∃ r, ∀ cwd, sources.mapM (Loader.collect t cwd) = relabelAll (seenFrom files cwd) r := by
  induction sources with
  | nil => exact ⟨.ok [], fun _ => rfl⟩
  | cons s sources ih =>
    obtain ⟨first, hfirst⟩ := h s List.mem_cons_self
    obtain ⟨rest, hrest⟩ := ih fun s hs => h s (List.mem_cons_of_mem _ hs)
    simp only [List.mapM_cons, hfirst, hrest]
    cases first with
    | error p => exact ⟨.error p, fun _ => rfl⟩
    | ok fields =>
      cases rest with
      | error p => exact ⟨.error p, fun _ => rfl⟩
      | ok found => exact ⟨.ok (fields :: found), fun _ => rfl⟩

/-! ### What does not depend on names -/

section Naming

variable {f : Option String → Option String}

private theorem guess_relabel (hf : f (some environmentOrigin) = some environmentOrigin) (key text : String) :
    (guess key text).relabel f = guess key text := by
  unfold guess
  dsimp only
  repeat' split
  all_goals simp only [Value.relabel, relabelItems_eq, List.map_map, Function.comp_def, hf]

private theorem relabel_of_mapM {p : Problem}
    (h : environment.mapM (fun v => ofVariable environmentPrefix v.1 v.2) = .error p) : p.relabel f = p := by
  induction environment with
  | nil => cases h
  | cons v environment ih =>
    rw [List.mapM_cons] at h
    rcases bind_eq_error h with h | ⟨_, -, h⟩
    · unfold ofVariable at h
      dsimp only at h
      split at h
      · cases h
      · split at h
        · obtain rfl := Except.error.inj h
          rfl
        · cases h
    · rcases bind_eq_error h with h | ⟨_, -, h⟩
      · exact ih h
      · cases h

/-- The variables give the same under other names, if the environment keeps its own. -/
theorem ofEnvironment_relabel (hf : f (some environmentOrigin) = some environmentOrigin) (environment : Environment) :
    relabelRead f (ofEnvironment environmentPrefix environment) = ofEnvironment environmentPrefix environment := by
  cases hvalues : ofEnvironment environmentPrefix environment with
  | ok values =>
    obtain rfl := ofEnvironment_ok hvalues
    refine congrArg Except.ok ((relabelFields_eq f _).trans ?_)
    refine (List.map_congr_left fun a ha => ?_).trans (List.map_id _)
    obtain ⟨x, -, hx⟩ := List.mem_filterMap.1 ha
    obtain ⟨key, v⟩ := a
    obtain ⟨text, rfl⟩ := guess_of_assignment? hx
    exact congrArg (Prod.mk key) (guess_relabel hf key text)
  | error p =>
    rcases bind_eq_error hvalues with h | ⟨_, -, h⟩
    · exact congrArg Except.error (relabel_of_mapM h)
    · cases h

/-- The values of the environment behind those of other sources keep their names. -/
private theorem relabelAll_environment (hf : f (some environmentOrigin) = some environmentOrigin)
    (environment : Environment) (r : Except Problem (List Fields)) : (do
      let found ← relabelAll f r
      let values ← ofEnvironment environmentPrefix environment
      return found ++ [values]) = relabelAll f (do
        let found ← r
        let values ← ofEnvironment environmentPrefix environment
        return found ++ [values]) := by
  cases r with
  | error => rfl
  | ok found =>
    have hvalues := ofEnvironment_relabel hf environment
    cases hread : ofEnvironment environmentPrefix environment with
    | error p =>
      rw [hread] at hvalues
      show Except.error p = Except.error (p.relabel f)
      rw [Except.error.inj hvalues]
    | ok values =>
      rw [hread] at hvalues
      show Except.ok (_ ++ [values]) = Except.ok ((found ++ [values]).map _)
      rw [List.map_append, List.map_singleton, Except.ok.inj hvalues]

private theorem overrideValue_relabel (hf : f none = none) (key value : String) :
    (Loader.overrideValue key value).relabel f = Loader.overrideValue key value := by
  unfold Loader.overrideValue
  split
  · have hword (word : String) : (Value.text word).relabel f = .text word := congrArg (Value.scalar · (.text word)) hf
    simp only [Value.relabel, relabelItems_eq, List.map_map, Function.comp_def, hword, hf]
  · simp only [Value.text, Value.relabel, hf]

/-- The overrides have no names. -/
theorem overriding_relabel (hf : f none = none) {overrides : List (Key × Value)} (h : i.overriding.Perm overrides) :
    overrides.map (Prod.map id (Value.relabel f)) = overrides := by
  refine (List.map_congr_left fun a ha => ?_).trans (List.map_id _)
  refine congrArg (Prod.mk a.1) ?_
  rcases mem_overriding (h.mem_iff.2 ha) with ha | rfl
  · obtain ⟨e, -, he⟩ := List.mem_filterMap.1 ha
    obtain ⟨key, value, hvalue⟩ := exists_overrideValue he
    rw [hvalue]
    exact overrideValue_relabel hf key value
  · simp only [Value.text, Value.relabel, hf]

theorem defaults_relabel (hf : f none = none) (i : Inputs) : i.defaults.relabel f = i.defaults := by
  unfold Inputs.defaults
  rw [assignAll_relabel hf]
  simp only [Value.text, Value.relabel, relabelFields, List.map_cons, List.map_nil, Prod.map, hf, id]

/-- What layers make under other names is what they make, under other names. -/
theorem made_relabel (hf : f none = none) {overrides : List (Key × Value)} (h : i.overriding.Perm overrides)
    (maps : List Fields) : i.made ((maps.map (relabelFields f)).map assigned ++ [overrides]) =
      (i.made (maps.map assigned ++ [overrides])).relabel f := by
  unfold Inputs.made
  rw [assignAll_relabel hf, defaults_relabel hf, List.map_flatten, List.map_append, List.map_singleton,
    overriding_relabel hf h, List.map_map, List.map_map]
  simp only [Function.comp_def, assigned_relabel]

private theorem forall₂_shuffled {tagged found maps : List Fields} (hfound : found = tagged.map (relabelFields f))
    (h : List.Forall₂ Shuffled found maps) :
    ∃ maps', List.Forall₂ Shuffled tagged maps' ∧ maps = maps'.map (relabelFields f) := by
  induction h generalizing tagged with
  | nil =>
    obtain rfl := List.map_eq_nil_iff.1 hfound.symm
    exact ⟨[], .nil, rfl⟩
  | cons hfirst _ ih =>
    obtain ⟨fields, rest, rfl, rfl, hrest⟩ := List.map_eq_cons_iff.1 hfound.symm
    obtain ⟨maps', hmaps, rfl⟩ := ih hrest.symm
    rw [relabelFields_eq] at hfirst
    obtain ⟨fields', hfields, rfl⟩ := hfirst.of_map
    exact ⟨fields' :: maps', .cons hfields hmaps, by rw [List.map_cons, relabelFields_eq]⟩

end Naming

/-! ### The loader of a run -/

/-- The same run from another directory, of a process that may be elsewhere too. -/
def Inputs.movedTo (i : Inputs) (cwd : Location) (dir : Path) : Inputs := { i with cwd, dir }

/-- The directory is the nearest one upwards that holds a marker. -/
def Inputs.IsWithin (i : Inputs) (d : Path) : Prop :=
  ∃ nearer farther, i.dir.ancestors = nearer ++ d :: farther ∧ i.Marked d ∧ ∀ q ∈ nearer, ¬ i.Marked q

/-- Within a project the lookup root is that of the project. -/
theorem root_of_within (hnone : i.options.projectRoot = none) (h : i.IsWithin root) : i.root = root := by
  obtain ⟨nearer, farther, hancestors, hmarked, hnearer⟩ := h
  have hfind : discoverRoot i.tree i.cwd i.dir = some root := by
    refine List.find?_eq_some_iff_append.2 ⟨List.any_eq_true.2 hmarked, nearer, farther, hancestors, fun q hq => ?_⟩
    simpa using mt List.any_eq_true.1 (hnearer q hq)
  unfold Inputs.root lookupRoot
  rw [hnone]
  simp only [hfind, Option.getD_some]

theorem isAbsolute_of_within (hdir : i.dir.isAbsolute = true) (h : i.IsWithin root) : root.isAbsolute = true := by
  obtain ⟨nearer, farther, hancestors, -, -⟩ := h
  rw [Path.isAbsolute_of_mem_ancestors (p := i.dir) (by rw [hancestors]; simp), hdir]

/-- A run within a project whose files have absolute paths. -/
structure Inputs.Anchored (i : Inputs) (root : Path) : Prop where
  noOption : i.options.projectRoot = none
  configs : ∀ p ∈ i.options.configs, p.isAbsolute = true
  dir : i.dir.isAbsolute = true
  within : i.IsWithin root

/-- Wherever a run starts in a project, its lower layers are the same. -/
theorem below_movedTo (h : i.Anchored root) (h' : (i.movedTo cwd' dir).Anchored root) :
    (i.movedTo cwd' dir).below = i.below := by
  have hroot : i.root = root := root_of_within h.noOption h.within
  have hroot' : (i.movedTo cwd' dir).root = root := root_of_within h'.noOption h'.within
  have hproject := Path.isAbsolute_join (isAbsolute_of_within h.dir h.within) (.ofText projectFile)
  have hconfigs (dir' : Path) (l : Loader) : i.options.configs.foldl (fun l p => l.addFile (dir'.absoluteFrom p)) l =
      i.options.configs.foldl Loader.addFile l :=
    List.foldl_ext _ _ _ fun l p hp => by rw [Path.absoluteFrom, if_pos (h.configs p hp)]
  unfold Inputs.below
  rw [hroot, hroot']
  simp only [Inputs.movedTo, hconfigs, Loader.addOptionalFile, Files.isFile_of_isAbsolute i.tree cwd' i.cwd hproject]

theorem loaderFor_movedTo (h : i.Anchored root) (h' : (i.movedTo cwd' dir).Anchored root) :
    loaderFor i.tree cwd' i.options dir = loaderFor i.tree i.cwd i.options i.dir := by
  have hthere : loaderFor i.tree cwd' i.options dir = _ := loaderFor_eq (i.movedTo cwd' dir)
  rw [hthere, loaderFor_eq, below_movedTo h h', h.noOption, h'.noOption]
  rfl

/-- The paths that a run looks for files under: that of the project's own file, and those of the command line. -/
def Inputs.filePaths (i : Inputs) : List Path :=
  i.root.join (.ofText projectFile) :: i.options.configs.map i.dir.absoluteFrom

/-- The files that are found there. -/
def Inputs.located (i : Inputs) : List Path := i.filePaths.filterMap (Loader.locate? i.tree i.cwd)

theorem isAbsolute_filePaths (h : i.Anchored root) (hp : p ∈ i.filePaths) : p.isAbsolute = true := by
  rcases List.mem_cons.1 hp with rfl | hp
  · rw [show i.root = root from root_of_within h.noOption h.within]
    exact Path.isAbsolute_join (isAbsolute_of_within h.dir h.within) _
  · obtain ⟨q, -, rfl⟩ := List.mem_map.1 hp
    exact Path.isAbsolute_absoluteFrom h.dir q

/-- The files of a run in a project hold the same wherever the process is, up to how they are named. -/
private theorem exists_sources (h : i.Anchored root) : ∃ r, ∀ cwd,
    (i.projectSource :: i.options.configs.map i.fileSource).mapM (Loader.collect i.tree cwd) =
      relabelAll (seenFrom i.located cwd) r := by
  refine exists_mapM fun s hs => ?_
  obtain ⟨p, required, hp, rfl⟩ : ∃ p required, p ∈ i.filePaths ∧ s = .file p required := by
    rcases List.mem_cons.1 hs with rfl | hs
    · exact ⟨_, _, List.mem_cons_self, rfl⟩
    · obtain ⟨q, hq, rfl⟩ := List.mem_map.1 hs
      exact ⟨_, _, List.mem_cons_of_mem _ (List.mem_map_of_mem hq), rfl⟩
  have habsolute := isAbsolute_filePaths h hp
  refine exists_collect i.tree habsolute (fun found hfound => ?_) required
  rw [locate?_of_isAbsolute i.tree [] i.cwd habsolute] at hfound
  exact List.mem_filterMap.2 ⟨p, hp, hfound⟩

/-- The maps of a run in a project hold the same wherever it starts, up to how files are named. -/
theorem exists_gathered (h : i.Anchored root) (h' : (i.movedTo cwd' dir).Anchored root) : ∃ r,
    i.gathered = relabelAll (seenFrom i.located i.cwd) r ∧
      (i.movedTo cwd' dir).gathered = relabelAll (seenFrom i.located cwd') r := by
  have hsame : (i.movedTo cwd' dir).projectSource :: i.options.configs.map (i.movedTo cwd' dir).fileSource =
      i.projectSource :: i.options.configs.map i.fileSource := by
    have hsources (i : Inputs) : i.below.sources = i.projectSource :: i.options.configs.map i.fileSource := by
      rw [below_eq]
    exact (hsources _).symm.trans ((congrArg Loader.sources (below_movedTo h h')).trans (hsources i))
  obtain ⟨r, hr⟩ := exists_sources h
  have henv (cwd : Location) : seenFrom i.located cwd (some environmentOrigin) = some environmentOrigin :=
    seenFrom_of_head (by decide)
  have hgathered (cwd : Location) := relabelAll_environment (henv cwd) i.environment r
  simp only [← hr] at hgathered
  refine ⟨_, hgathered i.cwd, ?_⟩
  rw [← hgathered cwd', ← hsame]
  rfl

/-- Each order of the maps of one run is an order of those of the other, and what the layers make is the same, up to how
files are named. -/
theorem exists_made (h : i.Anchored root) (h' : (i.movedTo cwd' dir).Anchored root) (hlayers : i.Arranges layers) :
    ∃ (top : Value) (layers' : _), i.made layers = top.relabel (seenFrom i.located i.cwd) ∧
      (i.movedTo cwd' dir).Arranges layers' ∧
      (i.movedTo cwd' dir).made layers' = top.relabel (seenFrom i.located cwd') := by
  obtain ⟨found, maps, overrides, hfound, hmaps, horder, rfl⟩ := hlayers
  obtain ⟨r, hr, hr'⟩ := exists_gathered h h'
  rw [hfound] at hr
  cases r with
  | error => cases hr
  | ok tagged =>
    obtain ⟨maps', hmaps', rfl⟩ := forall₂_shuffled (Except.ok.inj hr) hmaps
    have hoverriding : (i.movedTo cwd' dir).overriding = i.overriding := by
      rw [overriding_of_none h.noOption, overriding_of_none h'.noOption]
      rfl
    have horder' : Shuffled (i.movedTo cwd' dir).overriding overrides := hoverriding ▸ horder
    refine ⟨i.made (maps'.map assigned ++ [overrides]),
      (maps'.map (relabelFields (seenFrom i.located cwd'))).map assigned ++ [overrides],
      made_relabel rfl horder.perm maps', ⟨_, _, overrides, hr', ?_, horder', rfl⟩, ?_⟩
    · refine List.forall₂_map_left_iff.2 (List.forall₂_map_right_iff.2 (hmaps'.imp fun fields fields' hf => ?_))
      rw [relabelFields_eq, relabelFields_eq]
      exact hf.map _
    · have hdefaults : (i.movedTo cwd' dir).defaults = i.defaults := by
        have hroot : (i.movedTo cwd' dir).root = i.root :=
          (root_of_within h'.noOption h'.within).trans (root_of_within h.noOption h.within).symm
        unfold Inputs.defaults
        rw [hroot]
      rw [made_relabel rfl horder'.perm]
      unfold Inputs.made
      rw [hdefaults]

/-! ### How both runs may end -/

/-- Two problems are the same, up to the file that they are about: its name is its path as seen from the directory of
either process. -/
def SameUpToFile (i i' : Inputs) (p p' : Problem) : Prop := p = p' ∨ ∃ path ∈ i.located,
  p.origin = some (Loader.originOf i.cwd path) ∧ p' = p.relabel fun _ => some (Loader.originOf i'.cwd path)

/-- No layer of a run gives a relative root, in whatever order it is gone through. -/
def Inputs.KeepsRoot (i : Inputs) : Prop := ∀ layers, i.Arranges layers →
  ∀ v path, highestRoot i.defaults layers = some v → wantPath v = .ok path → path.isAbsolute = true

/-- However one run may end, the other may end so too, a root being taken from where each of them starts. -/
structure Inputs.Matches (i i' : Inputs) : Prop where
  loads : ∀ loaded, i.MayEnd (.loaded loaded) →
    ∃ c, loaded = ⟨rooted i.dir c, loaded.files⟩ ∧ i'.MayEnd (.loaded ⟨rooted i'.dir c, loaded.files⟩)
  fails : ∀ files p, i.MayEnd (.unreadable files p) → ∃ p', i'.MayEnd (.unreadable files p') ∧ SameUpToFile i i' p p'
  refuses : ∀ e, i.MayEnd (.refused e) → i'.MayEnd (.refused e)
  /-- With an absolute root, or none from any layer, the same is loaded. -/
  same : i.KeepsRoot → ∀ loaded, i.MayEnd (.loaded loaded) → i'.MayEnd (.loaded loaded)
  /-- With the processes in one directory, the same is reported. -/
  here : i.cwd = i'.cwd → ∀ files p, i.MayEnd (.unreadable files p) → i'.MayEnd (.unreadable files p)

/-- A problem that is named from either directory. -/
private theorem sameUpToFile_relabel (i i' : Inputs) (q : Problem) :
    SameUpToFile i i' (q.relabel (seenFrom i.located i.cwd)) (q.relabel (seenFrom i.located i'.cwd)) := by
  rcases seenFrom_cases i.located i.cwd i'.cwd q.origin with h | ⟨path, hpath, h, h'⟩
  · exact Or.inl (Problem.relabel_congr h)
  · refine Or.inr ⟨path, hpath, (Problem.origin_relabel rfl q).trans h, ?_⟩
    rw [Problem.relabel_relabel]
    exact Problem.relabel_congr h'

/-- What is reported in one run may be reported in the other, up to how files are named. -/
private theorem exists_unreadable {files : List Path} {p : Problem} (h : i.Anchored root)
    (h' : (i.movedTo cwd' dir).Anchored root) (he : i.MayEnd (.unreadable files p)) :
    ∃ q : Problem, p = q.relabel (seenFrom i.located i.cwd) ∧
      (i.movedTo cwd' dir).MayEnd (.unreadable files (q.relabel (seenFrom i.located cwd'))) := by
  cases he with
  | sources hread hfound =>
    obtain ⟨r, hr, hr'⟩ := exists_gathered h h'
    rw [hfound] at hr
    cases r with
    | ok => cases hr
    | error q =>
      refine ⟨q, Except.error.inj hr, ?_⟩
      rw [← below_movedTo h h']
      exact .sources hread hr'
  | values hread hlayers hp =>
    obtain ⟨top, layers', hmade, hlayers', hmade'⟩ := exists_made h h' hlayers
    rw [hmade] at hp
    obtain ⟨q, hq, rfl⟩ := (configReports_relabels rfl _ _).1 hp
    refine ⟨.value q, rfl, ?_⟩
    rw [← below_movedTo h h']
    refine .values hread hlayers' ?_
    rw [hmade']
    exact (configReports_relabels rfl _ _).2 ⟨q, hq, rfl⟩

/-- A root that no layer gives as a relative path is decoded as an absolute one. -/
private theorem isAbsolute_projectRoot {layers : List (List (Key × Value))} {c : Config}
    (hroot : i.root.isAbsolute = true) (hkeeps : i.KeepsRoot) (hlayers : i.Arranges layers)
    (hc : ofValue (i.made layers) = .ok c) (hpath : c.paths.projectRoot = some p) : p.isAbsolute = true := by
  have hwant := want_highestRoot hc hpath
  cases hgiven : highestRoot i.defaults layers with
  | none =>
    rw [hgiven] at hwant
    obtain rfl : Path.ofText i.root.display = p := Except.ok.inj hwant
    exact isAbsolute_ofText_display hroot
  | some v =>
    rw [hgiven] at hwant
    exact hkeeps layers hlayers v p hgiven hwant

private theorem rooted_of_isAbsolute {c : Config} (h : ∀ p, c.paths.projectRoot = some p → p.isAbsolute = true)
    (dir : Path) : rooted dir c = c := by
  obtain ⟨globals, paths, gradle⟩ := c
  have hroot : paths.projectRoot.map dir.absoluteFrom = paths.projectRoot := by
    cases hp : paths.projectRoot with
    | none => rfl
    | some p => rw [Option.map_some, Path.absoluteFrom, if_pos (h p hp)]
  unfold rooted
  dsimp only
  rw [hroot]

/-- What is decoded in one run may be decoded in the other. -/
private theorem exists_decoded {layers : List (List (Key × Value))} {c : Config} (h : i.Anchored root)
    (h' : (i.movedTo cwd' dir).Anchored root) (hlayers : i.Arranges layers) (hc : ofValue (i.made layers) = .ok c) :
    ∃ layers', (i.movedTo cwd' dir).Arranges layers' ∧ ofValue ((i.movedTo cwd' dir).made layers') = .ok c := by
  obtain ⟨top, layers', hmade, hlayers', hmade'⟩ := exists_made h h' hlayers
  refine ⟨layers', hlayers', ?_⟩
  rw [hmade, ofValue_blind rfl, renamed, mapError_eq_ok] at hc
  rw [hmade', ofValue_blind rfl, renamed, mapError_eq_ok, hc]

private theorem matches_movedTo (h : i.Anchored root) (h' : (i.movedTo cwd' dir).Anchored root) :
    i.Matches (i.movedTo cwd' dir) where
  loads loaded he := by
    cases he with
    | loaded hlayers hl =>
      obtain ⟨hread, c, hc, hvalid, rfl⟩ := hl
      obtain ⟨layers', hlayers', hc'⟩ := exists_decoded h h' hlayers hc
      exact ⟨c, rfl, .loaded hlayers' ⟨hread, c, hc', hvalid, by rw [below_movedTo h h']⟩⟩
  fails files p he := by
    obtain ⟨q, rfl, he'⟩ := exists_unreadable h h' he
    exact ⟨_, he', sameUpToFile_relabel i _ q⟩
  refuses e he := by
    cases he with
    | overrides hl => exact .overrides ((loaderFor_movedTo h h').trans hl)
    | invalid hread hlayers hc hvalid =>
      obtain ⟨layers', hlayers', hc'⟩ := exists_decoded h h' hlayers hc
      exact .invalid hread hlayers' hc' hvalid
  same hkeeps loaded he := by
    cases he with
    | loaded hlayers hl =>
      obtain ⟨hread, c, hc, hvalid, rfl⟩ := hl
      obtain ⟨layers', hlayers', hc'⟩ := exists_decoded h h' hlayers hc
      have habsolute : i.root.isAbsolute = true := by
        rw [show i.root = root from root_of_within h.noOption h.within]
        exact isAbsolute_of_within h.dir h.within
      have hrooted := rooted_of_isAbsolute fun p hp => isAbsolute_projectRoot habsolute hkeeps hlayers hc hp
      refine .loaded hlayers' ⟨hread, c, hc', hvalid, ?_⟩
      rw [hrooted, hrooted, below_movedTo h h']
  here hcwd files p he := by
    obtain ⟨q, rfl, he'⟩ := exists_unreadable h h' he
    exact hcwd ▸ he'

/-- Two runs in the same project, both without an option for the root and with absolute paths for their files, may end
in the same ways: whatever the orders of the maps make of one of them, they may make of the other. -/
theorem load_movedTo (i : Inputs) (cwd' : Location) (dir root : Path) (h : i.Anchored root)
    (h' : (i.movedTo cwd' dir).Anchored root) :
    i.Matches (i.movedTo cwd' dir) ∧ (i.movedTo cwd' dir).Matches i :=
  ⟨matches_movedTo h h', matches_movedTo (i := i.movedTo cwd' dir) h' h⟩

/-- A run from the top of a project, which has a directory in it and a file of its own. -/
def Inputs.atTop (content : String) : Inputs where
  tree := .ofEntries [([encode "p"], .directory), ([encode "p", encode "gradlew"], .file [] true),
    ([encode "p", encode "scp-build.toml"], .file (encode content) false), ([encode "p", encode "sub"], .directory)]
  cwd := [encode "p"]
  environment := []
  options := {}
  dir := .ofText "/p"

/-- The same run from the directory in the project. -/
def Inputs.inSub (content : String) : Inputs :=
  (Inputs.atTop content).movedTo [encode "p", encode "sub"] (.ofText "/p/sub")

/-- Which directories are marked on the way up. -/
def MarkedAtTop (content : String) : Prop := (Inputs.atTop content).Marked (.ofText "/p") ∧
  (Inputs.inSub content).Marked (.ofText "/p") ∧ ¬ (Inputs.inSub content).Marked (.ofText "/p/sub")

instance (content : String) : Decidable (MarkedAtTop content) := by unfold MarkedAtTop Inputs.Marked; infer_instance

theorem anchored_atTop {content : String} (h : MarkedAtTop content) :
    (Inputs.atTop content).Anchored (.ofText "/p") ∧ (Inputs.inSub content).Anchored (.ofText "/p") := by
  have hnone (p : Path) (hp : p ∈ ([] : List Path)) : p.isAbsolute = true := nomatch hp
  have htop : (Path.ofText "/p").ancestors = [] ++ Path.ofText "/p" :: [.ofText "/"] := by decide
  have hsub : (Path.ofText "/p/sub").ancestors = [.ofText "/p/sub"] ++ Path.ofText "/p" :: [.ofText "/"] := by decide
  have habsolute : (Path.ofText "/p").isAbsolute = true ∧ (Path.ofText "/p/sub").isAbsolute = true := by decide
  refine ⟨⟨rfl, hnone, habsolute.1, ⟨_, _, htop, h.1, by simp⟩⟩, ⟨rfl, hnone, habsolute.2, ⟨_, _, hsub, h.2.1, ?_⟩⟩⟩
  rintro q hq
  exact List.mem_singleton.1 hq ▸ h.2.2

/-- No layer of a run assigns anything to the section of the directories. -/
def Inputs.SparesPaths (i : Inputs) : Prop :=
  ∀ layer ∈ i.lowerLayers ++ [i.overriding], ∀ a ∈ layer, a.1.name ≠ "paths"

instance (i : Inputs) : Decidable i.SparesPaths := inferInstanceAs (Decidable (∀ layer ∈ _, _))

theorem keepsRoot_of_sparesPaths (h : i.SparesPaths) : i.KeepsRoot := by
  intro layers hlayers v path hv
  rw [highestRoot_eq_none] at hv
  · cases hv
  · intro layer hl a ha
    obtain ⟨layer', hl', ha'⟩ := hlayers.exists_mem hl ha
    exact h layer' hl' a ha'

theorem load_movedTo_plain : (Inputs.atTop "global.dry=true").Anchored (.ofText "/p") ∧
    (Inputs.inSub "global.dry=true").Anchored (.ofText "/p") ∧ (Inputs.atTop "global.dry=true").KeepsRoot ∧
    ∃ loaded, (Inputs.atTop "global.dry=true").load = .ok loaded ∧ loaded.config.globals.dry = true ∧
      (Inputs.atTop "global.dry=true").MayEnd (.loaded loaded) ∧
      (Inputs.inSub "global.dry=true").MayEnd (.loaded loaded) := by
  obtain ⟨htop, hsub⟩ := anchored_atTop (show MarkedAtTop "global.dry=true" by decide +kernel)
  have hkeeps : (Inputs.atTop "global.dry=true").KeepsRoot := keepsRoot_of_sparesPaths (by decide +kernel)
  have hload : (Inputs.atTop "global.dry=true").load = .ok
      ⟨{ globals := { dry := true }, paths := { projectRoot := some (.ofText "/p") } },
        [.ofText "/p/scp-build.toml"]⟩ := by decide +kernel
  obtain ⟨layers, hlayers, hl⟩ := Inputs.loadsBy_of_load hload
  obtain ⟨hmatches, -⟩ :=
    load_movedTo (.atTop "global.dry=true") [encode "p", encode "sub"] (.ofText "/p/sub") _ htop hsub
  exact ⟨htop, hsub, hkeeps, _, hload, rfl, .loaded hlayers hl, hmatches.same hkeeps _ (.loaded hlayers hl)⟩

/-- What is loaded with a root, and the project's own file. -/
def loadedWith (root : String) : LoadedConfig :=
  ⟨{ paths := { projectRoot := some (.ofText root) } }, [.ofText "/p/scp-build.toml"]⟩

/-- A relative root in the file of a project is taken from where each run starts, and a message about that file names
it as it is seen from there. -/
theorem load_movedTo_differs :
    (Inputs.atTop "paths.project_root='out'").Anchored (.ofText "/p") ∧
    (Inputs.inSub "paths.project_root='out'").Anchored (.ofText "/p") ∧
    (Inputs.atTop "paths.project_root='out'").load = .ok (loadedWith "/p/out") ∧
    (Inputs.inSub "paths.project_root='out'").load = .ok (loadedWith "/p/sub/out") ∧
    loadedWith "/p/out" ≠ loadedWith "/p/sub/out" ∧
    (Inputs.atTop "global.dry='perhaps'").Anchored (.ofText "/p") ∧
    (Inputs.inSub "global.dry='perhaps'").Anchored (.ofText "/p") ∧
    (Inputs.atTop "global.dry='perhaps'").load = .error (.unreadableConfig "/p/scp-build.toml"
      "invalid type: string \"perhaps\", expected a boolean for key `global.dry` in scp-build.toml") ∧
    (Inputs.inSub "global.dry='perhaps'").load = .error (.unreadableConfig "/p/scp-build.toml"
      "invalid type: string \"perhaps\", expected a boolean for key `global.dry` in ../scp-build.toml") := by
  obtain ⟨htop, hsub⟩ := anchored_atTop (show MarkedAtTop "paths.project_root='out'" by decide +kernel)
  obtain ⟨htop', hsub'⟩ := anchored_atTop (show MarkedAtTop "global.dry='perhaps'" by decide +kernel)
  exact ⟨htop, hsub, by decide +kernel, by decide +kernel, by decide, htop', hsub', by decide +kernel,
    by decide +kernel⟩

end Config

end GradleBuild
