import GradleBuild.Proofs.Flags
import GradleBuild.Proofs.Orders
import GradleBuild.Proofs.Segments

/-!
# The two roots

The lookup root says where the project's own file is; which directory is built is up to all layers.  The highest layer
that gives the root of the project decides, and the lookup root is there for the case that none does.

A layer can give the root in several ways: under its key, in a table or a list for the whole section, or under an index
into the section (`givesRoot`).  Whether an index that counts from the end leads to the root depends on what is below.

* `rootOf_set`: one assignment gives the root, or leaves it, or leaves none that could be decoded.
* `rootOf_layers`: the root after all layers is that of the highest one that gives it, whatever order each is in.
* `root_nearest`: the lookup root is the nearest directory with a marker.
* `load_root`: both roots of a run.
* `load_root_differs`: roots that are not those that were asked for.
-/

namespace GradleBuild.Config

open Key (fieldsOrNone itemsOrNone position changeField changeItem changeAt overlay overlayFields)

variable {i : Inputs} {loaded : LoadedConfig} {c : Config} {top paths old v x : Value} {a : Key × Value}
  {pairs : List (Key × Value)} {layers : List (List (Key × Value))} {fields fs : Fields} {o : Option String}
  {given : Option Value} {steps : List KeyStep} {name : String} {n : Int} {k : Nat} {root q : Path}

/-! ### The root in its section -/

/-- The value for the root in its section, which is a table, or a list that begins with the root. -/
def rootIn : Value → Option Value
  | .table _ fields => fields.lookup "project_root"
  | .list _ items => items.head?
  | .scalar .. => none

def rootOf (top : Value) : Option Value := (top.child? "paths").bind rootIn

/-- The value that is given for the root where a value is put into a section. -/
def givesIn (old : Value) : List KeyStep → Value → Option Value
  | [], .table _ fields => fields.reverse.lookup "project_root"
  | [], .list _ items => items.head?
  | [.child name], v => if name = "project_root" then some v else none
  | [.index n], v => if (position n (itemsOrNone old).2.length).1 = 0 then some v else none
  | _, _ => none

/-- The value that an assignment gives for the root, if it gives one. -/
def givesRoot (below : Value) (a : Key × Value) : Option Value :=
  if a.1.name = "paths" then givesIn ((below.child? "paths").getD .null) a.1.steps a.2 else none

/-- The last value for the root that some assignments give. -/
def lastRoot : Value → List (Key × Value) → Option Value
  | _, [] => none
  | below, a :: rest => (lastRoot (a.1.set a.2 below) rest).or (givesRoot below a)

/-- What the highest of some layers that gives the root gives for it; the lowest layer comes first. -/
def highestRoot : Value → List (List (Key × Value)) → Option Value
  | _, [] => none
  | below, layer :: higher => (highestRoot (Loader.assignAll layer below) higher).or (lastRoot below layer)

/-- The value can be taken for a path. -/
def Usable (given : Option Value) : Prop := ∃ o s, given = some (.scalar o s) ∧ s ≠ .null

private theorem not_usable_none : ¬ Usable none := by
  rintro ⟨_, _, ⟨⟩, -⟩

private theorem Usable.of_want (h : wantOption wantPath x = .ok (some root)) :
    Usable (some x) ∧ wantPath x = .ok root := by
  cases x with
  | scalar o s =>
    cases s with
    | null => cases h
    | text | bool | integer | float =>
      obtain ⟨path, hpath, hsome⟩ := bind_eq_ok h
      obtain rfl := Option.some.inj (Except.ok.inj hsome)
      exact ⟨⟨o, _, rfl, by simp⟩, hpath⟩
  | list | table => simp [wantOption, wantPath, wantText, fail, bind, Except.bind] at h

/-- A value over another one is the first itself, if it can be taken for a path. -/
private theorem overlay_usable (h : Usable (some (overlay v old))) : overlay v old = v := by
  obtain ⟨o, s, hscalar, -⟩ := h
  cases v with
  | scalar => rw [overlay]
  | list => rw [overlay]
  | table o fields =>
    obtain ⟨o', fs, htable, -⟩ := overlayFields_table fields (fieldsOrNone old).1 (fieldsOrNone old).2
    rw [overlay, htable] at hscalar
    cases hscalar

/-- What is decoded for the root. -/
private theorem ofValue_rootOf (h : ofValue (.table o fields) = .ok c) :
    Taken (wantOption wantPath) none (rootOf (.table o fields)) c.paths.projectRoot := by
  obtain ⟨-, -, hpaths, -⟩ := ofValue_eq_ok.1 h
  have hof : rootOf (.table o fields) = (fields.lookup "paths").bind rootIn := rfl
  rw [hof]
  cases hlookup : fields.lookup "paths" with
  | none =>
    rw [hlookup] at hpaths
    replace hpaths : c.paths = {} := hpaths
    rw [hpaths]
    rfl
  | some paths =>
    have hwant := hpaths.of_some hlookup
    cases paths with
    | table o fs => exact wantPaths_ok hwant .projectRoot
    | scalar => simp [wantPaths, sectionFields, fail, bind, Except.bind] at hwant
    | list o items =>
      obtain ⟨fields, hfields, hwant⟩ := bind_eq_ok hwant
      obtain ⟨root, hroot, hwant⟩ := bind_eq_ok hwant
      -- the seven other directories
      iterate 7 obtain ⟨_, -, hwant⟩ := bind_eq_ok hwant
      rw [← Except.ok.inj hwant]
      obtain rfl := Except.ok.inj hfields
      -- the first field of a section that is a list is the root
      cases items with
      | nil => exact (Except.ok.inj hroot).symm
      | cons v items => exact mapError_eq_ok.1 hroot

/-! ### One assignment -/

private theorem rootIn_eq_child? {o : Option String} {fields : Fields} :
    rootIn (.table o fields) = (Value.table o fields).child? "project_root" := rfl

/-- The last field for the root in a table over a section gives the root. -/
private theorem child?_overlayFields (h : Usable ((overlayFields fields paths).child? "project_root")) :
    (overlayFields fields paths).child? "project_root" =
      (fields.reverse.lookup "project_root").or (paths.child? "project_root") := by
  induction fields generalizing paths with
  | nil => rfl
  | cons f fields ih =>
    obtain ⟨name, new⟩ := f
    rw [overlayFields] at h ⊢
    have hrest := ih h
    rw [hrest] at h ⊢
    rw [List.reverse_cons, List.lookup_append, Option.or_assoc]
    cases hlast : fields.reverse.lookup "project_root" with
    | some v => rfl
    | none =>
      rw [hlast, Option.none_or] at h
      rw [Option.none_or, Option.none_or]
      by_cases hn : name = "project_root"
      · subst hn
        rw [child?_changeField_self] at h ⊢
        rw [List.lookup_cons_self, overlay_usable h, Option.some_or]
      · have hne : ("project_root" == name) = false := by simpa using Ne.symm hn
        rw [child?_changeField_of_ne (Ne.symm hn), List.lookup_cons, hne]
        rfl

/-- A change to a table is one of its fields or none. -/
private theorem rootIn_changeField {change : Value → Value} (h : Usable (rootIn (changeField change name old))) :
    rootIn (changeField change name old) =
      if name = "project_root" then some (change ((old.child? "project_root").getD .null)) else rootIn old := by
  have hin : rootIn (changeField change name old) = (changeField change name old).child? "project_root" := rfl
  rw [hin] at h ⊢
  split
  · rename_i hn
    rw [hn, child?_changeField_self]
  · rename_i hn
    rw [child?_changeField_of_ne (Ne.symm hn)] at h ⊢
    cases old with
    | table => rfl
    | scalar | list => exact absurd h not_usable_none

/-- Nulls come in front of a list only if the index then leads to the first of them. -/
private theorem position_front (h : (position n k).1 ≠ 0) : (position n k).2 = 0 := by
  unfold position at h ⊢
  split
  · rfl
  · split
    · rfl
    · rename_i hn hk
      simp [hn, hk] at h

/-- An index leads to the root if it leads to the first item. -/
private theorem rootIn_changeItem {change : Value → Value} (h : Usable (rootIn (changeItem change n old))) :
    if (position n (itemsOrNone old).2.length).1 = 0 then ∃ x, rootIn (changeItem change n old) = some (change x)
    else rootIn (changeItem change n old) = rootIn old := by
  have hfront := position_front (n := n) (k := (itemsOrNone old).2.length)
  unfold changeItem at h ⊢
  dsimp only at h ⊢
  generalize position n (itemsOrNone old).2.length = at? at hfront h ⊢
  obtain ⟨index, before⟩ := at?
  simp only [rootIn] at h ⊢
  split
  · rename_i hi
    obtain rfl : index = 0 := hi
    cases hitems : List.replicate before Value.null ++ (itemsOrNone old).2 with
    | nil => exact ⟨.null, rfl⟩
    | cons x rest => exact ⟨x, rfl⟩
  · rename_i hi
    obtain rfl : before = 0 := hfront hi
    obtain ⟨j, rfl⟩ := Nat.exists_eq_succ_of_ne_zero hi
    simp only [List.replicate_zero, List.nil_append] at h ⊢
    cases hitems : (itemsOrNone old).2 with
    | nil =>
      -- the first item would be a null
      rw [hitems] at h
      obtain ⟨o, s, hnull, hs⟩ := h
      simp [List.replicate_succ, Value.null] at hnull
      exact absurd hnull.2.symm hs
    | cons y ys =>
      cases old with
      | list o items =>
        obtain rfl : items = y :: ys := hitems
        rfl
      | scalar | table => cases hitems

/-- Further steps lead into a table or a list. -/
private theorem not_usable_changeAt {change : Value → Value} {step : KeyStep} :
    ¬ Usable (some (changeAt change (step :: steps) old)) := by
  rintro ⟨o, s, h, -⟩
  cases step <;> cases h

private theorem rootIn_overlay (h : Usable (rootIn (overlay v old))) :
    rootIn (overlay v old) = (givesIn old [] v).or (rootIn old) := by
  cases v with
  | scalar o s =>
    rw [overlay] at h
    exact absurd h not_usable_none
  | list o items =>
    rw [overlay] at h ⊢
    obtain ⟨o', s, hhead, -⟩ := h
    replace hhead : items.head? = some (.scalar o' s) := hhead
    show items.head? = items.head?.or (rootIn old)
    rw [hhead, Option.some_or]
  | table o fields =>
    obtain ⟨o', fs, htable, -⟩ := overlayFields_table fields (fieldsOrNone old).1 (fieldsOrNone old).2
    rw [overlay, htable, rootIn_eq_child?, ← htable] at h ⊢
    have hgives := child?_overlayFields h
    rw [hgives] at h ⊢
    show _ = (fields.reverse.lookup "project_root").or (rootIn old)
    cases old with
    | table => rfl
    | scalar | list =>
      -- a section that was no table loses its root, unless it is given anew
      cases hlast : fields.reverse.lookup "project_root" with
      | some v => rfl
      | none =>
        rw [hlast] at h
        exact absurd h not_usable_none

/-- What is put into a section gives the root, or leaves the one that was there, or leaves none that can be taken for a
path. -/
private theorem rootIn_changeAt (h : Usable (rootIn (changeAt (overlay v) steps old))) :
    rootIn (changeAt (overlay v) steps old) = (givesIn old steps v).or (rootIn old) := by
  match steps with
  | [] => exact rootIn_overlay h
  | .child name :: rest =>
    have hchange := rootIn_changeField h
    rw [changeAt] at h ⊢
    rw [hchange] at h ⊢
    by_cases hn : name = "project_root"
    · rw [if_pos hn] at h ⊢
      cases rest with
      | nil =>
        rw [changeAt] at h ⊢
        rw [overlay_usable h, givesIn, if_pos hn, Option.some_or]
      | cons => exact absurd h not_usable_changeAt
    · rw [if_neg hn]
      cases rest with
      | nil => rw [givesIn, if_neg hn, Option.none_or]
      | cons => rfl
  | .index n :: rest =>
    have hchange := rootIn_changeItem h
    rw [changeAt] at h ⊢
    by_cases hn : (position n (itemsOrNone old).2.length).1 = 0
    · rw [if_pos hn] at hchange
      obtain ⟨x, hx⟩ := hchange
      rw [hx] at h ⊢
      cases rest with
      | nil =>
        rw [changeAt] at h ⊢
        rw [overlay_usable h, givesIn, if_pos hn, Option.some_or]
      | cons => exact absurd h not_usable_changeAt
    · rw [if_neg hn] at hchange
      rw [hchange]
      cases rest with
      | nil => rw [givesIn, if_neg hn, Option.none_or]
      | cons => rfl

private theorem rootOf_eq_rootIn (top : Value) : rootOf top = rootIn ((top.child? "paths").getD .null) := by
  unfold rootOf
  cases top.child? "paths" <;> rfl

/-- An assignment gives the root, or leaves the one that was there, or leaves none that can be taken for a path. -/
theorem rootOf_set (h : Usable (rootOf (a.1.set a.2 top))) :
    rootOf (a.1.set a.2 top) = (givesRoot top a).or (rootOf top) := by
  obtain ⟨⟨title, steps⟩, v⟩ := a
  have hset : (Key.mk title steps).set v top = changeField (changeAt (overlay v) steps) title top := rfl
  dsimp only at h ⊢
  rw [hset] at h ⊢
  unfold givesRoot
  by_cases ht : title = "paths"
  · subst ht
    rw [rootOf_eq_rootIn, child?_changeField_self, Option.getD_some] at h ⊢
    rw [if_pos rfl, rootOf_eq_rootIn top]
    exact rootIn_changeAt h
  · rw [if_neg ht]
    unfold rootOf
    rw [child?_changeField_of_ne (Ne.symm ht)]
    rfl

/-! ### All layers -/

/-- The last assignment that gives the root decides. -/
theorem rootOf_assignAll (h : Usable (rootOf (Loader.assignAll pairs top))) :
    rootOf (Loader.assignAll pairs top) = (lastRoot top pairs).or (rootOf top) := by
  induction pairs generalizing top with
  | nil => rfl
  | cons a pairs ih =>
    have hrest : rootOf (Loader.assignAll (a :: pairs) top) =
        (lastRoot (a.1.set a.2 top) pairs).or (rootOf (a.1.set a.2 top)) := ih h
    rw [hrest] at h ⊢
    rw [lastRoot]
    cases hlast : lastRoot (a.1.set a.2 top) pairs with
    | some v => rfl
    | none =>
      rw [hlast, Option.none_or] at h
      rw [Option.none_or, Option.none_or]
      exact rootOf_set h

/-- The highest layer that gives the root decides. -/
theorem rootOf_layers (h : Usable (rootOf (Loader.assignAll layers.flatten top))) :
    rootOf (Loader.assignAll layers.flatten top) = (highestRoot top layers).or (rootOf top) := by
  induction layers generalizing top with
  | nil => rfl
  | cons layer layers ih =>
    rw [List.flatten_cons, assignAll_append] at h ⊢
    have hrest := ih h
    rw [hrest] at h ⊢
    rw [highestRoot]
    cases hhigher : highestRoot (Loader.assignAll layer top) layers with
    | some v => rfl
    | none =>
      rw [hhigher, Option.none_or] at h
      rw [Option.none_or, Option.none_or]
      exact rootOf_assignAll h

private theorem exists_table_assignAll (pairs : List (Key × Value)) (h : ∃ o fields, top = .table o fields) :
    ∃ o fields, Loader.assignAll pairs top = .table o fields := by
  induction pairs generalizing top with
  | nil => exact h
  | cons a pairs ih => exact ih ⟨_, _, rfl⟩

/-- The root that is decoded is what the layers give, or the lookup root. -/
theorem want_highestRoot (hc : ofValue (i.made layers) = .ok c) (hroot : c.paths.projectRoot = some root) :
    wantPath ((highestRoot i.defaults layers).getD (.text i.root.display)) = .ok root := by
  obtain ⟨o, fields, htable⟩ : ∃ o fields, i.made layers = .table o fields :=
    exists_table_assignAll _ ⟨_, _, rfl⟩
  have htaken : Taken (wantOption wantPath) none (rootOf (i.made layers)) (some root) := by
    rw [htable] at hc ⊢
    exact hroot ▸ ofValue_rootOf hc
  obtain ⟨x, hx⟩ : ∃ x, rootOf (i.made layers) = some x := by
    cases hof : rootOf (i.made layers) with
    | some x => exact ⟨x, rfl⟩
    | none =>
      rw [hof] at htaken
      cases htaken
  obtain ⟨husable, hpath⟩ := Usable.of_want (htaken.of_some hx)
  rw [← hx] at husable
  have hdefault : rootOf i.defaults = some (.text i.root.display) := rfl
  have hfound : rootOf (i.made layers) = (highestRoot i.defaults layers).or (rootOf i.defaults) :=
    rootOf_layers husable
  rw [hx, hdefault] at hfound
  have hvalue : (highestRoot i.defaults layers).getD (.text i.root.display) = x := by
    cases hhighest : highestRoot i.defaults layers with
    | some v =>
      rw [hhighest] at hfound
      exact (Option.some.inj hfound).symm
    | none =>
      rw [hhighest] at hfound
      exact (Option.some.inj hfound).symm
  rw [hvalue, hpath]

/-- Assignments that are not for the section of the directories give no root. -/
theorem highestRoot_eq_none {below : Value} (h : ∀ layer ∈ layers, ∀ a ∈ layer, a.1.name ≠ "paths") :
    highestRoot below layers = none := by
  have hlast : (pairs : List (Key × Value)) → (∀ a ∈ pairs, a.1.name ≠ "paths") → (below : Value) →
      lastRoot below pairs = none := by
    intro pairs hpairs
    induction pairs with
    | nil => exact fun _ => rfl
    | cons a pairs ih =>
      intro below
      rw [lastRoot, ih (fun a ha => hpairs a (List.mem_cons_of_mem _ ha)), givesRoot,
        if_neg (hpairs a List.mem_cons_self)]
      rfl
  induction layers generalizing below with
  | nil => rfl
  | cons layer layers ih =>
    rw [highestRoot, ih fun layer hl => h layer (List.mem_cons_of_mem _ hl), hlast layer (h layer List.mem_cons_self)]
    rfl

/-! ### The lookup root -/

/-- The directory holds a file that marks the root of a project. -/
def Inputs.Marked (i : Inputs) (d : Path) : Prop :=
  ∃ marker ∈ rootMarkers, Files.isFile i.tree i.cwd (d.join (.ofText marker)) = true

/-- The nearest directory upwards that is marked, or the one that the run starts from if none is. -/
def Inputs.IsNearest (i : Inputs) (d : Path) : Prop :=
  (∃ nearer farther, i.dir.ancestors = nearer ++ d :: farther ∧ i.Marked d ∧ ∀ q ∈ nearer, ¬ i.Marked q) ∨
    d = i.dir ∧ ∀ q ∈ i.dir.ancestors, ¬ i.Marked q

theorem root_of_option {p : Path} (h : i.options.projectRoot = some p) : i.root = i.dir.absoluteFrom p := by
  unfold Inputs.root lookupRoot
  rw [h]

/-- Without the option the lookup root is the nearest directory with a marker. -/
theorem root_nearest (h : i.options.projectRoot = none) : i.IsNearest i.root := by
  have hroot : i.root = (discoverRoot i.tree i.cwd i.dir).getD i.dir := by
    unfold Inputs.root lookupRoot
    rw [h]
  have hmarked (d : Path) :
      (rootMarkers.any fun m => Files.isFile i.tree i.cwd (d.join (.ofText m))) = true ↔ i.Marked d := List.any_eq_true
  rw [hroot]
  unfold discoverRoot
  cases hfind : i.dir.ancestors.find? fun d =>
      rootMarkers.any fun m => Files.isFile i.tree i.cwd (d.join (.ofText m)) with
  | some d =>
    obtain ⟨hd, nearer, farther, hancestors, hnearer⟩ := List.find?_eq_some_iff_append.1 hfind
    refine Or.inl ⟨nearer, farther, hancestors, (hmarked d).1 hd, fun q hq hm => ?_⟩
    simpa [(hmarked q).2 hm] using hnearer q hq
  | none =>
    refine Or.inr ⟨rfl, fun q hq hm => ?_⟩
    exact List.find?_eq_none.1 hfind q hq ((hmarked q).2 hm)

/-- The nearest directory has a path that is a text, if the one that the run starts from has. -/
private theorem text_of_nearest (htext : ∃ text, i.dir = .ofText text) (h : i.IsNearest root) :
    ∃ text, root = .ofText text := by
  rcases h with ⟨nearer, farther, hancestors, -, -⟩ | ⟨rfl, -⟩
  · obtain ⟨text, hdir⟩ := htext
    have hmem : root ∈ (Path.ofText text).ancestors := by
      rw [← hdir, hancestors]
      simp
    exact Path.text_of_mem_ancestors hmem
  · exact htext

private theorem isAbsolute_nearest (hdir : i.dir.isAbsolute = true) (h : i.IsNearest root) :
    root.isAbsolute = true := by
  rcases h with ⟨nearer, farther, hancestors, -, -⟩ | ⟨rfl, -⟩
  · rw [Path.isAbsolute_of_mem_ancestors (p := i.dir) (by rw [hancestors]; simp), hdir]
  · exact hdir

/-! ### Both roots -/

/-- The files that are reported, the project's own one only if it is there. -/
theorem files_below (i : Inputs) : i.below.files =
    (if Files.isFile i.tree i.cwd (i.root.join (.ofText projectFile)) then [i.root.join (.ofText projectFile)] else [])
      ++ i.options.configs.map i.dir.absoluteFrom := by
  have hadd (l : Loader) (configs : List Path) : (configs.foldl (fun l p => l.addFile (i.dir.absoluteFrom p)) l).files =
      l.files ++ configs.map i.dir.absoluteFrom := by
    induction configs generalizing l with
    | nil => simp
    | cons p configs ih =>
      rw [List.foldl_cons, ih]
      simp [Loader.addFile]
  unfold Inputs.below Loader.withEnvironment
  rw [hadd]
  rfl

/-- The root of the project that is loaded by way of some layers, and the lookup root that it may go back to. -/
structure Inputs.Roots (i : Inputs) (layers : List (List (Key × Value))) (root : Path) : Prop where
  absolute : root.isAbsolute = true
  /-- The highest layer that gives the root decides, and if none does, the lookup root is taken. -/
  configured : ∃ path, wantPath ((highestRoot i.defaults layers).getD (.text i.root.display)) = .ok path ∧
    root = i.dir.absoluteFrom path
  /-- The option is in force unless an override leads to the section as a whole. -/
  option : ∀ p, i.options.projectRoot = some p →
    (∀ a ∈ i.options.settings.filterMap override?, atSection "paths" a.1 = false) →
      root = .ofText (i.dir.absoluteFrom p).display
  fallback : i.options.projectRoot = none → highestRoot i.defaults layers = none → root = i.root
  lookup : ∀ p, i.options.projectRoot = some p → i.root = i.dir.absoluteFrom p
  nearest : i.options.projectRoot = none → i.IsNearest i.root

/-- A configuration that is loaded with a root has the one that the highest layer gives, made absolute, in whatever
order the maps of the layers are gone through.  If no layer gives one, it is the lookup root: that of the option, or
else the nearest directory with a marker, or else the directory that the run starts from.  There the project's own file
is looked for, whatever the layers say. -/
theorem load_root (i : Inputs) (layers : List (List (Key × Value))) (loaded : LoadedConfig) (root : Path)
    (hdir : i.dir.isAbsolute = true) (htext : ∃ text, i.dir = .ofText text) (hlayers : i.Arranges layers)
    (h : i.LoadsBy layers loaded) (hroot : loaded.config.paths.projectRoot = some root) :
    i.Roots layers root ∧
      (∃ l, loaderFor i.tree i.cwd i.options i.dir = .ok l ∧
        l.sources = .file (i.root.join (.ofText projectFile)) false :: i.options.configs.map i.fileSource) ∧
      loaded.files = (if Files.isFile i.tree i.cwd (i.root.join (.ofText projectFile)) then
        [i.root.join (.ofText projectFile)] else []) ++ i.options.configs.map i.dir.absoluteFrom := by
  obtain ⟨hread, c, hvalue, -, rfl⟩ := h
  obtain ⟨path, hpath, rfl⟩ := Option.map_eq_some_iff.1 hroot
  have hwant := want_highestRoot hvalue hpath
  have hoption : ∀ p, i.options.projectRoot = some p →
      (∀ a ∈ i.options.settings.filterMap override?, atSection "paths" a.1 = false) →
      i.dir.absoluteFrom path = .ofText (i.dir.absoluteFrom p).display := by
    intro p hp hi
    obtain ⟨found, maps, overrides, -, -, horder, rfl⟩ := hlayers
    unfold Inputs.made at hvalue
    rw [List.flatten_append, List.flatten_singleton, assignAll_append] at hvalue
    have hinForce := projectRoot_of_option hdir horder.perm hi hvalue hp
    rw [hroot] at hinForce
    exact Option.some.inj hinForce
  have hfallback : i.options.projectRoot = none → highestRoot i.defaults layers = none →
      i.dir.absoluteFrom path = i.root := by
    intro hnone hgiven
    have hnearest := root_nearest hnone
    -- the lookup root goes through its text unchanged
    obtain ⟨text, hlookup⟩ := text_of_nearest htext hnearest
    have habsolute := isAbsolute_nearest hdir hnearest
    rw [hgiven] at hwant
    obtain rfl : Path.ofText i.root.display = path := Except.ok.inj hwant
    rw [hlookup, Path.display_ofText, ← hlookup, Path.absoluteFrom, if_pos habsolute]
  have hroots : i.Roots layers (i.dir.absoluteFrom path) :=
    { absolute := Path.isAbsolute_absoluteFrom hdir path
      configured := ⟨path, hwant, rfl⟩
      option := hoption
      fallback := hfallback
      lookup := fun p hp => root_of_option hp
      nearest := root_nearest }
  refine ⟨hroots, ⟨_, loaderFor_eq_ok.2 ⟨hread, rfl⟩, ?_⟩, files_below i⟩
  rw [below_eq]
  rfl

/-- A directory in a project, both of which have a file of their own. -/
def Inputs.nested : Inputs where
  tree := .ofEntries [([encode "p"], .directory), ([encode "p", encode "gradlew"], .file [] true),
    ([encode "p", encode "scp-build.toml"], .file (encode "[paths]\nproject_root='out'\n") false),
    ([encode "p", encode "sub"], .directory),
    ([encode "p", encode "sub", encode "scp-build.toml"], .file (encode "[paths]\nproject_root='other'\n") false)]
  cwd := [encode "p", encode "sub"]
  environment := []
  options := {}
  dir := .ofText "/p/sub"

/-- What is loaded there. -/
def Inputs.loadedNested : LoadedConfig where
  config := { paths := { projectRoot := some (.ofText "/p/sub/out") } }
  files := [.ofText "/p/scp-build.toml"]

theorem load_root_nested : Inputs.nested.dir.isAbsolute = true ∧ (∃ text, Inputs.nested.dir = .ofText text) ∧
    Inputs.nested.load = .ok Inputs.loadedNested ∧
    Inputs.loadedNested.config.paths.projectRoot = some (.ofText "/p/sub/out") ∧ Inputs.nested.root = .ofText "/p" ∧
    ∃ layers, Inputs.nested.Arranges layers ∧ Inputs.nested.LoadsBy layers Inputs.loadedNested ∧
      Inputs.nested.Roots layers (.ofText "/p/sub/out") := by
  have hload : Inputs.nested.load = .ok Inputs.loadedNested := by decide +kernel
  obtain ⟨layers, hlayers, hl⟩ := Inputs.loadsBy_of_load hload
  have hroots := load_root .nested layers Inputs.loadedNested (.ofText "/p/sub/out") (by decide) ⟨"/p/sub", rfl⟩ hlayers
    hl rfl
  exact ⟨by decide, ⟨"/p/sub", rfl⟩, hload, rfl, by decide +kernel, layers, hlayers, hl, hroots.1⟩

/-- An empty project, with an environment and options. -/
def Inputs.asked (environment : Environment) (options : Options) : Inputs where
  tree := .ofEntries [([encode "p"], .directory)]
  cwd := [encode "p"]
  environment := environment
  options := options
  dir := .ofText "/p"

/-- What is loaded with a root. -/
def loadedAt (root : Path) : LoadedConfig := ⟨{ paths := { projectRoot := some root } }, []⟩

/-- A variable that looks like a number is read as one.  A byte that is no text is lost from the root that the option
gives, but not from the lookup root. -/
theorem load_root_differs :
    (Inputs.asked [("SCP_BUILD_PATHS__PROJECT_ROOT", encode "007")] {}).load = .ok (loadedAt (.ofText "/p/7")) ∧
    (Inputs.asked [] { projectRoot := some ⟨[Path.slash, 0xFF]⟩ }).load = .ok (loadedAt (.ofText "/\uFFFD")) ∧
    (Inputs.asked [] { projectRoot := some ⟨[Path.slash, 0xFF]⟩ }).root = ⟨[Path.slash, 0xFF]⟩ ∧
    (Path.ofText "/p").absoluteFrom (.ofText "007") ≠ .ofText "/p/7" ∧
    (⟨[Path.slash, 0xFF]⟩ : Path) ≠ .ofText "/\uFFFD" := by
  refine ⟨by decide +kernel, by decide +kernel, by decide +kernel, by decide, by decide⟩

end GradleBuild.Config
