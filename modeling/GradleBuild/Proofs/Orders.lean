import GradleBuild.Proofs.Loading
import Mathlib.Data.List.Forall2

/-!
# Maps in any order

The values of a source, the variables, the overrides and the fields of a table are kept in maps, and a map is gone
through in no particular order.  Where one key leads into another, the order decides what is loaded; of several problems
the one that is met first is reported.  So a run may end in several ways (`Inputs.MayEnd`).

A table that is put over another is gone through in some order as well.  Its names are distinct, and what is put under
one name leaves what is under the others, so that order does not show.

* `Shuffled`: entries in another order, those of one name in their old one.
* `Shuffled.of_map`: an order of what is made of some values is one of the values themselves.
* `ConfigReports`: the problems of a value that may be reported.  There are some if and only if the value makes no
  configuration (`configReports_of_error`, `not_configReports_of_ok`).
* `exists_mayEnd`: `Inputs.load`, where all maps are in the order in which they were filled, is one way to end.
-/

namespace GradleBuild.Config

/-! ### Entries in another order -/

section Shuffled

variable {α β γ : Type} {l l' : List (α × β)} {a : α × β}

/-- The same entries in another order, those of one name in their old one. -/
inductive Shuffled : List (α × β) → List (α × β) → Prop
  | nil : Shuffled [] []
  | cons (a : α × β) {l l' : List (α × β)} (h : Shuffled l l') : Shuffled (a :: l) (a :: l')
  | swap {a b : α × β} (hne : a.1 ≠ b.1) (l : List (α × β)) : Shuffled (a :: b :: l) (b :: a :: l)
  | trans {l l' l'' : List (α × β)} (h : Shuffled l l') (h' : Shuffled l' l'') : Shuffled l l''

theorem Shuffled.refl : (l : List (α × β)) → Shuffled l l
  | [] => .nil
  | a :: l => .cons a (refl l)

theorem Shuffled.perm (h : Shuffled l l') : l.Perm l' := by
  induction h with
  | nil => exact .nil
  | cons a _ ih => exact .cons a ih
  | swap _ l => exact .swap _ _ l
  | trans _ _ ih ih' => exact ih.trans ih'

/-- The order of some entries is an order of what is made of their values. -/
theorem Shuffled.map (f : β → γ) (h : Shuffled l l') : Shuffled (l.map (Prod.map id f)) (l'.map (Prod.map id f)) := by
  induction h with
  | nil => exact .nil
  | cons a _ ih => exact .cons _ ih
  | @swap a b hne l => exact .swap (a := Prod.map id f a) (b := Prod.map id f b) hne (l.map (Prod.map id f))
  | trans _ _ ih ih' => exact ih.trans ih'

/-- An order of what is made of some values is an order of the values. -/
theorem Shuffled.of_map {f : β → γ} {m : List (α × γ)} (h : Shuffled (l.map (Prod.map id f)) m) :
    ∃ l', Shuffled l l' ∧ m = l'.map (Prod.map id f) := by
  generalize hl : l.map (Prod.map id f) = made at h
  induction h generalizing l with
  | nil =>
    obtain rfl := List.map_eq_nil_iff.1 hl
    exact ⟨[], .nil, rfl⟩
  | cons b _ ih =>
    obtain ⟨a, rest, rfl, rfl, hrest⟩ := List.map_eq_cons_iff.1 hl
    obtain ⟨rest', h', rfl⟩ := ih hrest
    exact ⟨a :: rest', .cons a h', rfl⟩
  | swap hne made =>
    obtain ⟨a, rest, rfl, rfl, hrest⟩ := List.map_eq_cons_iff.1 hl
    obtain ⟨b, rest, rfl, rfl, rfl⟩ := List.map_eq_cons_iff.1 hrest
    have hne : a.1 ≠ b.1 := hne
    exact ⟨b :: a :: rest, .swap hne rest, rfl⟩
  | trans _ _ ih ih' =>
    obtain ⟨l₁, h₁, rfl⟩ := ih hl
    obtain ⟨l₂, h₂, rfl⟩ := ih' rfl
    exact ⟨l₂, h₁.trans h₂, rfl⟩

end Shuffled

/-! ### Problems of a value -/

variable {α : Type} {v : Value} {p : ValueProblem} {c : Config} {o : Option String} {fields : Fields}
  {known : List String} {within : String → Value → ValueProblem → Prop} {want : Value → Decoded α} {title name : String}

/-- The problem, one step further in. -/
def ValueProblem.under (p : ValueProblem) (step : KeyStep) : ValueProblem := { p with steps := step :: p.steps }

/-- What may be reported of a value with named fields.  In a table the field that is met first may be any of them: one
that is unknown, or one with a problem of its own.  Anything else has its fields in order. -/
inductive Reports (known : List String) (within : String → Value → ValueProblem → Prop) (want : Value → Decoded α) :
    Value → ValueProblem → Prop
  | unknown {o : Option String} {fields : Fields} {name : String} {v : Value} (h : (name, v) ∈ fields)
      (hn : name ∉ known) : Reports known within want (.table o fields) ⟨[], .unknownField name known⟩
  | field {o : Option String} {fields : Fields} {name : String} {v : Value} {p : ValueProblem}
      (h : fields.lookup name = some v) (hp : within name v p) :
      Reports known within want (.table o fields) (p.under (.child name))
  | inOrder {v : Value} {p : ValueProblem} (h : v.isTable = false) (hp : want v = .error p) :
      Reports known within want v p

/-- What is reported of the value for a setting. -/
def SettingReports (title name : String) (v : Value) (p : ValueProblem) : Prop :=
  ∃ k : Setting, k.title = title ∧ k.name = name ∧ k.want v = .error p

/-- What may be reported of the value for a section. -/
inductive SectionReports : String → Value → ValueProblem → Prop
  | globals {v : Value} {p : ValueProblem} (h : Reports globalKeys (SettingReports "global") wantGlobal v p) :
      SectionReports "global" v p
  | paths {v : Value} {p : ValueProblem} (h : Reports pathKeys (SettingReports "paths") wantPaths v p) :
      SectionReports "paths" v p
  | gradle {v : Value} {p : ValueProblem} (h : Reports gradleKeys (SettingReports "gradle") wantGradle v p) :
      SectionReports "gradle" v p

/-- What may be reported of a value that is taken for a configuration. -/
def ConfigReports : Value → ValueProblem → Prop := Reports sectionNames SectionReports ofValue

/-- What is reported of a table whose fields are taken one by one. -/
private theorem reports_of_sectionFields {make : List (String × KeyStep × Value) → Decoded α}
    (h : (sectionFields title known (.table o fields) >>= make) = .error p)
    (hmake : make (fields.map fun (name, v) => (name, .child name, v)) = .error p →
      Reports known within want (.table o fields) p) : Reports known within want (.table o fields) p := by
  unfold sectionFields at h
  dsimp only at h
  cases hfind : fields.find? fun f => !known.contains f.1 with
  | some f =>
    rw [hfind] at h
    obtain rfl := Except.error.inj h
    exact .unknown (List.mem_of_find?_eq_some hfind) (by simpa using List.find?_some hfind)
  | none =>
    rw [hfind] at h
    exact hmake h

/-- What is reported where one field is taken. -/
private theorem reports_of_field {d : α} {want' : Value → Decoded α}
    (h : field (fields.map fun (name, v) => (name, .child name, v)) name d want' = .error p)
    (hwithin : ∀ v q, want' v = .error q → within name v q) {β : Type} {want : Value → Decoded β} :
    Reports known within want (.table o fields) p := by
  rw [field_map] at h
  cases hlookup : fields.lookup name with
  | none =>
    rw [hlookup] at h
    cases h
  | some v =>
    rw [hlookup] at h
    cases hwant : want' v with
    | ok x =>
      simp only [hwant] at h
      cases h
    | error q =>
      simp only [hwant] at h
      obtain rfl := Except.error.inj h
      exact .field hlookup (hwithin v q hwant)

private theorem reports_of_setting (k : Setting) {d : k.Kind} {β : Type} {want : Value → Decoded β}
    (h : field (fields.map fun (name, v) => (name, .child name, v)) k.name d k.want = .error p) :
    Reports known (SettingReports k.title) want (.table o fields) p :=
  reports_of_field h fun _ _ hq => ⟨k, rfl, rfl, hq⟩

private theorem reports_of_wantGlobal (h : wantGlobal v = .error p) :
    Reports globalKeys (SettingReports "global") wantGlobal v p := by
  cases v with
  | scalar | list => exact .inOrder rfl h
  | table o fields =>
    refine reports_of_sectionFields h fun h => ?_
    rcases bind_eq_error h with h | ⟨_, -, h⟩
    · exact reports_of_setting .dry h
    rcases bind_eq_error h with h | ⟨_, -, h⟩
    · exact reports_of_setting .outputLogLevel h
    rcases bind_eq_error h with h | ⟨_, -, h⟩
    · exact reports_of_setting .fileLogLevel h
    rcases bind_eq_error h with h | ⟨_, -, h⟩
    · exact reports_of_setting .logFile h
    · cases h

private theorem reports_of_wantPaths (h : wantPaths v = .error p) :
    Reports pathKeys (SettingReports "paths") wantPaths v p := by
  cases v with
  | scalar | list => exact .inOrder rfl h
  | table o fields =>
    refine reports_of_sectionFields h fun h => ?_
    rcases bind_eq_error h with h | ⟨_, -, h⟩
    · exact reports_of_setting (.directory .projectRoot) h
    rcases bind_eq_error h with h | ⟨_, -, h⟩
    · exact reports_of_setting (.directory .build) h
    rcases bind_eq_error h with h | ⟨_, -, h⟩
    · exact reports_of_setting (.directory .libs) h
    rcases bind_eq_error h with h | ⟨_, -, h⟩
    · exact reports_of_setting (.directory .docs) h
    rcases bind_eq_error h with h | ⟨_, -, h⟩
    · exact reports_of_setting (.directory .out) h
    rcases bind_eq_error h with h | ⟨_, -, h⟩
    · exact reports_of_setting (.directory .deliverables) h
    rcases bind_eq_error h with h | ⟨_, -, h⟩
    · exact reports_of_setting (.directory .java) h
    rcases bind_eq_error h with h | ⟨_, -, h⟩
    · exact reports_of_setting (.directory .javaDocs) h
    · cases h

private theorem reports_of_wantGradle (h : wantGradle v = .error p) :
    Reports gradleKeys (SettingReports "gradle") wantGradle v p := by
  cases v with
  | scalar | list => exact .inOrder rfl h
  | table o fields =>
    refine reports_of_sectionFields h fun h => ?_
    rcases bind_eq_error h with h | ⟨_, -, h⟩
    · exact reports_of_setting .wrapper h
    rcases bind_eq_error h with h | ⟨_, -, h⟩
    · exact reports_of_setting .console h
    rcases bind_eq_error h with h | ⟨_, -, h⟩
    · exact reports_of_setting .arguments h
    · cases h

/-- A value that makes no configuration has a problem that may be reported, `ofValue`'s. -/
theorem configReports_of_error (h : ofValue v = .error p) : ConfigReports v p := by
  cases v with
  | scalar | list => exact .inOrder rfl h
  | table o fields =>
    refine reports_of_sectionFields h fun h => ?_
    rcases bind_eq_error h with h | ⟨_, -, h⟩
    · exact reports_of_field h fun v q hq => .globals (reports_of_wantGlobal hq)
    rcases bind_eq_error h with h | ⟨_, -, h⟩
    · exact reports_of_field h fun v q hq => .paths (reports_of_wantPaths hq)
    rcases bind_eq_error h with h | ⟨_, -, h⟩
    · exact reports_of_field h fun v q hq => .gradle (reports_of_wantGradle hq)
    · cases h

/-- Nothing is reported of a section of what makes a configuration. -/
private theorem not_reports_section {top : Value} {x : α} (hc : ofValue top = .ok c) (hv : top.child? title = some v)
    (hx : want v = .ok x) (hknown : ∀ o fields, want (.table o fields) = .ok x → Known known fields) :
    ¬ Reports known (SettingReports title) want v p := by
  intro hp
  cases hp with
  | unknown hf hn => exact hn (hknown _ _ hx _ (List.lookup_isSome_iff.2 ⟨_, hf, by simp⟩))
  | field hlookup hp =>
    obtain ⟨k, rfl, rfl, hwant⟩ := hp
    have hat : k.at? top = some _ := Option.bind_eq_some_iff.2 ⟨_, hv, hlookup⟩
    rw [want_of_at? hc hat] at hwant
    cases hwant
  | inOrder ht hp =>
    rw [hx] at hp
    cases hp

/-- Nothing is reported of a value that makes a configuration. -/
theorem not_configReports_of_ok (hc : ofValue v = .ok c) : ¬ ConfigReports v p := by
  intro hp
  cases hp with
  | unknown hf hn => exact hn ((ofValue_eq_ok.1 hc).1 _ (List.lookup_isSome_iff.2 ⟨_, hf, by simp⟩))
  | field hlookup hp =>
    obtain ⟨-, h₁, h₂, h₃⟩ := ofValue_eq_ok.1 hc
    cases hp with
    | globals hp =>
      exact not_reports_section hc hlookup (h₁.of_some hlookup) (fun _ _ h => (wantGlobal_eq_ok.1 h).1) hp
    | paths hp => exact not_reports_section hc hlookup (h₂.of_some hlookup) (fun _ _ h => (wantPaths_eq_ok.1 h).1) hp
    | gradle hp => exact not_reports_section hc hlookup (h₃.of_some hlookup) (fun _ _ h => (wantGradle_eq_ok.1 h).1) hp
  | inOrder ht hp =>
    rw [hc] at hp
    cases hp

/-! ### The layers of a run -/

namespace Inputs

variable {i : Inputs} {layers : List (List (Key × Value))} {loaded : LoadedConfig} {a : Key × Value}

/-- What the layers of a run assign, the lowest first and the overrides last, each in an order in which its map may be
gone through. -/
def Arranges (i : Inputs) (layers : List (List (Key × Value))) : Prop :=
  ∃ found maps overrides, i.gathered = .ok found ∧ List.Forall₂ Shuffled found maps ∧ Shuffled i.overriding overrides ∧
    layers = maps.map assigned ++ [overrides]

/-- What layers make of the lookup root. -/
def made (i : Inputs) (layers : List (List (Key × Value))) : Value := Loader.assignAll layers.flatten i.defaults

/-- What is loaded by way of the layers, in their order. -/
def LoadsBy (i : Inputs) (layers : List (List (Key × Value))) (loaded : LoadedConfig) : Prop :=
  i.Readable ∧ ∃ c, ofValue (i.made layers) = .ok c ∧ c.validate = .ok () ∧ loaded = ⟨rooted i.dir c, i.below.files⟩

end Inputs

/-- How loading ends. -/
inductive Ending where
  | loaded (config : LoadedConfig)
  /-- A problem of the sources, which is reported with the names of the files. -/
  | unreadable (files : List Path) (problem : Problem)
  /-- Overrides that cannot be read, or a configuration that is not valid. -/
  | refused (cause : Cause)

def Ending.result : Ending → Except Cause LoadedConfig
  | loaded config => .ok config
  | unreadable files problem =>
    .error (.unreadableConfig (String.intercalate ", " (files.map Path.display)) problem.message)
  | refused cause => .error cause

namespace Inputs

variable {i : Inputs} {layers : List (List (Key × Value))} {loaded : LoadedConfig} {a : Key × Value}

/-- How the loading of a run may end. -/
inductive MayEnd (i : Inputs) : Ending → Prop
  | overrides {e : Cause} (h : loaderFor i.tree i.cwd i.options i.dir = .error e) : MayEnd i (.refused e)
  | sources {p : Problem} (hread : i.Readable) (h : i.gathered = .error p) : MayEnd i (.unreadable i.below.files p)
  | values {layers : List (List (Key × Value))} {p : ValueProblem} (hread : i.Readable) (h : i.Arranges layers)
      (hp : ConfigReports (i.made layers) p) : MayEnd i (.unreadable i.below.files (.value p))
  | invalid {layers : List (List (Key × Value))} {c : Config} {e : Cause} (hread : i.Readable) (h : i.Arranges layers)
      (hc : ofValue (i.made layers) = .ok c) (he : c.validate = .error e) : MayEnd i (.refused e)
  | loaded {layers : List (List (Key × Value))} {loaded : LoadedConfig} (h : i.Arranges layers)
      (hl : i.LoadsBy layers loaded) : MayEnd i (.loaded loaded)

private theorem exists_shuffled {found maps : List Fields} {fields' : Fields} (h : List.Forall₂ Shuffled found maps)
    (hmem : fields' ∈ maps) : ∃ fields ∈ found, Shuffled fields fields' := by
  induction h with
  | nil => cases hmem
  | cons hfirst _ ih =>
    rcases List.mem_cons.1 hmem with rfl | hmem
    · exact ⟨_, List.mem_cons_self, hfirst⟩
    · obtain ⟨fields, hfields, hshuffled⟩ := ih hmem
      exact ⟨fields, List.mem_cons_of_mem _ hfields, hshuffled⟩

/-- What layers in some order assign, they assign in the order in which they were filled. -/
theorem Arranges.exists_mem {layer : List (Key × Value)} (h : i.Arranges layers) (hl : layer ∈ layers)
    (ha : a ∈ layer) : ∃ layer ∈ i.lowerLayers ++ [i.overriding], a ∈ layer := by
  obtain ⟨found, maps, overrides, hfound, hmaps, horder, rfl⟩ := h
  rcases List.mem_append.1 hl with hl | hl
  · obtain ⟨fields', hmem, rfl⟩ := List.mem_map.1 hl
    obtain ⟨fields, hfields, hshuffled⟩ := exists_shuffled hmaps hmem
    obtain ⟨f, hf, rfl⟩ := List.mem_map.1 ha
    refine ⟨assigned fields, List.mem_append_left _ ?_, List.mem_map_of_mem (hshuffled.perm.mem_iff.2 hf)⟩
    rw [← lowerLayers_gathered hfound]
    exact List.mem_map_of_mem hfields
  · obtain rfl := List.mem_singleton.1 hl
    exact ⟨i.overriding, by simp, horder.perm.mem_iff.2 ha⟩

/-- One way to end is the one with all maps in the order in which they were filled. -/
theorem exists_mayEnd (i : Inputs) : ∃ e, i.MayEnd e ∧ i.load = e.result := by
  cases hl : loaderFor i.tree i.cwd i.options i.dir with
  | error e =>
    refine ⟨.refused e, .overrides hl, ?_⟩
    unfold Inputs.load Config.load
    rw [hl]
    rfl
  | ok l =>
    obtain ⟨hread, -⟩ := loaderFor_eq_ok.1 hl
    rw [load_eq hread, base_gathered]
    cases hfound : i.gathered with
    | error p => exact ⟨_, .sources hread hfound, rfl⟩
    | ok found =>
      have harranges : i.Arranges (found.map assigned ++ [i.overriding]) :=
        ⟨found, found, i.overriding, hfound, List.forall₂_same.2 fun _ _ => .refl _, .refl _, rfl⟩
      have hmade : Loader.assignAll i.overriding (Loader.assignAll (found.map assigned).flatten i.defaults) =
          i.made (found.map assigned ++ [i.overriding]) := by
        unfold made
        rw [List.flatten_append, List.flatten_singleton, assignAll_append]
      simp only [Except.map, bind, Except.bind, hmade]
      cases hc : ofValue (i.made (found.map assigned ++ [i.overriding])) with
      | error p => exact ⟨_, .values hread harranges (configReports_of_error hc), rfl⟩
      | ok c =>
        simp only [Except.mapError]
        cases hvalid : c.validate with
        | error e => exact ⟨_, .invalid hread harranges hc hvalid, rfl⟩
        | ok => exact ⟨_, .loaded harranges ⟨hread, c, hc, hvalid, rfl⟩, rfl⟩

/-- What is loaded is loaded by way of the layers in some order. -/
theorem loadsBy_of_load (h : i.load = .ok loaded) : ∃ layers, i.Arranges layers ∧ i.LoadsBy layers loaded := by
  obtain ⟨e, he, hresult⟩ := i.exists_mayEnd
  rw [h] at hresult
  cases he with
  | loaded harranges hl =>
    obtain rfl := Except.ok.inj hresult
    exact ⟨_, harranges, hl⟩
  | overrides | sources | values | invalid => cases hresult

end Inputs

end GradleBuild.Config
