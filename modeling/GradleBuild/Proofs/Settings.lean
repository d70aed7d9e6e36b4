import GradleBuild.Config.Decode
import GradleBuild.Proofs.Effects
import Mathlib.Data.List.Basic

/-!
# The settings of a configuration

A configuration has fifteen settings in three sections.  `Setting` names them, with the key and the kind of each, and
with what its section takes for it: a value that is decoded, or else a default.

* `ofValue_ok`: what is decoded has each setting from the value under its key, or its default.
* `want_of_at?`: a value under the key of a setting is decoded for it, also where a section is no table.
* `ofValue_alone`: a value that can be decoded for a setting makes a configuration on its own.
* `validate_eq_ok`: what a configuration must hold to be valid.
-/

namespace GradleBuild.Config

/-- The value under a name in a table. -/
def Value.child? (v : Value) (name : String) : Option Value := (Key.fieldsOrNone v).2.lookup name

/-- A table whose sections are tables. -/
def Sectioned (top : Value) : Prop := ∃ o fields, top = .table o fields ∧
  ∀ title v, fields.lookup title = some v → ∃ o' fs, v = .table o' fs

/-- What can be set. -/
inductive Setting where
  | dry
  | outputLogLevel
  | fileLogLevel
  | logFile
  | directory (p : Place)
  | wrapper
  | console
  | arguments
  deriving DecidableEq, Repr

namespace Setting

def title : Setting → String
  | dry | outputLogLevel | fileLogLevel | logFile => "global"
  | directory _ => "paths"
  | wrapper | console | arguments => "gradle"

def name : Setting → String
  | dry => "dry"
  | outputLogLevel => "output_log_level"
  | fileLogLevel => "file_log_level"
  | logFile => "log_file"
  | directory p => p.key
  | wrapper => "wrapper"
  | console => "console"
  | arguments => "args"

def key (k : Setting) : Key := ⟨k.title, [.child k.name]⟩

/-- The key as it is written. -/
def text (k : Setting) : String := k.title ++ "." ++ k.name

abbrev Kind : Setting → Type
  | dry => Bool
  | outputLogLevel => Log.Level
  | fileLogLevel => Option Log.Level
  | logFile => Option Path
  | directory _ => Option Path
  | wrapper => Option Path
  | console => ConsoleMode
  | arguments => List String

def want : (k : Setting) → Value → Decoded k.Kind
  | dry => wantBool
  | outputLogLevel => wantLevel
  | fileLogLevel => wantOption wantLevel
  | logFile => wantOption wantPath
  | directory _ => wantOption wantPath
  | wrapper => wantOption wantPath
  | console => wantConsoleMode
  | arguments => wantTexts

/-- The built-in default. -/
def builtIn : (k : Setting) → k.Kind
  | dry => false
  | outputLogLevel => .info
  | fileLogLevel => none
  | logFile => none
  | directory _ => none
  | wrapper => none
  | console => .plain
  | arguments => []

def get : (k : Setting) → Config → k.Kind
  | dry, c => c.globals.dry
  | outputLogLevel, c => c.globals.outputLogLevel
  | fileLogLevel, c => c.globals.fileLogLevel
  | logFile, c => c.globals.logFile
  | directory p, c => c.paths.get p
  | wrapper, c => c.gradle.wrapper
  | console, c => c.gradle.console
  | arguments, c => c.gradle.args

def all : List Setting := [dry, outputLogLevel, fileLogLevel, logFile] ++ GradleBuild.Place.all.map directory
  ++ [wrapper, console, arguments]

theorem mem_all (k : Setting) : k ∈ all := by
  cases k with
  | directory p => cases p <;> decide
  | dry | outputLogLevel | fileLogLevel | logFile | wrapper | console | arguments => decide

theorem title_mem (k : Setting) : k.title ∈ sectionNames := by
  have hall : ∀ k ∈ all, k.title ∈ sectionNames := by decide
  exact hall k k.mem_all

instance {p : Setting → Prop} [DecidablePred p] : Decidable (∃ k, p k) :=
  decidable_of_iff (∃ k ∈ all, p k) (by simp [mem_all])

/-- The value under the key of a setting. -/
def at? (k : Setting) (top : Value) : Option Value := (top.child? k.title).bind (·.child? k.name)

end Setting

/-! ### Decoding -/

variable {α β : Type} {o : Option String} {fs : Fields} {title name : String} {known : List String} {d x : α}
  {want : Value → Decoded α} {top v : Value} {c : Config}

theorem bind_eq_ok {ε : Type} {a : Except ε α} {f : α → Except ε β} {b : β} (h : (a >>= f) = .ok b) :
    ∃ x, a = .ok x ∧ f x = .ok b := by
  cases a with
  | error => cases h
  | ok x => exact ⟨x, rfl, h⟩

theorem bind_eq_error {ε : Type} {a : Except ε α} {f : α → Except ε β} {e : ε} (h : (a >>= f) = .error e) :
    a = .error e ∨ ∃ x, a = .ok x ∧ f x = .error e := by
  cases a with
  | error => exact Or.inl (congrArg Except.error (Except.error.inj h))
  | ok x => exact Or.inr ⟨x, rfl, h⟩

/-- A section is decoded field by field if all its names are known. -/
theorem sectionFields_eq_ok {fields : List (String × KeyStep × Value)} :
    sectionFields title known (.table o fs) = .ok fields ↔
      (∀ name, (fs.lookup name).isSome = true → name ∈ known) ∧
        fields = fs.map fun (name, v) => (name, .child name, v) := by
  simp only [sectionFields]
  cases hfind : fs.find? fun f => !known.contains f.1 with
  | some f =>
    have hmem := List.mem_of_find?_eq_some hfind
    have hunknown : f.1 ∉ known := by simpa using List.find?_some hfind
    constructor
    · rintro ⟨⟩
    · rintro ⟨hknown, -⟩
      exact absurd (hknown f.1 (List.lookup_isSome_iff.2 ⟨f, hmem, by simp⟩)) hunknown
  | none =>
    constructor
    · intro h
      refine ⟨fun name hn => ?_, (Except.ok.inj h).symm⟩
      obtain ⟨f, hf, hname⟩ := List.lookup_isSome_iff.1 hn
      have hknown := List.find?_eq_none.1 hfind f hf
      simpa [eq_of_beq hname] using hknown
    · rintro ⟨-, rfl⟩
      rfl

theorem sectionFields_ok {fields : List (String × KeyStep × Value)}
    (h : sectionFields title known (.table o fs) = .ok fields) :
    fields = fs.map fun (name, v) => (name, .child name, v) := (sectionFields_eq_ok.1 h).2

/-- The setting has been taken from the value under a name, or is its default. -/
def Taken (want : Value → Decoded α) (d : α) (v : Option Value) (x : α) : Prop :=
  match v with
  | some v => want v = .ok x
  | none => x = d

theorem Taken.of_some {given : Option Value} (h : Taken want d given x) (hv : given = some v) : want v = .ok x := by
  subst hv
  exact h

private theorem lookup_steps (fs : Fields) (name : String) :
    (fs.map fun (name, v) => (name, KeyStep.child name, v)).lookup name =
      (fs.lookup name).map fun v => (.child name, v) := by
  induction fs with
  | nil => rfl
  | cons f fs ih =>
    obtain ⟨n, v⟩ := f
    rw [List.map_cons, List.lookup_cons, List.lookup_cons, ih]
    by_cases hn : name = n
    · simp [hn]
    · have hb : (name == n) = false := by simpa using hn
      simp [hb]

private theorem inStep_eq_ok {step : KeyStep} {d : Decoded α} : inStep step d = .ok x ↔ d = .ok x := mapError_eq_ok

/-- A field of a section is decoded from the value under its name. -/
theorem field_map (fs : Fields) (name : String) (d : α) (want : Value → Decoded α) :
    field (fs.map fun (name, v) => (name, .child name, v)) name d want =
      match fs.lookup name with
      | some v => inStep (.child name) (want v)
      | none => .ok d := by
  unfold field
  rw [lookup_steps]
  cases fs.lookup name <;> rfl

theorem field_eq_ok : field (fs.map fun (name, v) => (name, .child name, v)) name d want = .ok x ↔
    Taken want d (fs.lookup name) x := by
  rw [field_map]
  unfold Taken
  cases fs.lookup name with
  | none => exact ⟨fun h => (Except.ok.inj h).symm, fun h => by rw [h]⟩
  | some v => exact inStep_eq_ok

theorem field_ok (h : field (fs.map fun (name, v) => (name, .child name, v)) name d want = .ok x) :
    Taken want d (fs.lookup name) x := field_eq_ok.1 h

/-- All names of some fields are among the known ones. -/
def Known (known : List String) (fs : Fields) : Prop := ∀ name, (fs.lookup name).isSome = true → name ∈ known

theorem wantGlobal_eq_ok {g : GlobalConfig} : wantGlobal (.table o fs) = .ok g ↔ Known globalKeys fs ∧
      Taken wantBool false (fs.lookup "dry") g.dry ∧
      Taken wantLevel .info (fs.lookup "output_log_level") g.outputLogLevel ∧
      Taken (wantOption wantLevel) none (fs.lookup "file_log_level") g.fileLogLevel ∧
      Taken (wantOption wantPath) none (fs.lookup "log_file") g.logFile := by
  constructor
  · intro h
    obtain ⟨fields, hf, h⟩ := bind_eq_ok h
    obtain ⟨hknown, rfl⟩ := sectionFields_eq_ok.1 hf
    obtain ⟨dry, h₁, h⟩ := bind_eq_ok h
    obtain ⟨outputLogLevel, h₂, h⟩ := bind_eq_ok h
    obtain ⟨fileLogLevel, h₃, h⟩ := bind_eq_ok h
    obtain ⟨logFile, h₄, h⟩ := bind_eq_ok h
    obtain rfl := Except.ok.inj h
    exact ⟨hknown, field_ok h₁, field_ok h₂, field_ok h₃, field_ok h₄⟩
  · rintro ⟨hknown, h₁, h₂, h₃, h₄⟩
    simp only [wantGlobal, sectionFields_eq_ok.2 ⟨hknown, rfl⟩, field_eq_ok.2 h₁, field_eq_ok.2 h₂, field_eq_ok.2 h₃,
      field_eq_ok.2 h₄, bind, Except.bind, pure, Except.pure]

theorem wantPaths_eq_ok {g : PathsConfig} : wantPaths (.table o fs) = .ok g ↔ Known pathKeys fs ∧
    ∀ p : Place, Taken (wantOption wantPath) none (fs.lookup p.key) (g.get p) := by
  constructor
  · intro h
    obtain ⟨fields, hf, h⟩ := bind_eq_ok h
    obtain ⟨hknown, rfl⟩ := sectionFields_eq_ok.1 hf
    obtain ⟨projectRoot, h₁, h⟩ := bind_eq_ok h
    obtain ⟨build, h₂, h⟩ := bind_eq_ok h
    obtain ⟨libs, h₃, h⟩ := bind_eq_ok h
    obtain ⟨docs, h₄, h⟩ := bind_eq_ok h
    obtain ⟨out, h₅, h⟩ := bind_eq_ok h
    obtain ⟨deliverables, h₆, h⟩ := bind_eq_ok h
    obtain ⟨java, h₇, h⟩ := bind_eq_ok h
    obtain ⟨javaDocs, h₈, h⟩ := bind_eq_ok h
    obtain rfl := Except.ok.inj h
    refine ⟨hknown, fun p => ?_⟩
    cases p with
    | projectRoot => exact field_ok h₁
    | build => exact field_ok h₂
    | libs => exact field_ok h₃
    | docs => exact field_ok h₄
    | out => exact field_ok h₅
    | deliverables => exact field_ok h₆
    | java => exact field_ok h₇
    | javaDocs => exact field_ok h₈
  · rintro ⟨hknown, h⟩
    have hfield (p : Place) := field_eq_ok.2 (h p)
    simp only [wantPaths, sectionFields_eq_ok.2 ⟨hknown, rfl⟩, hfield, bind, Except.bind, pure, Except.pure,
      PathsConfig.get]

theorem wantPaths_ok {g : PathsConfig} (h : wantPaths (.table o fs) = .ok g) (p : Place) :
    Taken (wantOption wantPath) none (fs.lookup p.key) (g.get p) := (wantPaths_eq_ok.1 h).2 p

theorem wantGradle_eq_ok {g : GradleConfig} : wantGradle (.table o fs) = .ok g ↔ Known gradleKeys fs ∧
      Taken (wantOption wantPath) none (fs.lookup "wrapper") g.wrapper ∧
      Taken wantConsoleMode .plain (fs.lookup "console") g.console ∧
      Taken wantTexts [] (fs.lookup "args") g.args := by
  constructor
  · intro h
    obtain ⟨fields, hf, h⟩ := bind_eq_ok h
    obtain ⟨hknown, rfl⟩ := sectionFields_eq_ok.1 hf
    obtain ⟨wrapper, h₁, h⟩ := bind_eq_ok h
    obtain ⟨console, h₂, h⟩ := bind_eq_ok h
    obtain ⟨args, h₃, h⟩ := bind_eq_ok h
    obtain rfl := Except.ok.inj h
    exact ⟨hknown, field_ok h₁, field_ok h₂, field_ok h₃⟩
  · rintro ⟨hknown, h₁, h₂, h₃⟩
    simp only [wantGradle, sectionFields_eq_ok.2 ⟨hknown, rfl⟩, field_eq_ok.2 h₁, field_eq_ok.2 h₂, field_eq_ok.2 h₃,
      bind, Except.bind, pure, Except.pure]

/-- A configuration is decoded section by section if all sections are known. -/
theorem ofValue_eq_ok {fields : Fields} : ofValue (.table o fields) = .ok c ↔ Known sectionNames fields ∧
      Taken wantGlobal {} (fields.lookup "global") c.globals ∧ Taken wantPaths {} (fields.lookup "paths") c.paths ∧
      Taken wantGradle {} (fields.lookup "gradle") c.gradle := by
  constructor
  · intro h
    obtain ⟨_, hf, h⟩ := bind_eq_ok h
    obtain ⟨hknown, rfl⟩ := sectionFields_eq_ok.1 hf
    obtain ⟨globals, h₁, h⟩ := bind_eq_ok h
    obtain ⟨paths, h₂, h⟩ := bind_eq_ok h
    obtain ⟨gradle, h₃, h⟩ := bind_eq_ok h
    obtain rfl := Except.ok.inj h
    exact ⟨hknown, field_ok h₁, field_ok h₂, field_ok h₃⟩
  · rintro ⟨hknown, h₁, h₂, h₃⟩
    simp only [ofValue, sectionFields_eq_ok.2 ⟨hknown, rfl⟩, field_eq_ok.2 h₁, field_eq_ok.2 h₂, field_eq_ok.2 h₃,
      bind, Except.bind, pure, Except.pure]

private theorem section_cases {fields : Fields}
    (hs : ∀ title v, fields.lookup title = some v → ∃ o fs, v = .table o fs)
    (h : Taken want d (fields.lookup title) x) :
    (∃ o fs, fields.lookup title = some (.table o fs) ∧ want (.table o fs) = .ok x) ∨
      fields.lookup title = none ∧ x = d := by
  cases hv : fields.lookup title with
  | none =>
    rw [hv] at h
    exact Or.inr ⟨rfl, h⟩
  | some v =>
    obtain ⟨o, fs, rfl⟩ := hs title v hv
    rw [hv] at h
    exact Or.inl ⟨o, fs, rfl, h⟩

/-- What is decoded has each setting from the value under its key, or its default. -/
theorem ofValue_ok (hs : Sectioned top) (h : ofValue top = .ok c) (k : Setting) :
    Taken k.want k.builtIn (k.at? top) (k.get c) := by
  obtain ⟨o, fields, rfl, hs⟩ := hs
  obtain ⟨-, h₁, h₂, h₃⟩ := ofValue_eq_ok.1 h
  have hat : k.at? (.table o fields) = (fields.lookup k.title).bind (·.child? k.name) := rfl
  rw [hat]
  cases k with
  | dry | outputLogLevel | fileLogLevel | logFile =>
    rcases section_cases hs h₁ with ⟨o', fs, hl, hg⟩ | ⟨hl, hd⟩
    · obtain ⟨-, hd, ho, hf, hp⟩ := wantGlobal_eq_ok.1 hg
      simp only [Setting.title, hl]
      assumption
    · simp only [Setting.title, hl, Setting.get, hd]
      rfl
  | directory p =>
    rcases section_cases hs h₂ with ⟨o', fs, hl, hg⟩ | ⟨hl, hd⟩
    · simp only [Setting.title, hl]
      exact wantPaths_ok hg p
    · simp only [Setting.title, hl, Setting.get, hd]
      cases p <;> rfl
  | wrapper | console | arguments =>
    rcases section_cases hs h₃ with ⟨o', fs, hl, hg⟩ | ⟨hl, hd⟩
    · obtain ⟨-, hw, hc, ha⟩ := wantGradle_eq_ok.1 hg
      simp only [Setting.title, hl]
      assumption
    · simp only [Setting.title, hl, Setting.get, hd]
      rfl

theorem exists_table_of_child? (h : top.child? name = some v) :
    ∃ o fs, top = .table o fs ∧ fs.lookup name = some v := by
  cases top with
  | table o fs => exact ⟨o, fs, rfl, h⟩
  | scalar | list => cases h

/-- A value under the key of a setting is decoded for it, whatever else there is. -/
theorem want_of_at? {k : Setting} (h : ofValue top = .ok c) (hat : k.at? top = some v) : k.want v = .ok (k.get c) := by
  obtain ⟨_, hsection, hfield⟩ := Option.bind_eq_some_iff.1 hat
  obtain ⟨o, fields, rfl, htitle⟩ := exists_table_of_child? hsection
  obtain ⟨o', fs, rfl, hname⟩ := exists_table_of_child? hfield
  obtain ⟨-, h₁, h₂, h₃⟩ := ofValue_eq_ok.1 h
  cases k with
  | dry => exact (wantGlobal_eq_ok.1 (h₁.of_some htitle)).2.1.of_some hname
  | outputLogLevel => exact (wantGlobal_eq_ok.1 (h₁.of_some htitle)).2.2.1.of_some hname
  | fileLogLevel => exact (wantGlobal_eq_ok.1 (h₁.of_some htitle)).2.2.2.1.of_some hname
  | logFile => exact (wantGlobal_eq_ok.1 (h₁.of_some htitle)).2.2.2.2.of_some hname
  | directory p => exact ((wantPaths_eq_ok.1 (h₂.of_some htitle)).2 p).of_some hname
  | wrapper => exact (wantGradle_eq_ok.1 (h₃.of_some htitle)).2.1.of_some hname
  | console => exact (wantGradle_eq_ok.1 (h₃.of_some htitle)).2.2.1.of_some hname
  | arguments => exact (wantGradle_eq_ok.1 (h₃.of_some htitle)).2.2.2.of_some hname

/-- The values of a configuration in which one setting only is given. -/
def alone (k : Setting) (v : Value) : Value := .table none [(k.title, .table none [(k.name, v)])]

/-- The configuration that has all defaults but one. -/
def Setting.only : (k : Setting) → k.Kind → Config
  | dry, x => { globals := { dry := x } }
  | outputLogLevel, x => { globals := { outputLogLevel := x } }
  | fileLogLevel, x => { globals := { fileLogLevel := x } }
  | logFile, x => { globals := { logFile := x } }
  | directory p, x => { paths := PathsConfig.set {} x p }
  | wrapper, x => { gradle := { wrapper := x } }
  | console, x => { gradle := { console := x } }
  | arguments, x => { gradle := { args := x } }

theorem Setting.get_only (k : Setting) (x : k.Kind) : k.get (k.only x) = x := by
  cases k with
  | directory p => cases p <;> rfl
  | dry | outputLogLevel | fileLogLevel | logFile | wrapper | console | arguments => rfl

private theorem field_self {step : KeyStep} (h : want v = .ok x) : field [(name, step, v)] name d want = .ok x := by
  unfold field
  rw [List.lookup_cons_self]
  exact inStep_eq_ok.2 h

private theorem field_other {other : String} {step : KeyStep} (h : other ≠ name) (v : Value) (d : α)
    (want : Value → Decoded α) : field [(name, step, v)] other d want = .ok d := by
  have hb : (other == name) = false := by simpa using h
  unfold field
  rw [List.lookup_cons, hb]
  rfl

/-- A value that can be decoded for a setting makes a configuration on its own. -/
theorem ofValue_alone {k : Setting} {x : k.Kind} (h : k.want v = .ok x) : ofValue (alone k v) = .ok (k.only x) := by
  cases k with
  | dry | outputLogLevel | fileLogLevel | logFile =>
    simp only [Setting.want] at h
    simp [ofValue, alone, Setting.title, Setting.name, sectionFields, sectionNames, wantGlobal, globalKeys,
      field_self h, field_self, field_other, bind, Except.bind, pure, Except.pure, Setting.only]
  | directory p =>
    simp only [Setting.want] at h
    cases p <;>
      simp [ofValue, alone, Setting.title, Setting.name, sectionFields, sectionNames, wantPaths, pathKeys,
        GradleBuild.Place.all, GradleBuild.Place.key, field_self h, field_self, field_other, bind, Except.bind, pure,
        Except.pure, Setting.only, PathsConfig.set]
  | wrapper | console | arguments =>
    simp only [Setting.want] at h
    simp [ofValue, alone, Setting.title, Setting.name, sectionFields, sectionNames, wantGradle, gradleKeys,
      field_self h, field_self, field_other, bind, Except.bind, pure, Except.pure, Setting.only]

/-! ### Validating -/

theorem validate_eq_ok : c.validate = .ok () ↔ c.gradle.wrapper.any Path.isEmpty = false ∧
    c.gradle.args.any isAllBlank = false ∧ ∀ p, (c.paths.get p).any Path.isEmpty = false := by
  have hall (p : Place) : p ∈ GradleBuild.Place.all := by cases p <;> decide
  unfold validate
  constructor
  · intro h
    split at h
    · cases h
    rename_i hwrapper
    split at h
    · cases h
    rename_i hargs
    split at h
    · cases h
    rename_i hplaces
    refine ⟨by simpa using hwrapper, by simpa using hargs, fun p => ?_⟩
    simpa using List.find?_eq_none.1 hplaces p (hall p)
  · rintro ⟨hwrapper, hargs, hplaces⟩
    have hnone : (GradleBuild.Place.all.find? fun p => (c.paths.get p).any Path.isEmpty) = none :=
      List.find?_eq_none.2 fun p _ => by simp [hplaces p]
    simp only [hwrapper, hargs, hnone, Bool.false_eq_true, if_false]

end GradleBuild.Config
