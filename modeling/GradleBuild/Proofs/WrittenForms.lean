import GradleBuild.Config.Written
import GradleBuild.Proofs.Settings

/-!
# Written configurations are read back

A written configuration has one field for each setting, except for those that say nothing: an option that is not set
and an empty row of arguments.  Reading takes each setting from its field, or else its default, and a setting that is
left out is exactly one that has its default.

* `Setting.read?_written`: one setting is read back, whether it is left out or not.
* `field?_toDocument`: what the written form holds under the key of a setting.
* `readGlobal?_eq_some`, `readPaths?_eq_some`, `readGradle?_eq_some`, `ofDocument?_eq_some`: reading goes setting by
  setting.
* `ofDocument?_toDocument`, `textual_of_ofDocument?`: a configuration of texts is read back, and nothing else is ever
  read.
* `written_forms`: both together, with the fields that are left out.
-/

namespace GradleBuild.Config

variable {c : Config} {d : Document} {fields : List (String × Document)} {title : String}

/-- All paths of a configuration are written as texts. -/
def Textual (c : Config) : Prop := ∀ p : Path,
  c.globals.logFile = some p ∨ c.gradle.wrapper = some p ∨ (∃ place, c.paths.get place = some p) → ∃ s, p = .ofText s

/-- The value under a name in a table. -/
def childOf? : Document → String → Option Document
  | .table fields, name => fields.lookup name
  | _, _ => none

namespace Setting

/-- What the written form holds for a setting, if anything. -/
def written : (k : Setting) → k.Kind → Option Document
  | dry, b => some (.scalar (.bool b))
  | outputLogLevel, l => some (.scalar (.integer l.toNat))
  | fileLogLevel, l => l.map fun l => .scalar (.integer l.toNat)
  | logFile, p => p.map fun p => .scalar (.text p.display)
  | directory _, p => p.map fun p => .scalar (.text p.display)
  | wrapper, p => p.map fun p => .scalar (.text p.display)
  | console, m => some (.scalar (.text m.name))
  | arguments, args => if args.isEmpty then none else some (.list (args.map fun a => .scalar (.text a)))

/-- How a setting is read. -/
def read? : (k : Setting) → Document → Option k.Kind
  | dry => readBool?
  | outputLogLevel => readLevel?
  | fileLogLevel => readOption? readLevel?
  | logFile => readOption? readPath?
  | directory _ => readOption? readPath?
  | wrapper => readOption? readPath?
  | console => readConsoleMode?
  | arguments => readTexts?

/-- A value whose paths are texts. -/
def Text : (k : Setting) → k.Kind → Prop
  | logFile, p | directory _, p | wrapper, p => ∀ q, p = some q → ∃ s, q = .ofText s
  | dry, _ | outputLogLevel, _ | fileLogLevel, _ | console, _ | arguments, _ => True

/-- Whether a setting is left out of the written form when it has its default. -/
def mayBeLeftOut : Setting → Bool
  | dry | outputLogLevel | console => false
  | fileLogLevel | logFile | directory _ | wrapper | arguments => true

/-- The field of a setting in a document. -/
def field? (k : Setting) (d : Document) : Option Document := (childOf? d k.title).bind (childOf? · k.name)

/-- A setting is taken from its field, or else it has its default. -/
def ReadFrom (k : Setting) (fields : List (String × Document)) (x : k.Kind) : Prop :=
  readField? fields k.name k.builtIn k.read? = some x

end Setting

theorem textual_iff : c.Textual ↔ ∀ k : Setting, k.Text (k.get c) := by
  constructor
  · intro h k
    cases k with
    | logFile => exact fun q hq => h q (Or.inl hq)
    | wrapper => exact fun q hq => h q (Or.inr (Or.inl hq))
    | directory place => exact fun q hq => h q (Or.inr (Or.inr ⟨place, hq⟩))
    | dry | outputLogLevel | fileLogLevel | console | arguments => trivial
  · rintro h p (hp | hp | ⟨place, hp⟩)
    · exact h .logFile p hp
    · exact h .wrapper p hp
    · exact h (.directory place) p hp

/-! ### One setting -/

theorem readLevel?_toNat (l : Log.Level) : readLevel? (.scalar (.integer l.toNat)) = some l :=
  Log.Level.ofNat?_eq_some_iff.2 rfl

theorem readTexts?_texts (args : List String) :
    readTexts? (.list (args.map fun a => .scalar (.text a))) = some args := by
  show (args.map fun a => Document.scalar (.text a)).mapM readText? = some args
  induction args with
  | nil => rfl
  | cons a args ih => simp [List.mapM_cons, readText?, ih]

theorem readOption?_display {p : Path} (hp : ∃ s, p = .ofText s) :
    readOption? readPath? (.scalar (.text p.display)) = some (some p) := by
  obtain ⟨s, rfl⟩ := hp
  simp [readOption?, readPath?, readText?]

/-- A setting of texts is read back from what is written for it, and one for which nothing is written has its
default. -/
theorem Setting.read?_written {k : Setting} {x : k.Kind} (hx : k.Text x) :
    (match k.written x with | some d => k.read? d | none => some k.builtIn) = some x := by
  cases k with
  | dry => rfl
  | outputLogLevel => exact readLevel?_toNat x
  | fileLogLevel =>
    cases x with
    | none => rfl
    | some l => exact congrArg (Option.map some) (readLevel?_toNat l)
  | logFile | directory | wrapper =>
    cases x with
    | none => rfl
    | some p => exact readOption?_display (hx p rfl)
  | console => cases x <;> rfl
  | arguments =>
    cases x with
    | nil => rfl
    | cons a args => exact readTexts?_texts (a :: args)

/-- Nothing is written for a setting exactly if it may be left out and has its default. -/
theorem Setting.written_eq_none_iff {k : Setting} {x : k.Kind} :
    k.written x = none ↔ k.mayBeLeftOut = true ∧ x = k.builtIn := by
  cases k with
  | dry | outputLogLevel | console => simp [written, mayBeLeftOut]
  | fileLogLevel | logFile | directory | wrapper => simp [written, mayBeLeftOut, builtIn]
  | arguments => cases x <;> simp [written, mayBeLeftOut, builtIn]

/-- Whatever is read for a setting is text. -/
theorem Setting.text_of_read? {k : Setting} {x : k.Kind} (h : k.read? d = some x) : k.Text x := by
  have hpath {o : Option Path} (ho : readOption? readPath? d = some o) (q : Path) (hq : o = some q) :
      ∃ s, q = .ofText s := by
    subst hq
    unfold readOption? at ho
    split at ho
    · cases ho
    · obtain ⟨p, hp, hq⟩ := Option.map_eq_some_iff.1 ho
      obtain rfl := Option.some.inj hq
      obtain ⟨s, -, rfl⟩ := Option.map_eq_some_iff.1 hp
      exact ⟨s, rfl⟩
  cases k with
  | logFile | directory | wrapper => exact hpath h
  | dry | outputLogLevel | fileLogLevel | console | arguments => trivial

theorem Setting.text_builtIn (k : Setting) : k.Text k.builtIn := by
  cases k with
  | logFile | directory | wrapper => exact fun q hq => nomatch hq
  | dry | outputLogLevel | fileLogLevel | console | arguments => trivial

/-! ### The written form -/

/-- The fields of some settings. -/
def writtenFields (ks : List Setting) (c : Config) : List (String × Document) :=
  ks.flatMap fun k => (k.written (k.get c)).toList.map fun d => (k.name, d)

/-- The settings of a section, in the order in which they are written. -/
def settingsOf (title : String) : List Setting := Setting.all.filter (·.title = title)

private theorem lookup_toList (o : Option Document) (name other : String) (rest : List (String × Document)) :
    ((o.toList.map fun d => (name, d)) ++ rest).lookup other =
      if other = name then o <|> rest.lookup other else rest.lookup other := by
  cases o with
  | none => simp
  | some d =>
    by_cases h : other = name
    · simp [h]
    · have hb : (other == name) = false := by simpa using h
      simp [List.lookup_cons, hb, h]

private theorem lookup_absent {ks : List Setting} {name : String} (h : name ∉ ks.map Setting.name) :
    (writtenFields ks c).lookup name = none := by
  induction ks with
  | nil => rfl
  | cons k ks ih =>
    rw [List.map_cons, List.mem_cons, not_or] at h
    rw [writtenFields, List.flatMap_cons, lookup_toList, if_neg h.1]
    exact ih h.2

/-- A field holds what is written for its setting. -/
theorem lookup_writtenFields {ks : List Setting} (hks : (ks.map Setting.name).Nodup) {k : Setting} (hk : k ∈ ks) :
    (writtenFields ks c).lookup k.name = k.written (k.get c) := by
  induction ks with
  | nil => cases hk
  | cons k' ks ih =>
    rw [List.map_cons, List.nodup_cons] at hks
    rw [writtenFields, List.flatMap_cons, lookup_toList]
    rcases List.mem_cons.1 hk with rfl | hmem
    · have habsent : (writtenFields ks c).lookup k.name = none := lookup_absent hks.1
      rw [if_pos rfl]
      unfold writtenFields at habsent
      cases k.written (k.get c) <;> simp [habsent]
    · have hne : k.name ≠ k'.name := fun h => hks.1 (h ▸ List.mem_map_of_mem hmem)
      rw [if_neg hne]
      exact ih hks.2 hmem

/-- Only settings have fields. -/
theorem mem_writtenFields {ks : List Setting} {f : String × Document} (hf : f ∈ writtenFields ks c) :
    f.1 ∈ ks.map Setting.name := by
  obtain ⟨k, hk, hf⟩ := List.mem_flatMap.1 hf
  obtain ⟨d, -, rfl⟩ := List.mem_map.1 hf
  exact List.mem_map_of_mem hk

/-- Every section is written setting by setting. -/
theorem toDocument_eq (c : Config) :
    toDocument c = .table (sectionNames.map fun title => (title, .table (writtenFields (settingsOf title) c))) := by
  have hglobal : writeGlobal c.globals = .table (writtenFields (settingsOf "global") c) := by
    show writeGlobal c.globals = .table (writtenFields [.dry, .outputLogLevel, .fileLogLevel, .logFile] c)
    unfold writtenFields
    simp only [List.flatMap_cons, List.flatMap_nil, Setting.get, Setting.written]
    rcases c.globals with ⟨dry, outputLogLevel, _ | fileLogLevel, _ | logFile⟩ <;> rfl
  have hpaths : writePaths c.paths = .table (writtenFields (settingsOf "paths") c) := by
    have hwritten : writtenFields (settingsOf "paths") c =
        GradleBuild.Place.all.flatMap fun place =>
          ((Setting.directory place).written (c.paths.get place)).toList.map fun d => (place.key, d) := rfl
    rw [hwritten]
    refine congrArg Document.table (List.flatMap_congr fun place _ => ?_)
    cases c.paths.get place <;> rfl
  have hgradle : writeGradle c.gradle = .table (writtenFields (settingsOf "gradle") c) := by
    show writeGradle c.gradle = .table (writtenFields [.wrapper, .console, .arguments] c)
    unfold writtenFields
    simp only [List.flatMap_cons, List.flatMap_nil, Setting.get, Setting.written]
    rcases c.gradle with ⟨_ | wrapper, console, _ | ⟨arg, args⟩⟩ <;> rfl
  rw [toDocument, hglobal, hpaths, hgradle]
  rfl

private theorem mem_settingsOf (k : Setting) : k ∈ settingsOf k.title :=
  List.mem_filter.2 ⟨k.mem_all, by simp⟩

private theorem nodup_settingsOf : ∀ title ∈ sectionNames, ((settingsOf title).map Setting.name).Nodup := by
  decide +kernel

private theorem childOf?_toDocument (h : title ∈ sectionNames) :
    childOf? (toDocument c) title = some (.table (writtenFields (settingsOf title) c)) := by
  rw [toDocument_eq]
  simp only [sectionNames, List.mem_cons, List.not_mem_nil, or_false] at h
  rcases h with rfl | rfl | rfl <;> rfl

/-- The field of a setting in the written form is what is written for it. -/
theorem field?_toDocument (c : Config) (k : Setting) : k.field? (toDocument c) = k.written (k.get c) := by
  rw [Setting.field?, childOf?_toDocument k.title_mem]
  exact lookup_writtenFields (nodup_settingsOf _ k.title_mem) (mem_settingsOf k)

/-! ### Reading setting by setting -/

theorem readGlobal?_eq_some : readGlobal? d = some c.globals ↔ ∃ fields, readFields? globalKeys d = some fields ∧
    ∀ k : Setting, k.title = "global" → k.ReadFrom fields (k.get c) := by
  unfold Setting.ReadFrom
  constructor
  · intro h
    obtain ⟨globals, paths, gradle⟩ := c
    simp only [readGlobal?, bind, Option.bind_eq_some_iff] at h
    obtain ⟨fields, hfields, dry, h₁, outputLogLevel, h₂, fileLogLevel, h₃, logFile, h₄, h⟩ := h
    obtain rfl := Option.some.inj h
    refine ⟨fields, hfields, fun k hk => ?_⟩
    cases k with
    | dry => exact h₁
    | outputLogLevel => exact h₂
    | fileLogLevel => exact h₃
    | logFile => exact h₄
    | directory | wrapper | console | arguments => simp [Setting.title] at hk
  · rintro ⟨fields, hfields, h⟩
    have h₁ := h .dry rfl
    have h₂ := h .outputLogLevel rfl
    have h₃ := h .fileLogLevel rfl
    have h₄ := h .logFile rfl
    simp only [Setting.name, Setting.builtIn, Setting.read?, Setting.get] at h₁ h₂ h₃ h₄
    simp [readGlobal?, hfields, h₁, h₂, h₃, h₄]

theorem readPaths?_eq_some : readPaths? d = some c.paths ↔ ∃ fields, readFields? pathKeys d = some fields ∧
    ∀ k : Setting, k.title = "paths" → k.ReadFrom fields (k.get c) := by
  unfold Setting.ReadFrom
  constructor
  · intro h
    obtain ⟨globals, paths, gradle⟩ := c
    simp only [readPaths?, bind, Option.bind_eq_some_iff] at h
    obtain ⟨fields, hfields, _, h₁, _, h₂, _, h₃, _, h₄, _, h₅, _, h₆, _, h₇, _, h₈, h⟩ := h
    obtain rfl := Option.some.inj h
    refine ⟨fields, hfields, fun k hk => ?_⟩
    cases k with
    | directory place => cases place <;> assumption
    | dry | outputLogLevel | fileLogLevel | logFile | wrapper | console | arguments => simp [Setting.title] at hk
  · rintro ⟨fields, hfields, h⟩
    have hplace (place : GradleBuild.Place) :
        readField? fields place.key none (readOption? readPath?) = some (c.paths.get place) := h (.directory place) rfl
    simp [readPaths?, hfields, hplace, PathsConfig.get]

theorem readGradle?_eq_some : readGradle? d = some c.gradle ↔ ∃ fields, readFields? gradleKeys d = some fields ∧
    ∀ k : Setting, k.title = "gradle" → k.ReadFrom fields (k.get c) := by
  unfold Setting.ReadFrom
  constructor
  · intro h
    obtain ⟨globals, paths, gradle⟩ := c
    simp only [readGradle?, bind, Option.bind_eq_some_iff] at h
    obtain ⟨fields, hfields, wrapper, h₁, console, h₂, args, h₃, h⟩ := h
    obtain rfl := Option.some.inj h
    refine ⟨fields, hfields, fun k hk => ?_⟩
    cases k with
    | wrapper => exact h₁
    | console => exact h₂
    | arguments => exact h₃
    | dry | outputLogLevel | fileLogLevel | logFile | directory => simp [Setting.title] at hk
  · rintro ⟨fields, hfields, h⟩
    have h₁ := h .wrapper rfl
    have h₂ := h .console rfl
    have h₃ := h .arguments rfl
    simp only [Setting.name, Setting.builtIn, Setting.read?, Setting.get] at h₁ h₂ h₃
    simp [readGradle?, hfields, h₁, h₂, h₃]

theorem ofDocument?_eq_some : ofDocument? d = some c ↔ ∃ fields, readFields? sectionNames d = some fields ∧
    readField? fields "global" {} readGlobal? = some c.globals ∧
    readField? fields "paths" {} readPaths? = some c.paths ∧
    readField? fields "gradle" {} readGradle? = some c.gradle := by
  constructor
  · intro h
    simp only [ofDocument?, bind, Option.bind_eq_some_iff] at h
    obtain ⟨fields, hfields, globals, h₁, paths, h₂, gradle, h₃, h⟩ := h
    obtain ⟨⟩ := Option.some.inj h
    exact ⟨fields, hfields, h₁, h₂, h₃⟩
  · rintro ⟨fields, hfields, h₁, h₂, h₃⟩
    simp [ofDocument?, hfields, h₁, h₂, h₃]

/-! ### Round trips -/

private theorem readFields?_table {known : List String} (h : ∀ f ∈ fields, f.1 ∈ known) :
    readFields? known (.table fields) = some fields := by
  rw [readFields?, if_pos (List.all_eq_true.2 fun f hf => List.contains_iff_mem.2 (h f hf))]

private theorem readFrom_writtenFields (hc : c.Textual) (k : Setting) :
    k.ReadFrom (writtenFields (settingsOf k.title) c) (k.get c) := by
  have hread := Setting.read?_written (textual_iff.1 hc k)
  unfold Setting.ReadFrom readField?
  rw [lookup_writtenFields (nodup_settingsOf _ k.title_mem) (mem_settingsOf k)]
  cases hwritten : k.written (k.get c) <;> simpa [hwritten] using hread

/-- A configuration whose paths are texts is read back from its written form. -/
theorem ofDocument?_toDocument (hc : c.Textual) : ofDocument? (toDocument c) = some c := by
  have hknown (title : String) (f) (hf : f ∈ writtenFields (settingsOf title) c) :
      f.1 ∈ (settingsOf title).map Setting.name := mem_writtenFields hf
  have hnames : (settingsOf "global").map Setting.name = globalKeys ∧
      (settingsOf "paths").map Setting.name = pathKeys ∧ (settingsOf "gradle").map Setting.name = gradleKeys := by
    decide +kernel
  have hglobal : readGlobal? (.table (writtenFields (settingsOf "global") c)) = some c.globals :=
    readGlobal?_eq_some.2 ⟨_, readFields?_table (hnames.1 ▸ hknown "global"),
      fun k hk => hk ▸ readFrom_writtenFields hc k⟩
  have hpaths : readPaths? (.table (writtenFields (settingsOf "paths") c)) = some c.paths :=
    readPaths?_eq_some.2 ⟨_, readFields?_table (hnames.2.1 ▸ hknown "paths"),
      fun k hk => hk ▸ readFrom_writtenFields hc k⟩
  have hgradle : readGradle? (.table (writtenFields (settingsOf "gradle") c)) = some c.gradle :=
    readGradle?_eq_some.2 ⟨_, readFields?_table (hnames.2.2 ▸ hknown "gradle"),
      fun k hk => hk ▸ readFrom_writtenFields hc k⟩
  rw [toDocument_eq]
  refine ofDocument?_eq_some.2 ⟨_, readFields?_table fun f hf => ?_, hglobal, hpaths, hgradle⟩
  obtain ⟨title, htitle, rfl⟩ := List.mem_map.1 hf
  exact htitle

private theorem get_of_section {α : Type} {x default : α} {read : Document → Option α}
    (h : readField? fields title default read = some x) : x = default ∨ ∃ d, read d = some x := by
  unfold readField? at h
  split at h
  · exact Or.inr ⟨_, h⟩
  · exact Or.inl (Option.some.inj h).symm

/-- A setting that is read has its default or comes from some document. -/
theorem get_of_ofDocument? (h : ofDocument? d = some c) (k : Setting) :
    k.get c = k.builtIn ∨ ∃ d', k.read? d' = some (k.get c) := by
  obtain ⟨fields, -, h₁, h₂, h₃⟩ := ofDocument?_eq_some.1 h
  have hfrom {fields : List (String × Document)} (hread : k.ReadFrom fields (k.get c)) :
      k.get c = k.builtIn ∨ ∃ d', k.read? d' = some (k.get c) := get_of_section hread
  have htitle := k.title_mem
  simp only [sectionNames, List.mem_cons, List.not_mem_nil, or_false] at htitle
  rcases htitle with htitle | htitle | htitle
  · rcases get_of_section h₁ with hdefault | ⟨d', hd'⟩
    · left
      cases k <;> simp_all [Setting.title, Setting.get, Setting.builtIn]
    · obtain ⟨fields, -, hread⟩ := readGlobal?_eq_some.1 hd'
      exact hfrom (hread k htitle)
  · rcases get_of_section h₂ with hdefault | ⟨d', hd'⟩
    · left
      cases k with
      | directory place => rw [Setting.get, hdefault]; cases place <;> rfl
      | _ => simp [Setting.title] at htitle
    · obtain ⟨fields, -, hread⟩ := readPaths?_eq_some.1 hd'
      exact hfrom (hread k htitle)
  · rcases get_of_section h₃ with hdefault | ⟨d', hd'⟩
    · left
      cases k <;> simp_all [Setting.title, Setting.get, Setting.builtIn]
    · obtain ⟨fields, -, hread⟩ := readGradle?_eq_some.1 hd'
      exact hfrom (hread k htitle)

/-- Whatever is read has texts for its paths. -/
theorem textual_of_ofDocument? (h : ofDocument? d = some c) : c.Textual := by
  refine textual_iff.2 fun k => ?_
  rcases get_of_ofDocument? h k with hdefault | ⟨d', hread⟩
  · exact hdefault ▸ k.text_builtIn
  · exact Setting.text_of_read? hread

/-- The configurations that are read back from their written forms are those of texts, to which every document that can
be read leads at once; written forms leave out exactly the options that are not set and an empty row of arguments. -/
theorem written_forms :
    (∀ c : Config, ofDocument? (toDocument c) = some c ↔ c.Textual) ∧
    (∀ d c, ofDocument? d = some c → ofDocument? (toDocument c) = some c) ∧
    ∀ (c : Config) (k : Setting),
      k.field? (toDocument c) = none ↔ k.mayBeLeftOut = true ∧ k.get c = k.builtIn := by
  refine ⟨fun c => ⟨textual_of_ofDocument?, ofDocument?_toDocument⟩,
    fun d c h => ofDocument?_toDocument (textual_of_ofDocument? h), fun c k => ?_⟩
  rw [field?_toDocument]
  exact Setting.written_eq_none_iff

/-- A configuration for dry runs with a log file. -/
def rehearsal : Config := { globals := { dry := true, logFile := some (.ofText "p/ä") } }

/-- It is read from its fields without their names, and again from its written form, where a path that is no text
would be lost. -/
theorem written_forms_rehearsal :
    rehearsal.Textual ∧
    ofDocument? (.list [.list [.scalar (.bool true), .scalar (.integer 3), .scalar .null, .scalar (.text "p/ä")]]) =
      some rehearsal ∧
    ofDocument? (toDocument rehearsal) = some rehearsal ∧
    Setting.field? .fileLogLevel (toDocument rehearsal) = none ∧
    ofDocument? (toDocument { gradle := { wrapper := some ⟨[0xFF]⟩ } }) ≠
      some { gradle := { wrapper := some ⟨[0xFF]⟩ } } := by
  have hread : ofDocument?
      (.list [.list [.scalar (.bool true), .scalar (.integer 3), .scalar .null, .scalar (.text "p/ä")]]) =
        some rehearsal := by decide +kernel
  have hagain := written_forms.2.1 _ _ hread
  refine ⟨(written_forms.1 _).1 hagain, hread, hagain, (written_forms.2.2 _ _).2 ⟨rfl, rfl⟩, by decide +kernel⟩

end GradleBuild.Config
