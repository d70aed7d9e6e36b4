import GradleBuild.Proofs.Flags
import GradleBuild.Proofs.LevelOptions
import GradleBuild.Proofs.SourceTexts

/-!
# Log levels from all sources

The level of a channel of the log can be given by an integer in a file, by an override, by a variable and by an option
of its own.  An integer of any size, written in decimal, is taken alike from all of them: just if it is a level, and
then as that level.  Only a variable is lenient: a negative integer that does not fit 64 bits is a number for it, and
rounded to 0.

* `config?_iff`: what is loaded with one more value for a level.
* `load_levels`: what is loaded with an integer from each of the sources.
* `load_levels_saturated`: a negative integer from a variable turns a channel off.
-/

namespace GradleBuild

namespace Log.Channel

/-- The setting for the level of a channel. -/
def setting : Channel → Config.Setting
  | console => .outputLogLevel
  | file => .fileLogLevel

/-- The configuration with another level for a channel. -/
def put (ch : Channel) (l : Level) (c : Config) : Config :=
  match ch with
  | console => { c with globals.outputLogLevel := l }
  | file => { c with globals.fileLogLevel := some l }

end Log.Channel

namespace Config

open Key (overlay)

variable {ch : Log.Channel} {n : Int} {i i' : Inputs} {loaded : LoadedConfig} {c c' : Config} {v : Value}
  {entry : String} {before after : List String} {pairs pairs' : List (Key × Value)} {o : Options}

/-- The configuration of a run, if it has one. -/
def Inputs.config? (i : Inputs) : Option Config := i.load.toOption.map (·.config)

/-- The configuration of a run with other arguments. -/
def Inputs.configFor? (i : Inputs) (args : List Bytes) : Option Config :=
  (Arguments.parse args).toOption.bind fun y => { i with options := y.1 }.config?

/-- A result is the configuration with the level `n` for a channel, and with all else as in `c`, just if there is such
a level. -/
structure Takes (ch : Log.Channel) (n : Int) (c : Config) (r : Option Config) : Prop where
  accepted : r.isSome = true ↔ 0 ≤ n ∧ n ≤ 5
  level : ∀ c', r = some c' → ∃ l : Log.Level, (l.toNat : Int) = n ∧ c' = ch.put l c

theorem takes_of_iff {r : Option Config}
    (h : ∀ c', r = some c' ↔ ∃ l : Log.Level, (l.toNat : Int) = n ∧ c' = ch.put l c) : Takes ch n c r := by
  refine ⟨?_, fun c' hc' => (h c').1 hc'⟩
  rw [← Decimal.exists_level_iff, Option.isSome_iff_exists]
  constructor
  · rintro ⟨c', hc'⟩
    obtain ⟨l, hl, -⟩ := (h c').1 hc'
    exact ⟨l, hl⟩
  · rintro ⟨l, hl⟩
    exact ⟨_, (h _).2 ⟨l, hl, rfl⟩⟩

theorem Takes.eq_some {r : Option Config} (h : Takes ch n c r) {l : Log.Level} (hl : (l.toNat : Int) = n) :
    r = some (ch.put l c) := by
  obtain ⟨c', hc'⟩ := Option.isSome_iff_exists.1 (h.accepted.2 (Decimal.exists_level_iff.1 ⟨l, hl⟩))
  obtain ⟨l', hl', rfl⟩ := h.level c' hc'
  have hsame : l' = l := by
    have hnat : l'.toNat = l.toNat := by omega
    exact Option.some.inj ((Log.Level.ofNat?_eq_some_iff.2 hnat).symm.trans (Log.Level.ofNat?_eq_some_iff.2 rfl))
  rw [hc', hsame]

/-! ### One more value for a level -/

private theorem want_iff (hv : ∀ o, v ≠ .scalar o .null) (hvalid : c.validate = .ok ()) :
    (∃ x, ch.setting.want v = .ok x ∧ c' = ch.setting.put x c ∧ c'.validate = .ok ()) ↔
      ∃ l, wantLevel v = .ok l ∧ c' = ch.put l c := by
  cases ch with
  | console =>
    constructor
    · rintro ⟨l, hl, rfl, -⟩
      exact ⟨l, hl, rfl⟩
    · rintro ⟨l, hl, rfl⟩
      exact ⟨l, hl, rfl, hvalid⟩
  | file =>
    have hoption : wantOption wantLevel v = (wantLevel v).map some := by
      unfold wantOption
      split
      · exact absurd rfl (hv _)
      · cases wantLevel v <;> rfl
    show (∃ x, wantOption wantLevel v = .ok x ∧ _) ↔ _
    rw [hoption]
    constructor
    · rintro ⟨x, hx, rfl, -⟩
      cases hl : wantLevel v with
      | error =>
        rw [hl] at hx
        cases hx
      | ok l =>
        rw [hl] at hx
        obtain rfl := Except.ok.inj hx
        exact ⟨l, rfl, rfl⟩
    · rintro ⟨l, hl, rfl⟩
      exact ⟨some l, by rw [hl]; rfl, rfl, hvalid⟩

/-- What a run loads that differs from another in one more value for a level. -/
theorem config?_iff (h : i.load = .ok loaded) (hfree : i.loader.leaves ch.setting i.tree i.cwd i.environment = true)
    (hread : i'.Readable) (hdir : i'.dir = i.dir)
    (hpairs : i.loader.assignments i.tree i.cwd i.environment = .ok pairs)
    (hpairs' : i'.loader.assignments i'.tree i'.cwd i'.environment = .ok pairs')
    (hgiven : Given ch.setting v (Loader.assignAll pairs (.table none [])) (Loader.assignAll pairs' (.table none [])))
    (hv : ∀ o, v ≠ .scalar o .null) :
    i'.config? = some c' ↔ ∃ l, wantLevel v = .ok l ∧ c' = ch.put l loaded.config := by
  have hput (l : Log.Level) (c : Config) : rooted i.dir (ch.put l c) = ch.put l (rooted i.dir c) := by cases ch <;> rfl
  obtain ⟨c, hbuild, rfl⟩ := Inputs.build_of_load h
  obtain ⟨-, -, -, hvalid⟩ := build_eq_ok.1 hbuild
  have hiff {c₁ : Config} : i'.loader.build i'.tree i'.cwd i'.environment = .ok c₁ ↔
      ∃ l, wantLevel v = .ok l ∧ c₁ = ch.put l c :=
    (build_given_iff hbuild hfree hpairs hpairs' hgiven).trans (want_iff hv hvalid)
  unfold Inputs.config?
  rw [Inputs.load_eq_build hread, hdir]
  cases hbuild' : i'.loader.build i'.tree i'.cwd i'.environment with
  | error e =>
    refine iff_of_false (by rintro ⟨⟩) ?_
    rintro ⟨l, hl, -⟩
    have := hiff.2 ⟨l, hl, rfl⟩
    rw [hbuild'] at this
    cases this
  | ok c₁ =>
    obtain ⟨l₁, hl₁, rfl⟩ := hiff.1 hbuild'
    constructor
    · intro heq
      obtain rfl := Option.some.inj heq
      exact ⟨l₁, hl₁, hput l₁ c⟩
    · rintro ⟨l, hl, rfl⟩
      obtain rfl := Except.ok.inj (hl₁.symm.trans hl)
      exact congrArg some (hput l₁ c)

private theorem exists_assignments (h : i.load = .ok loaded) :
    ∃ pairs, i.loader.assignments i.tree i.cwd i.environment = .ok pairs := by
  obtain ⟨c, hbuild, -⟩ := Inputs.build_of_load h
  obtain ⟨pairs, hpairs, -⟩ := build_eq_ok.1 hbuild
  exact ⟨pairs, hpairs⟩

/-! ### Overrides -/

/-- Other overrides do not matter to the layers below them. -/
private theorem loader_withOptions (hconfigs : o.configs = i.options.configs)
    (hroot : o.projectRoot = i.options.projectRoot) :
    { i with options := o }.loader = { i.loader with overrides := { i with options := o }.overriding } := by
  have hbelow : { i with options := o }.below = i.below := by
    unfold Inputs.below
    rw [root_withOptions hroot, hconfigs]
  unfold Inputs.loader
  rw [hbelow]

private theorem readable_withOptions (h : i.Readable) (he : i.options.overrides = before ++ after)
    (he' : o.overrides = before ++ entry :: after) (hentry : (override? entry).isSome = true) :
    { i with options := o }.Readable := by
  intro e hmem
  have hmem' : e ∈ before ++ entry :: after := he' ▸ hmem
  rcases List.mem_append.1 hmem' with hb | ha
  · exact h e (he ▸ List.mem_append_left _ hb)
  · rcases List.mem_cons.1 ha with rfl | ha
    · exact hentry
    · exact h e (he ▸ List.mem_append_right _ ha)

/-- A level among the overrides of a run that nothing else touches is taken as it is. -/
private theorem takes_override (h : i.load = .ok loaded)
    (hfree : i.loader.leaves ch.setting i.tree i.cwd i.environment = true)
    (he : i.options.overrides = before ++ after) (he' : o.overrides = before ++ entry :: after)
    (hentry : override? entry = some (ch.setting.key, .text (toString n)))
    (hroot : o.projectRoot = i.options.projectRoot) (hconfigs : o.configs = i.options.configs) :
    Takes ch n loaded.config { i with options := o }.config? := by
  have hread := Inputs.readable_of_load h
  have hkey : ch.setting.key ≠ (Setting.directory .projectRoot).key := by cases ch <;> decide
  have hloader := loader_withOptions hconfigs hroot
  obtain ⟨pairs, hpairs⟩ := exists_assignments h
  have huntouched := leaves_ok hfree hpairs
  obtain ⟨contents, values, hcontents, hvalues, rfl⟩ := assignments_eq_ok.1 hpairs
  have hnone : ∀ a ∈ i.overriding, a.1 ≠ ch.setting.key := fun a ha =>
    ne_key_of_touches (huntouched a (List.mem_append_right _ ha))
  have hinserted := inserted_overriding he he' hentry hroot hkey hnone
  have hpairs' : { i with options := o }.loader.assignments i.tree i.cwd i.environment =
      .ok (i.loader.defaults ++ assigned contents.flatten ++ assigned values ++ { i with options := o }.overriding) := by
    rw [hloader]
    exact assignments_eq_ok.2 ⟨contents, values, hcontents, hvalues, rfl⟩
  have hgiven := (hinserted.append_left _).given (fun _ => by rw [Value.text, overlay]) huntouched (.table none [])
  have hread' : { i with options := o }.Readable := readable_withOptions hread he he' (by rw [hentry]; rfl)
  refine takes_of_iff fun c' => ?_
  rw [config?_iff h hfree hread' rfl hpairs hpairs' hgiven (by rintro o ⟨⟩)]
  simp only [Value.text, Decimal.wantLevel_text]

private theorem override?_level {space space' : String} {separator : Char} (hb : isAllBlank space = true)
    (hs : separator ∈ ['.', '/']) (ha : isAllBlank space' = true) (ch : Log.Channel) (n : Int) :
    override? (ch.setting.spelled space separator space' (toString n)) =
      some (ch.setting.key, .text (toString n)) := by
  have hlist : listKeys.contains ch.setting.text = false := by cases ch <;> decide
  rw [override?_spelled hb hs ha, Decimal.trim_eq, Loader.overrideValue, hlist]
  rfl

private theorem takes_setting (h : i.load = .ok loaded)
    (hfree : i.loader.leaves ch.setting i.tree i.cwd i.environment = true)
    (he : i.options.settings = before ++ after) (hentry : override? entry = some (ch.setting.key, .text (toString n))) :
    Takes ch n loaded.config { i with options.settings := before ++ entry :: after }.config? := by
  have hoverrides (settings : List String) : { i.options with settings }.overrides =
      settings ++ (flags i.options).map flagEntry := overrides_flags _
  have he' : i.options.overrides = before ++ (after ++ (flags i.options).map flagEntry) := by
    rw [overrides_flags, he, List.append_assoc]
  refine takes_override (o := { i.options with settings := before ++ entry :: after }) h hfree he' ?_ hentry rfl rfl
  rw [hoverrides, List.append_assoc]
  rfl

/-! ### Files and variables -/

private theorem takes_file (h : i.load = .ok loaded)
    (hfree : i.loader.leaves ch.setting i.tree i.cwd i.environment = true)
    (hadds : i.AddsInFile ch.setting (.ofInt n) i') : Takes ch n loaded.config i'.config? := by
  by_cases hn : fitsInt64 n = true
  · have hfit : (Toml.Value.ofInt n).toDocument = .ok (.scalar (.integer n)) := by
      rw [Decimal.ofInt_of_fits hn]
      rfl
    obtain ⟨pairs, hpairs⟩ := exists_assignments h
    obtain ⟨o, pairs', hpairs', hgiven⟩ := hadds.assignments hfit (fun _ _ => by rw [Value.ofDocument, overlay]) hfree
      hpairs
    have hread : i'.Readable := by
      unfold Inputs.Readable
      rw [hadds.options]
      exact Inputs.readable_of_load h
    refine takes_of_iff fun c' => ?_
    rw [config?_iff h hfree hread hadds.dir hpairs hpairs' hgiven (by rintro o ⟨⟩), Value.ofDocument]
    simp only [Decimal.wantLevel_integer]
  · obtain ⟨fault, hunfit⟩ := Decimal.ofInt_of_not_fits hn
    have hfault : (Toml.Value.ofInt n).toDocument = .error fault := by
      rw [hunfit]
      rfl
    have hnone : i'.config? = none := by
      unfold Inputs.config?
      cases hload : i'.load with
      | error => rfl
      | ok loaded' => exact absurd hload (hadds.not_loaded hfault)
    rw [hnone]
    refine takes_of_iff fun c' => iff_of_false (by rintro ⟨⟩) ?_
    rintro ⟨l, hl, -⟩
    exact hn (Decimal.fits_of_level hl)

private theorem config?_variable {front back : Environment} (h : i.load = .ok loaded)
    (hfree : i.loader.leaves ch.setting i.tree i.cwd i.environment = true) (he : i.environment = front ++ back) :
    { i with environment := front ++ (ch.setting.variableName, encode (toString n)) :: back }.config? = some c' ↔
      ∃ l, wantLevel (guess ch.setting.text (toString n)) = .ok l ∧ c' = ch.put l loaded.config := by
  obtain ⟨pairs, hpairs⟩ := exists_assignments h
  have hstart : i.loader.environmentPrefix = some environmentPrefix := by rw [Inputs.loader_eq]
  have hpairs₀ := hpairs
  have hfree₀ := hfree
  rw [he] at hpairs₀ hfree₀
  obtain ⟨pairs', hpairs', hgiven⟩ := assignments_variable (toString n) hstart hfree₀ hpairs₀
  have hscalar : ∀ o, guess ch.setting.text (toString n) ≠ .scalar o .null := by
    rw [Decimal.guess_eq]
    split <;> rintro o ⟨⟩
  have hread := Inputs.readable_of_load h
  exact config?_iff h hfree hread rfl hpairs hpairs' hgiven hscalar

/-! ### The option -/

private theorem exists_flags_give (h : ch.level o = none) (m : Nat) : ∃ front back,
    flags o = front ++ back ∧ flags (ch.give (some m) o) = front ++ (ch.setting, toString m) :: back := by
  cases ch with
  | console =>
    have hnone : o.logLevel = none := h
    refine ⟨[], flags o, rfl, ?_⟩
    unfold flags
    rw [hnone]
    rfl
  | file =>
    have hnone : o.fileLogLevel = none := h
    refine ⟨o.logLevel.toList.map (fun n => (.outputLogLevel, toString n)),
      o.logFile.toList.map (fun p => (.logFile, p.display)) ++ if o.dry then [(.dry, "true")] else [], ?_, ?_⟩
    · unfold flags
      rw [hnone]
      simp
    · unfold flags
      simp [Log.Channel.give, Log.Channel.setting]
      rfl

/-- A channel that nothing touches has no level from its option. -/
private theorem level_of_leaves (h : i.load = .ok loaded)
    (hfree : i.loader.leaves ch.setting i.tree i.cwd i.environment = true) : ch.level i.options = none := by
  obtain ⟨pairs, hpairs⟩ := exists_assignments h
  have huntouched := leaves_ok hfree hpairs
  obtain ⟨contents, values, -, -, rfl⟩ := assignments_eq_ok.1 hpairs
  cases hlevel : ch.level i.options with
  | none => rfl
  | some m =>
    have hflag : (ch.setting, toString m) ∈ flags i.options := by
      cases ch with
      | console =>
        have hsome : i.options.logLevel = some m := hlevel
        simp [flags, hsome, Log.Channel.setting]
      | file =>
        have hsome : i.options.fileLogLevel = some m := hlevel
        simp [flags, hsome, Log.Channel.setting]
    exact absurd rfl (ne_key_of_touches (huntouched _ (List.mem_append_right _ (flag_mem_overriding hflag))))

private theorem takes_option (h : i.load = .ok loaded)
    (hfree : i.loader.leaves ch.setting i.tree i.cwd i.environment = true) {args : List Bytes} {r : Request}
    (hparse : Arguments.parse args = if 0 ≤ n ∧ n ≤ 5 then .ok (ch.give (some n.toNat) i.options, r)
      else .error (.invalidLevel ch.option (toString n))) : Takes ch n loaded.config (i.configFor? args) := by
  unfold Inputs.configFor?
  rw [hparse]
  by_cases hn : 0 ≤ n ∧ n ≤ 5
  · obtain ⟨m, rfl⟩ := Int.eq_ofNat_of_zero_le hn.1
    rw [if_pos hn, Int.toNat_natCast]
    show Takes ch m loaded.config { i with options := ch.give (some m) i.options }.config?
    obtain ⟨front, back, hflags, hflags'⟩ := exists_flags_give (level_of_leaves h hfree) m
    have hkeep : (ch.give (some m) i.options).settings = i.options.settings ∧
        (ch.give (some m) i.options).projectRoot = i.options.projectRoot ∧
        (ch.give (some m) i.options).configs = i.options.configs := by
      cases ch <;> exact ⟨rfl, rfl, rfl⟩
    obtain ⟨hsettings, hroot, hconfigs⟩ := hkeep
    have he : i.options.overrides = (i.options.settings ++ front.map flagEntry) ++ back.map flagEntry := by
      rw [overrides_flags, hflags, List.map_append, List.append_assoc]
    have he' : (ch.give (some m) i.options).overrides = (i.options.settings ++ front.map flagEntry) ++
        flagEntry (ch.setting, toString m) :: back.map flagEntry := by
      rw [overrides_flags, hflags', hsettings, List.map_append, List.map_cons, List.append_assoc]
    exact takes_override h hfree he he' (override?_level rfl (by decide) rfl ch m) hroot hconfigs
  · rw [if_neg hn]
    exact ⟨iff_of_false (by rintro ⟨⟩) hn, fun c' => by rintro ⟨⟩⟩

/-! ### All sources -/

/-- Where nothing else touches the level of a channel, an integer is taken for it, or refused, as an integer in a file,
as an override, as a variable and as the option for it, just as it is a level or none.  But a variable with a negative
integer that does not fit 64 bits turns the channel off.  The log file has its own level if it is set, and else that of
the console. -/
theorem load_levels (i : Inputs) (loaded : LoadedConfig) (ch : Log.Channel) (n : Int) (h : i.load = .ok loaded)
    (hfree : i.loader.leaves ch.setting i.tree i.cwd i.environment = true) :
    (Toml.fields? (String.ofList (Toml.assignmentText ch.setting.title ch.setting.name (toString n).toList)) =
        some [(ch.setting.title, .table [(ch.setting.name, .ofInt n)])] ∧
      ∀ i', i.AddsInFile ch.setting (.ofInt n) i' → Takes ch n loaded.config i'.config?) ∧
    (∀ before after space separator space', i.options.settings = before ++ after →
      isAllBlank space = true → separator ∈ ['.', '/'] → isAllBlank space' = true →
      let entry := ch.setting.spelled space separator space' (toString n)
      Takes ch n loaded.config { i with options.settings := before ++ entry :: after }.config?) ∧
    (∀ front back, i.environment = front ++ back →
      let i' := { i with environment := front ++ (ch.setting.variableName, encode (toString n)) :: back }
      (-(Nat.pow 2 63 : Int) ≤ n → Takes ch n loaded.config i'.config?) ∧
        (n < -(Nat.pow 2 63 : Int) → i'.config? = some (ch.put .off loaded.config))) ∧
    (∀ program r ms ms' args args' ts, program ≠ encode "--" → List.Forall₂ Arguments.Spells ms args →
      List.Forall₂ Arguments.Spells ms' args' → (∀ m ∈ ms ++ ms', m.Fits ∧ m.Spares ch) →
      Arguments.Spells (.option ch.option (encode (toString n))) ts →
      Arguments.parse (program :: (args ++ args').flatten) = .ok (i.options, r) →
      Takes ch n loaded.config (i.configFor? (program :: (args ++ ts :: args').flatten))) ∧
    ∀ c : Config, c.logSettings.console = c.globals.outputLogLevel ∧
      c.logSettings.file = c.globals.fileLogLevel.getD c.globals.outputLogLevel := by
  refine ⟨⟨?_, fun i' hi' => takes_file h hfree hi'⟩, ?_, ?_, ?_, fun c => ⟨rfl, rfl⟩⟩
  · exact Toml.fields?_integer (isBare_title ch.setting) (isBare_name ch.setting) n
  · intro before after space separator space' he hb hs ha
    exact takes_setting h hfree he (override?_level hb hs ha ch n)
  · intro front back he
    refine ⟨fun hn => takes_of_iff fun c' => ?_, fun hn => ?_⟩
    · rw [config?_variable h hfree he]
      simp only [Decimal.wantLevel_guess _ hn]
    · exact (config?_variable h hfree he).2 ⟨.off, Decimal.wantLevel_guess_small _ hn, rfl⟩
  · intro program r ms ms' args args' ts hprogram hms hms' hm hts hparse
    exact takes_option h hfree (Arguments.parse_level hprogram hms hms' (fun m hmem => (hm m hmem).1)
      (fun m hmem => (hm m hmem).2) hts hparse)

/-- A project with nothing but a file, which gives the log file the level 4. -/
def Inputs.levelled : Inputs :=
  { Inputs.bare with tree := .ofEntries [([encode "p"], .directory),
    ([encode "p", encode "scp-build.toml"], .file (encode "[global]\nfile_log_level = 4\n") false)] }

private theorem adds_levelled : Inputs.bare.AddsInFile .fileLogLevel (.ofInt 4) .levelled := by
  let file : Path := .ofText "/p/scp-build.toml"
  have hbare : Inputs.bare.texts = .ok [] := by
    have hsources : Inputs.bare.sources = [.file file false] := by decide +kernel
    have hnone : Loader.locate? Inputs.bare.tree Inputs.bare.cwd file = none := by decide +kernel
    rw [Inputs.texts, hsources, List.mapM_cons, Text.ofSource_missing hnone]
    rfl
  have hlevelled : Inputs.levelled.texts =
      .ok [⟨some "scp-build.toml", [("global", .table [("file_log_level", .ofInt 4)])]⟩] := by
    have hsources : Inputs.levelled.sources = [.file file false] := by decide +kernel
    have hfound : Loader.locate? Inputs.levelled.tree Inputs.levelled.cwd file = some file := by decide +kernel
    have hread : Files.read Inputs.levelled.tree Inputs.levelled.cwd file =
        .ok (encode "[global]\nfile_log_level = 4\n") := by decide +kernel
    have horigin : Loader.originOf Inputs.levelled.cwd file = "scp-build.toml" := by decide +kernel
    have htext : Loader.fileText (encode "[global]\nfile_log_level = 4\n") =
        String.ofList (Toml.assignmentText "global" "file_log_level" (toString (4 : Int)).toList) := by decide +kernel
    have hfields : Toml.fields?
        (String.ofList (Toml.assignmentText "global" "file_log_level" (toString (4 : Int)).toList)) =
          some [("global", .table [("file_log_level", .ofInt 4)])] :=
      Toml.fields?_integer (isBare_title .fileLogLevel) (isBare_name .fileLogLevel) 4
    rw [Inputs.texts, hsources, List.mapM_cons, Text.ofSource_found hfound hread, horigin, htext, Text.written, hfields]
    rfl
  exact ⟨rfl, rfl, by decide +kernel, rfl, [], _, hbare, hlevelled, .apart [] [] _ (.alone [] [])⟩

theorem load_levels_debug :
    let debug := Log.Channel.file.put .debug (Inputs.loadedBare []).config
    Inputs.bare.load = .ok (Inputs.loadedBare []) ∧
    Inputs.bare.loader.leaves .fileLogLevel Inputs.bare.tree Inputs.bare.cwd Inputs.bare.environment = true ∧
    Inputs.levelled.config? = some debug ∧
    { Inputs.bare with options.settings := ["global/file_log_level =4"] }.config? = some debug ∧
    { Inputs.bare with environment := [("SCP_BUILD_GLOBAL__FILE_LOG_LEVEL", encode "4")] }.config? = some debug ∧
    Inputs.bare.configFor? [encode "scp-build", encode "--component=lib", encode "--file-log-level=4"] = some debug := by
  have hload : Inputs.bare.load = .ok (Inputs.loadedBare []) := by decide +kernel
  have hfree : Inputs.bare.loader.leaves .fileLogLevel Inputs.bare.tree Inputs.bare.cwd Inputs.bare.environment = true := by
    decide +kernel
  obtain ⟨⟨-, hfile⟩, hoverride, hvariable, hoption, -⟩ := load_levels .bare (Inputs.loadedBare []) .file 4 hload hfree
  have hlevel : (Log.Level.debug.toNat : Int) = 4 := rfl
  have hentry : Log.Channel.file.setting.spelled "" '/' " " (toString (4 : Int)) = "global/file_log_level =4" := by
    decide +kernel
  have hname : Log.Channel.file.setting.variableName = "SCP_BUILD_GLOBAL__FILE_LOG_LEVEL" := by decide +kernel
  have hspells : Arguments.Spells (.option Log.Channel.file.option (encode "4")) [encode "--file-log-level=4"] :=
    .longAttached .fileLogLevel (encode "4")
  have hcomponent : List.Forall₂ Arguments.Spells [.option .component (encode "lib")] [[encode "--component=lib"]] :=
    .cons (.longAttached .component (encode "lib")) .nil
  have hmention : ∀ m ∈ [Arguments.Mention.option .component (encode "lib")] ++ [], m.Fits ∧ m.Spares .file := by
    intro m hm
    obtain rfl := List.mem_singleton.1 hm
    exact ⟨⟨.lib, rfl⟩, by rintro v ⟨⟩⟩
  have hparse : Arguments.parse [encode "scp-build", encode "--component=lib"] = .ok ({}, ⟨.lib, false⟩) := by
    decide +kernel
  refine ⟨hload, hfree, (hfile _ adds_levelled).eq_some hlevel, ?_, ?_, ?_⟩
  · have htakes := hoverride [] [] "" '/' " " rfl rfl (by decide) rfl
    rw [hentry] at htakes
    exact htakes.eq_some hlevel
  · obtain ⟨htakes, -⟩ := hvariable [] [] rfl
    rw [hname] at htakes
    exact (htakes (by decide)).eq_some hlevel
  · exact (hoption _ _ _ _ _ _ _ (by decide) hcomponent .nil hmention hspells hparse).eq_some hlevel

/-- A negative integer that does not fit 64 bits turns the console off as a variable; as an override and as the option
it is refused. -/
theorem load_levels_saturated :
    { Inputs.bare with
      environment := [("SCP_BUILD_GLOBAL__OUTPUT_LOG_LEVEL", encode "-9223372036854775809")] }.config? =
        some (Log.Channel.console.put .off (Inputs.loadedBare []).config) ∧
    { Inputs.bare with
      options.settings := ["global.output_log_level=-9223372036854775809"] }.config? = none ∧
    Arguments.parse [encode "scp-build", encode "--component=lib", encode "--log-level=-9223372036854775809"] =
      .error (.invalidLevel .logLevel "-9223372036854775809") :=
  ⟨by decide +kernel, by decide +kernel, by decide +kernel⟩

end Config

end GradleBuild
