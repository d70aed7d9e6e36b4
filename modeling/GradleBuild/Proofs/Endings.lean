import GradleBuild.Program
import GradleBuild.Proofs.Effects
import Mathlib.Data.List.Basic

/-!
# How a run of the program ends

A run goes through its phases in order: the arguments, its directory, the configuration, the log file and the build.
The exit code says which of three things happened, and nothing is touched before the log file is opened.

* `runLoaded_exitCode`, `runParsed_exitCode`, `run_exitCode`: the exit code, from the last phase to the first.
* `run_unloaded`: without a loaded configuration the machine stays as it is.
* `run_accounted`: the exit code of every run, and what a refusal leaves behind.
-/

namespace GradleBuild.Program

variable {args : List Bytes} {options : Options} {request : Request} {loaded : LoadedConfig} {s : Surroundings}
  {m : Machine}

/-- The outcome of reading the arguments behind the name of the program. -/
def parsed (args : List Bytes) : Except ArgumentError (Options × Request) := Arguments.parse (encode name :: args)

/-- The arguments are refused: they are wrong, and do not just ask for a text. -/
def Refuses (args : List Bytes) : Prop :=
  ∃ e, parsed args = .error e ∧ e ≠ .helpRequested ∧ e ≠ .versionRequested

/-- The arguments ask for the help or for the version. -/
def AsksForText (args : List Bytes) : Prop :=
  parsed args = .error .helpRequested ∨ parsed args = .error .versionRequested

/-- The arguments are fine, and there is no configuration for them. -/
def Misconfigured (args : List Bytes) (s : Surroundings) (m : Machine) : Prop :=
  ∃ options request c, parsed args = .ok (options, request) ∧
    Config.load m.tree s.cwd s.environment options s.cwd.path = .error c

/-- The arguments are fine, the directory of the run is there, and a configuration is loaded. -/
def Loads (args : List Bytes) (s : Surroundings) (m : Machine) (request : Request) (loaded : LoadedConfig) : Prop :=
  ∃ options, parsed args = .ok (options, request) ∧ m.tree.entryAt? s.cwd = some .directory ∧
    Config.load m.tree s.cwd s.environment options s.cwd.path = .ok loaded

/-- With a loaded configuration, the log file is opened and the build succeeds. -/
def Completes (request : Request) (loaded : LoadedConfig) (s : Surroundings) (m : Machine) : Prop :=
  ∃ log t m', openLog? loaded.config.logSettings s.cwd m.tree = (.ok log, t) ∧
    runBuild request loaded s { m with tree := t } = (.ok (), m')

/-- Everything a run does succeeds, the build included. -/
def Builds (args : List Bytes) (s : Surroundings) (m : Machine) : Prop :=
  ∃ request loaded, Loads args s m request loaded ∧ Completes request loaded s m

/-! ### The exit codes -/

theorem exitCode_ofArgumentError (e : ArgumentError) :
    (Ending.ofArgumentError e).exitCode = if e = .helpRequested ∨ e = .versionRequested then 0 else 2 := by
  cases e <;> rfl

open Classical in
/-- With a loaded configuration, only a build that succeeds ends with 0. -/
theorem runLoaded_exitCode (request : Request) (loaded : LoadedConfig) (s : Surroundings) (m : Machine) :
    (runLoaded request loaded s m).1.ending.exitCode = if Completes request loaded s m then 0 else 1 := by
  rcases hlog : openLog? loaded.config.logSettings s.cwd m.tree with ⟨c | log, t⟩
  · have hfails : ¬ Completes request loaded s m := by
      rintro ⟨log, t', m', hlog', -⟩
      cases hlog.symm.trans hlog'
    simp [runLoaded, hlog, hfails, Ending.exitCode]
  · rcases hbuild : runBuild request loaded s { m with tree := t } with ⟨failure | _, m'⟩
    · have hfails : ¬ Completes request loaded s m := by
        rintro ⟨log', t', m'', hlog', hbuild'⟩
        obtain ⟨-, rfl⟩ := Prod.mk.inj (hlog.symm.trans hlog')
        cases hbuild.symm.trans hbuild'
      simp [runLoaded, hlog, hbuild, hfails, Ending.exitCode]
    · have hcompletes : Completes request loaded s m := ⟨log, t, m', hlog, hbuild⟩
      simp [runLoaded, hlog, hbuild, hcompletes, Ending.exitCode]

open Classical in
/-- With arguments that have been read, only a run that builds ends with 0. -/
theorem runParsed_exitCode (hparsed : parsed args = .ok (options, request)) :
    (runParsed options request s m).1.ending.exitCode = if Builds args s m then 0 else 1 := by
  have hfails (h : ∀ loaded, Config.load m.tree s.cwd s.environment options s.cwd.path = .ok loaded →
      m.tree.entryAt? s.cwd = some .directory → False) : ¬ Builds args s m := by
    rintro ⟨request', loaded, ⟨options', hparsed', hcwd, hload⟩, -⟩
    obtain ⟨rfl, rfl⟩ := Prod.mk.inj (Except.ok.inj (hparsed.symm.trans hparsed'))
    exact h loaded hload hcwd
  unfold runParsed
  by_cases hcwd : m.tree.entryAt? s.cwd = some .directory
  · rw [if_neg ((fun h => h hcwd))]
    cases hload : Config.load m.tree s.cwd s.environment options s.cwd.path with
    | error c =>
      rw [if_neg (hfails fun loaded hload' _ => by cases hload.symm.trans hload')]
      rfl
    | ok loaded =>
      have hiff : Builds args s m ↔ Completes request loaded s m := by
        constructor
        · rintro ⟨request', loaded', ⟨options', hparsed', -, hload'⟩, hcompletes⟩
          obtain ⟨rfl, rfl⟩ := Prod.mk.inj (Except.ok.inj (hparsed.symm.trans hparsed'))
          obtain rfl := Except.ok.inj (hload.symm.trans hload')
          exact hcompletes
        · exact fun hcompletes => ⟨request, loaded, ⟨options, hparsed, hcwd, hload⟩, hcompletes⟩
      simp only [runLoaded_exitCode, hiff]
  · rw [if_pos hcwd, if_neg (hfails fun _ _ hcwd' => hcwd hcwd')]
    rfl

open Classical in
/-- The exit code of a run, from what becomes of its arguments. -/
theorem run_exitCode (args : List Bytes) (s : Surroundings) (m : Machine) :
    (run args s m).1.ending.exitCode =
      if Refuses args then 2 else if AsksForText args ∨ Builds args s m then 0 else 1 := by
  unfold run
  rw [← parsed]
  cases hparsed : parsed args with
  | error e =>
    simp only [exitCode_ofArgumentError]
    by_cases htext : e = .helpRequested ∨ e = .versionRequested
    · have hasks : AsksForText args := by
        rcases htext with rfl | rfl
        · exact Or.inl hparsed
        · exact Or.inr hparsed
      have hrefuses : ¬ Refuses args := by
        rintro ⟨e', hparsed', hhelp, hversion⟩
        obtain rfl := Except.error.inj (hparsed.symm.trans hparsed')
        exact htext.elim hhelp hversion
      rw [if_pos htext, if_neg hrefuses, if_pos (Or.inl hasks)]
    · rw [if_neg htext, if_pos ⟨e, hparsed, not_or.1 htext⟩]
  | ok read =>
    obtain ⟨options, request⟩ := read
    have hrefuses : ¬ Refuses args := by
      rintro ⟨e, hparsed', -⟩
      cases hparsed.symm.trans hparsed'
    have hasks : ¬ AsksForText args := by
      rintro (hparsed' | hparsed') <;> cases hparsed.symm.trans hparsed'
    simp only [runParsed_exitCode hparsed, if_neg hrefuses, hasks, false_or]

/-! ### What a run leaves behind -/

/-- The configuration is loaded before anything is done: without one the machine stays as it is. -/
theorem run_unloaded (h : ∀ request loaded, ¬ Loads args s m request loaded) :
    (run args s m).2 = m ∧ (run args s m).1.log = none := by
  unfold run
  rw [← parsed]
  cases hparsed : parsed args with
  | error e => exact ⟨rfl, rfl⟩
  | ok read =>
    simp only [runParsed]
    split
    · exact ⟨rfl, rfl⟩
    · next hcwd =>
      cases hload : Config.load m.tree s.cwd s.environment read.1 s.cwd.path with
      | error c => exact ⟨rfl, rfl⟩
      | ok loaded => exact absurd ⟨read.1, hparsed, Decidable.not_not.1 hcwd, hload⟩ (h read.2 loaded)

theorem Refuses.not_loads (h : Refuses args) : ¬ Loads args s m request loaded := by
  rintro ⟨options, hparsed, -⟩
  obtain ⟨e, hparsed', -⟩ := h
  cases hparsed.symm.trans hparsed'

theorem Misconfigured.not_loads (h : Misconfigured args s m) : ¬ Loads args s m request loaded := by
  rintro ⟨options, hparsed, -, hload⟩
  obtain ⟨options', request', c, hparsed', hload'⟩ := h
  obtain ⟨rfl, rfl⟩ := Prod.mk.inj (Except.ok.inj (hparsed.symm.trans hparsed'))
  cases hload.symm.trans hload'

/-- A run accounts for what has happened by its exit code, and leaves nothing behind if it stops early. -/
structure Accounted (args : List Bytes) (s : Surroundings) (m : Machine) (report : Report) (m' : Machine) : Prop where
  exits_2 : report.ending.exitCode = 2 ↔ Refuses args
  exits_0 : report.ending.exitCode = 0 ↔ AsksForText args ∨ Builds args s m
  exits_1 : report.ending.exitCode = 1 ↔ ¬ Refuses args ∧ ¬ (AsksForText args ∨ Builds args s m)
  /-- Arguments or a configuration that are refused leave the files as they are, no child has been called and nothing
  has been shown of a build; no log file is reported. -/
  untouched : Refuses args ∨ Misconfigured args s m →
    m'.tree = m.tree ∧ m'.calls = m.calls ∧ m'.shown = m.shown ∧ report.log = none

/-- Every run accounts for itself. -/
theorem run_accounted (args : List Bytes) (s : Surroundings) (m : Machine) :
    Accounted args s m (run args s m).1 (run args s m).2 := by
  have hcode := run_exitCode args s m
  have hdisjoint : Refuses args → ¬ (AsksForText args ∨ Builds args s m) := by
    rintro hrefuses (hasks | ⟨request, loaded, hloads, -⟩)
    · obtain ⟨e, hparsed, hhelp, hversion⟩ := hrefuses
      rcases hasks with hasks | hasks <;> obtain rfl := Except.error.inj (hparsed.symm.trans hasks)
      · exact hhelp rfl
      · exact hversion rfl
    · exact hrefuses.not_loads hloads
  refine ⟨?_, ?_, ?_, fun hstop => ?_⟩
  · rw [hcode]
    split_ifs <;> simp_all
  · rw [hcode]
    split_ifs <;> simp_all
  · rw [hcode]
    split_ifs <;> simp_all
  · have hunloaded : ∀ request loaded, ¬ Loads args s m request loaded := fun _ _ =>
      hstop.elim Refuses.not_loads Misconfigured.not_loads
    obtain ⟨hsame, hlog⟩ := run_unloaded hunloaded
    exact ⟨congrArg _ hsame, congrArg _ hsame, congrArg _ hsame, hlog⟩

/-- An empty directory, where nothing can be called. -/
def emptyDirectory : Surroundings := ⟨[encode "p"], [], fun _ _ t => { tree := t }⟩

def emptyMachine : Machine := { tree := .ofEntries [([encode "p"], .directory)] }

/-- A log file is asked for in vain: the arguments are refused for a value that a flag does not take, or accepted with
an override whose key is none. -/
theorem run_accounted_vain :
    Refuses (["--log-file", "logs/l", "--dry=1"].map encode) ∧
    Misconfigured (["--component", "doc", "--log-file", "logs/l", "--set", "paths[x]=1"].map encode) emptyDirectory
      emptyMachine ∧
    ∀ args ∈ [["--log-file", "logs/l", "--dry=1"],
      ["--component", "doc", "--log-file", "logs/l", "--set", "paths[x]=1"]],
      (run (args.map encode) emptyDirectory emptyMachine).2.tree = emptyMachine.tree := by
  have hrefuses : Refuses (["--log-file", "logs/l", "--dry=1"].map encode) :=
    ⟨.unneededValue .dry "1", by decide +kernel, by decide, by decide⟩
  have hmisconfigured : Misconfigured (["--component", "doc", "--log-file", "logs/l", "--set", "paths[x]=1"].map encode)
      emptyDirectory emptyMachine :=
    ⟨{ logFile := some (.ofText "logs/l"), settings := ["paths[x]=1"] }, ⟨.doc, false⟩,
      .invalidKey "override" "paths[x]", by decide +kernel, by decide +kernel⟩
  refine ⟨hrefuses, hmisconfigured, ?_⟩
  simp only [List.mem_cons, List.not_mem_nil, or_false]
  rintro args (rfl | rfl)
  · exact ((run_accounted _ _ _).untouched (Or.inl hrefuses)).1
  · exact ((run_accounted _ _ _).untouched (Or.inr hmisconfigured)).1

end GradleBuild.Program
