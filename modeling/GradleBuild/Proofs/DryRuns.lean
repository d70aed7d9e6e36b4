import GradleBuild.Proofs.Runs

/-!
# Dry runs

In a dry run each step shows what it would do.  So all that a dry run does is to log, whatever the files, the search
path and the children are like, and what it logs is told by the plan alone: for each step its headline, and behind it
one event that foretells the step (`Step.preview`).

* `Step.logs_dry`: a step in a dry run.
* `runBuild_dry`: a whole build.
-/

namespace GradleBuild

variable {p : Project} {s : Surroundings}

/-! ### Runs that only log -/

/-- The run comes to a good end, and has done nothing but log these events. -/
structure Logs (a : Run Unit) (es : List Log.Event) : Prop where
  apply (m : Machine) : a m = (.ok (), { m with shown := m.shown ++ es.map .event })

namespace Logs

variable {a b : Run Unit} {es es' : List Log.Event}

theorem log (level : Log.Level) (source : Log.Source) (message : String) (fields : List Log.Field) :
    Logs (Run.log level source message fields) [⟨level, source, message, fields⟩] := ⟨fun _ => rfl⟩

theorem nothing : Logs (pure ()) [] := ⟨fun m => by
  rw [List.map_nil, List.append_nil]
  rfl⟩

/-- What is done one after another is logged one after another. -/
theorem bind (h : Logs a es) (h' : Logs b es') : Logs (a >>= fun _ => b) (es ++ es') := by
  constructor
  intro m
  rw [bind_apply_ok (h.apply m), h'.apply]
  simp

theorem inContext (context : String) (h : Logs a es) : Logs (Run.inContext context a) es := by
  constructor
  intro m
  rw [Run.inContext_apply, h.apply m]
  rfl

theorem forM {α : Type} {f : α → Run Unit} {e : α → Log.Event} (h : ∀ x, Logs (f x) [e x]) (xs : List α) :
    Logs (xs.forM f) (xs.map e) := by
  induction xs with
  | nil => exact nothing
  | cons x xs ih => exact (h x).bind ih

end Logs

/-! ### Steps -/

namespace Step

/-- The event that foretells a step. -/
def preview (p : Project) : Step → Log.Event
  | remove path => ⟨.info, .step, "[dry-run] Would remove " ++ path.display, []⟩
  | gradle a => ⟨.info, .gradle, "[dry-run] Would run `" ++ ((p.gradle a).command (p.gradle a).wrapperPath).line ++ "`",
      [.of "action" a.name]⟩
  | collect source destination =>
    ⟨.info, .step, "[dry-run] Would copy " ++ source.display ++ " into " ++ destination.display, []⟩

/-- What is logged in front of that. -/
def notice : Step → List Log.Event
  | gradle a => [⟨.info, .step, "running", [.quoted "tool" "gradle", .of "action" a.name]⟩]
  | remove _ | collect _ _ => []

/-- In a dry run a step foretells itself, and does nothing else. -/
theorem logs_dry (hdry : p.dry = true) (step : Step) : Logs (step.run p s) (step.notice ++ [step.preview p]) := by
  cases step with
  | remove path =>
    unfold run runRemove
    rw [hdry]
    exact .log ..
  | gradle a =>
    unfold run runGradle Gradle.run
    rw [hdry]
    exact .bind (.log ..) (.log ..)
  | collect source destination =>
    unfold run runCollect
    rw [hdry]
    exact .log ..

end Step

/-! ### Tasks -/

namespace Task

variable {t : Task}

/-- What a dry run logs of the step number `i`. -/
def foretold (t : Task) (p : Project) (i : Nat) (step : Step) : List Log.Event :=
  t.headerEvent p i step :: step.notice ++ [step.preview p]

private theorem logs_runSteps (hdry : p.dry = true) (i : Nat) (steps : List Step) :
    Logs (runSteps t.component (t.plan p.layout).length p s i steps)
      (steps.mapIdx fun j => t.foretold p (i + j)).flatten := by
  induction steps generalizing i with
  | nil => exact .nothing
  | cons step rest ih =>
    have hrest : (rest.mapIdx fun j => t.foretold p (i + (j + 1))) = rest.mapIdx fun j => t.foretold p (i + 1 + j) := by
      simp only [Nat.add_comm 1, Nat.add_assoc]
    have hfirst := (Step.logs_dry (s := s) hdry step).inContext (failureContext t.component step)
    rw [List.mapIdx_cons, List.flatten_cons, hrest]
    have hall := (Logs.log .info .task (stepHeadline i (t.plan p.layout).length step)
      [.of "component" t.component.name]).bind (hfirst.bind (ih (i + 1)))
    exact hall

/-- A dry run foretells the steps of its plan in order. -/
theorem logs_dry (hdry : p.dry = true) (t : Task) : Logs (t.run p s)
    (t.startEvent p :: (((t.plan p.layout).mapIdx (t.foretold p)).flatten ++ [t.endEvent])) := by
  have hsteps := logs_runSteps (t := t) (s := s) hdry 0 (t.plan p.layout)
  simp only [Nat.zero_add] at hsteps
  exact .bind (.log ..) (.bind hsteps (.log ..))

end Task

/-! ### Builds -/

/-- Whether an event says what a step would do. -/
def Log.Event.foretells (e : Log.Event) : Bool := "[dry-run] Would ".toList.isPrefixOf e.message.toList

private theorem foretells_preview (step : Step) : (step.preview p).foretells = true := by
  cases step <;> simp [Log.Event.foretells, Step.preview, List.isPrefixOf]

private theorem foretells_headerEvent (t : Task) (i : Nat) (step : Step) :
    (t.headerEvent p i step).foretells = false := by
  -- what follows the bracket is a digit
  have hdigits : ∀ c ∈ Nat.toDigits 10 (i + 1), c ≠ 'd' := by
    rintro c hc rfl
    exact absurd (Nat.isDigit_of_mem_toDigits (by decide) (by decide) hc) (by decide)
  unfold Log.Event.foretells Task.headerEvent Task.stepHeadline
  cases hd : Nat.toDigits 10 (i + 1) with
  | nil => simp [hd, List.isPrefixOf]
  | cons c cs =>
    have hc : 'd' ≠ c := fun he => hdigits c (by simp [hd]) he.symm
    simp [hd, hc, List.isPrefixOf]

private theorem foretells_of_mem_notice {step : Step} {e : Log.Event} (he : e ∈ step.notice) : e.foretells = false := by
  cases step with
  | remove | collect => cases he
  | gradle a =>
    rw [List.mem_singleton.1 he]
    simp [Log.Event.foretells, List.isPrefixOf]

/-- Of what is logged of a step, the last event alone foretells. -/
private theorem filter_foretold (t : Task) (i : Nat) (step : Step) :
    (t.foretold p i step).filter (·.foretells) = [step.preview p] := by
  have hnotice : step.notice.filter (·.foretells) = [] :=
    List.filter_eq_nil_iff.2 fun e he => by simp [foretells_of_mem_notice he]
  simp [Task.foretold, foretells_headerEvent, foretells_preview, hnotice]

private theorem filter_foretold_plan (t : Task) (f : Nat → Nat) (steps : List Step) :
    ((steps.mapIdx fun i => t.foretold p (f i)).flatten).filter (·.foretells) = steps.map (Step.preview p) := by
  induction steps generalizing f with
  | nil => rfl
  | cons step rest ih =>
    rw [List.mapIdx_cons, List.flatten_cons, List.filter_append, filter_foretold, ih (fun i => f (i + 1))]
    rfl

/-- A key begins with the name of its section. -/
private theorem head_options {c : Config} {o : String × String} (h : o ∈ c.options) :
    o.1.toList.head? = some 'g' ∨ o.1.toList.head? = some 'p' := by
  unfold Config.options at h
  simp only [List.mem_append, List.mem_map, List.mem_singleton] at h
  rcases h with ((((((rfl | ⟨_, -, rfl⟩) | ⟨_, -, rfl⟩) | rfl) | h) | rfl) | ⟨_, -, rfl⟩) | h
  case inr =>
    unfold Config.pathOptions at h
    split at h
    · cases h
    · obtain ⟨place, -, rfl⟩ := List.mem_map.1 h
      simp
  case inl.inl.inl.inr =>
    split at h
    · cases h
    · rw [List.mem_singleton.1 h]
      simp
  all_goals simp

private theorem foretells_of_mem_listing {c : Config} {line : String} (h : line ∈ c.listing) :
    Log.Event.foretells ⟨.debug, .build, line, []⟩ = false := by
  obtain ⟨⟨key, value⟩, hkey, rfl⟩ := List.mem_map.1 h
  have hhead := head_options hkey
  unfold Log.Event.foretells Config.padKey
  cases hk : key.toList with
  | nil => simp [hk] at hhead
  | cons c cs =>
    obtain rfl | rfl : c = 'g' ∨ c = 'p' := by simpa [hk] using hhead
    all_goals simp [hk, List.isPrefixOf]

/-- What a build logs ahead of its task. -/
def LoadedConfig.opening (loaded : LoadedConfig) (r : Request) (root : Path) : List Log.Event :=
  loaded.files.map (fun file => ⟨.debug, .build, "Loaded config", [.of "path" file.display]⟩)
    ++ loaded.config.listing.map (fun line => ⟨.debug, .build, line, []⟩)
    ++ (if r.cleanBuild && r.component = .doc then
        [⟨.warn, .build, "--clean-build only applies to the lib component, ignoring", []⟩]
      else [])
    ++ [⟨.info, .build, "Building", [.of "component" r.component.name, .of "project_root" root.display]⟩]

private theorem filter_opening (loaded : LoadedConfig) (r : Request) (root : Path) :
    (loaded.opening r root).filter (·.foretells) = [] := by
  refine List.filter_eq_nil_iff.2 fun e he => ?_
  unfold LoadedConfig.opening at he
  simp only [List.mem_append, List.mem_map, List.mem_singleton] at he
  rcases he with ((⟨file, -, rfl⟩ | ⟨line, hline, rfl⟩) | he) | rfl
  · simp [Log.Event.foretells, List.isPrefixOf]
  · simp [foretells_of_mem_listing hline]
  · split at he
    · rw [List.mem_singleton.1 he]
      simp [Log.Event.foretells, List.isPrefixOf]
    · cases he
  · simp [Log.Event.foretells, List.isPrefixOf]

variable {r : Request} {loaded : LoadedConfig} {root : Path}

/-- A build logs its opening, and runs its task. -/
theorem runBuild_apply (h : Project.ofConfig loaded.config = .ok p) (m : Machine) : runBuild r loaded s m =
    r.task.run p s { m with shown := m.shown ++ (loaded.opening r p.layout.projectRoot).map .event } := by
  have hfiles : Logs (loaded.files.forM fun file => Run.log .debug .build "Loaded config" [.of "path" file.display])
      (loaded.files.map fun file => ⟨.debug, .build, "Loaded config", [.of "path" file.display]⟩) :=
    .forM (fun _ => .log ..) _
  have hlines : Logs (loaded.config.listing.forM fun line => Run.log .debug .build line)
      (loaded.config.listing.map fun line => ⟨.debug, .build, line, []⟩) := .forM (fun _ => .log ..) _
  unfold runBuild LoadedConfig.opening
  rw [h, bind_apply_ok (hfiles.apply m), bind_apply_ok (hlines.apply _)]
  by_cases hclean : (r.cleanBuild && decide (r.component = .doc)) = true
  · rw [if_pos hclean, if_pos hclean, bind_apply_ok (Run.log_apply ..)]
    dsimp only
    rw [bind_apply_ok (Run.log_apply ..)]
    simp [Run.logged]
  · rw [if_neg hclean, if_neg hclean]
    dsimp only
    rw [bind_apply_ok (Run.log_apply ..)]
    simp [Run.logged]

private theorem logs_runBuild (h : Project.ofConfig loaded.config = .ok p) {es : List Log.Event}
    (ht : Logs (r.task.run p s) es) : Logs (runBuild r loaded s) (loaded.opening r p.layout.projectRoot ++ es) := by
  constructor
  intro m
  rw [runBuild_apply h, ht.apply]
  simp

/-- A dry run of a build comes to a good end, whatever the machine is like, and does nothing but log.  Its task has
the plan of the same build in earnest, and logs for each step in order its headline, and behind that the one event
that foretells it. -/
theorem runBuild_dry (r : Request) (loaded : LoadedConfig) (s : Surroundings) (m : Machine)
    (hroot : loaded.config.paths.projectRoot = some root) (hdry : loaded.config.globals.dry = true) :
    ∃ p p' new, Project.ofConfig loaded.config = .ok p ∧
      Project.ofConfig { loaded.config with globals.dry := false } = .ok p' ∧ p'.dry = false ∧
      r.task.plan p.layout = r.task.plan p'.layout ∧
      runBuild r loaded s m = (.ok (), { m with shown := m.shown ++ new.map .event }) ∧
      new = loaded.opening r root ++ r.task.startEvent p ::
        (((r.task.plan p.layout).mapIdx (r.task.foretold p)).flatten ++ [r.task.endEvent]) ∧
      new.filter (·.foretells) = (r.task.plan p.layout).map (Step.preview p) := by
  have hp := Project.ofConfig_eq hroot
  have hp' := Project.ofConfig_eq (c := { loaded.config with globals.dry := false }) hroot
  generalize hproject : Project.mk loaded.config _ loaded.config.globals.dry = p at hp
  have hrun := logs_runBuild hp (Task.logs_dry (s := s) (by rw [← hproject, hdry]) r.task)
  refine ⟨p, _, _, hp, hp', rfl, by subst hproject; rfl, hrun.apply m, by subst hproject; rfl, ?_⟩
  -- neither the opening nor the first and the last event of the task foretells a step
  have hstart : (r.task.startEvent p).foretells = false := by
    simp [Log.Event.foretells, Task.startEvent, List.isPrefixOf]
  have hend : r.task.endEvent.foretells = false := by simp [Log.Event.foretells, Task.endEvent, List.isPrefixOf]
  have hplan := filter_foretold_plan (p := p) r.task id (r.task.plan p.layout)
  simp only [id] at hplan
  rw [List.filter_append, filter_opening, List.nil_append, List.filter_cons_of_neg (by simp [hstart]),
    List.filter_append, hplan, List.filter_cons_of_neg (by simp [hend]), List.filter_nil, List.append_nil]

/-- A configuration for dry runs that sets nothing else but the root. -/
def LoadedConfig.dryPlain (root : Path) : LoadedConfig :=
  ⟨{ globals := { dry := true }, paths := { projectRoot := some root } }, []⟩

theorem runBuild_dry_plain :
    (LoadedConfig.dryPlain (.ofText "/p")).config.paths.projectRoot = some (.ofText "/p") ∧
      (LoadedConfig.dryPlain (.ofText "/p")).config.globals.dry = true ∧
      ∃ p p' new, Project.ofConfig (LoadedConfig.dryPlain (.ofText "/p")).config = .ok p ∧
        Project.ofConfig { (LoadedConfig.dryPlain (.ofText "/p")).config with globals.dry := false } = .ok p' ∧
        p'.dry = false ∧ Task.documentation.plan p.layout = Task.documentation.plan p'.layout ∧
        runBuild ⟨.doc, true⟩ (.dryPlain (.ofText "/p")) ⟨[], [], fun _ _ t => { tree := t }⟩ { tree := .empty } =
          (.ok (), { tree := .empty, shown := new.map .event }) ∧
        new = (LoadedConfig.dryPlain (.ofText "/p")).opening ⟨.doc, true⟩ (.ofText "/p") ++
          Task.documentation.startEvent p ::
            (((Task.documentation.plan p.layout).mapIdx (Task.documentation.foretold p)).flatten ++
              [Task.documentation.endEvent]) ∧
        new.filter (·.foretells) = (Task.documentation.plan p.layout).map (Step.preview p) :=
  ⟨rfl, rfl, runBuild_dry ⟨.doc, true⟩ (.dryPlain (.ofText "/p")) ⟨[], [], fun _ _ t => { tree := t }⟩
    { tree := .empty } rfl rfl⟩

end GradleBuild
