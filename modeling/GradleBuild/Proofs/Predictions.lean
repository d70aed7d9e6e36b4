import GradleBuild.Proofs.DryRuns

/-!
# What a dry run predicts

A dry run shows the command line of each Gradle step with the wrapper at its place, without looking there.  A run in
earnest looks: it shows the line of the program that it finds.  So both show equally many lines, and a line is predicted
as it comes unless the wrapper is missing and Gradle is taken from the search path; then only the program differs.

* `Step.executed_gradle`, `Step.executed_other`: the command lines that a step in earnest shows.
* `Reaches.executed`: the command lines of the first steps of a plan.
* `runBuild_predicts`: a build in earnest compared with its dry run.
-/

namespace GradleBuild

/-! ### What a log tells -/

/-- The command line that an event says is executed. -/
def Log.Event.executed? (e : Log.Event) : Option String :=
  if e.source = .runner ∧ e.message = "exec" then (e.fields.find? (·.name = "cmd")).bind (·.value) else none

/-- The command line that an event says would be run. -/
def Log.Event.predicted? (e : Log.Event) : Option String :=
  if e.source = .gradle then
    (Config.dropStart? "[dry-run] Would run `".toList e.message.toList).map fun rest => String.ofList rest.dropLast
  else none

/-- Whether an event is the headline of a step. -/
def Log.Event.isHeadline (e : Log.Event) : Bool := e.source = .task && e.message.toList.head? = some '['

namespace Machine

/-- The command lines that were executed. -/
def executed (m : Machine) : List String := m.events.filterMap (·.executed?)

/-- The command lines that would be run. -/
def predicted (m : Machine) : List String := m.events.filterMap (·.predicted?)

/-- The headlines of steps. -/
def headlines (m : Machine) : List Log.Event := m.events.filter (·.isHeadline)

variable {m m' : Machine}

theorem events_append (m : Machine) (es : List Log.Event) :
    events { m with shown := m.shown ++ es.map .event } = m.events ++ es := by
  unfold events
  rw [List.filterMap_append, List.filterMap_map]
  exact congrArg _ List.filterMap_some

theorem events_logged (m : Machine) (e : Log.Event) : (Run.logged m e).events = m.events ++ [e] :=
  events_append m [e]

theorem executed_logged (m : Machine) (e : Log.Event) :
    (Run.logged m e).executed = m.executed ++ e.executed?.toList := by
  unfold executed
  rw [events_logged, List.filterMap_append]
  cases he : e.executed? <;> simp [he]

/-- What is shown besides adds no command line, if none of its events does. -/
theorem executed_of_shown {new : List Shown} (h : m'.shown = m.shown ++ new)
    (hnew : ∀ e, .event e ∈ new → e.executed? = none) : m'.executed = m.executed := by
  unfold executed events
  rw [h, List.filterMap_append, List.filterMap_append]
  refine List.append_right_eq_self.2 (List.filterMap_eq_nil_iff.2 fun e he => ?_)
  obtain ⟨x, hx, hxe⟩ := List.mem_filterMap.1 he
  cases x with
  | event e' =>
    obtain rfl := Option.some.inj hxe
    exact hnew e' hx
  | raw => cases hxe

end Machine

/-! ### Runs that execute nothing -/

/-- Whatever becomes of the run, it executes no command. -/
def Silent {α : Type} (a : Run α) : Prop := ∀ m, (a m).2.executed = m.executed

namespace Silent

variable {α β : Type} {a : Run α} {f : α → Run β}

theorem eq {m m' : Machine} {r : Except Failure α} (ha : Silent a) (h : a m = (r, m')) :
    m'.executed = m.executed := by
  rw [← ha m, h]

theorem pure (x : α) : Silent (Pure.pure x : Run α) := fun _ => rfl

theorem fail (c : Cause) : Silent (Run.fail c : Run α) := fun _ => rfl

theorem get : Silent (MonadState.get : Run Machine) := fun _ => rfl

theorem bind (ha : Silent a) (hf : ∀ x, Silent (f x)) : Silent (a >>= f) := by
  intro m
  have hm := ha m
  rcases h : a m with ⟨e | x, m₁⟩
  · rw [h] at hm
    rw [bind_apply_error h]
    exact hm
  · rw [h] at hm
    rw [bind_apply_ok h, hf x m₁]
    exact hm

theorem inContext (context : String) (ha : Silent a) : Silent (Run.inContext context a) := by
  intro m
  rw [Run.inContext_apply]
  exact ha m

theorem onFiles (act : FileAction Cause α) : Silent (Run.onFiles act) := by
  intro m
  rcases h : act m.tree with ⟨c | x, t⟩
  · rw [Run.onFiles_error h]
    rfl
  · rw [Run.onFiles_ok h]
    rfl

theorem log {level : Log.Level} {source : Log.Source} {message : String} {fields : List Log.Field}
    (h : source ≠ .runner ∨ message ≠ "exec") : Silent (Run.log level source message fields) := by
  intro m
  have hnone : Log.Event.executed? ⟨level, source, message, fields⟩ = none := if_neg (not_and_or.2 h)
  rw [Run.log_apply, Machine.executed_logged, hnone]
  exact List.append_nil _

end Silent

/-! ### The command lines of a step in earnest -/

namespace Command

variable {c : Command} {s : Surroundings}

/-- A child that runs executes no further command. -/
theorem silent_start (c : Command) (s : Surroundings) : Silent (c.start s) := by
  intro m
  unfold start
  cases hcall : c.call s m.tree with
  | error fault => rfl
  | ok call =>
    refine Machine.executed_of_shown rfl fun e he => ?_
    rcases List.mem_cons.1 he with h | h
    · obtain rfl := Shown.event.inj h
      simp [spawned, Log.Event.executed?]
    · simp [Log.Event.executed?, Step.source_of_mem_shownOutput h]

/-- Whatever becomes of a command, its line is shown before it is started. -/
theorem executed_run (c : Command) (s : Surroundings) (m : Machine) :
    (c.run s m).2.executed = m.executed ++ [c.line] := by
  have hrest : Silent (do
      let code ← c.start s
      if code = 0 then Run.log .trace .runner "completed" [.of "process" c.displayName]
      else Run.fail (.nonZeroExit c.line code) : Run Unit) := by
    refine .bind (silent_start c s) fun code => ?_
    split
    · exact .log (Or.inr (by decide))
    · exact .fail _
  have hexec (m : Machine) : (Run.logged m ⟨.debug, .runner, "exec", [.of "cmd" c.line]⟩).executed =
      m.executed ++ [c.line] := by
    rw [Machine.executed_logged]
    simp [Log.Event.executed?, Log.Field.of]
  unfold run
  cases c.directory with
  | none =>
    dsimp only
    rw [bind_apply_ok (Run.log_apply ..), hrest, hexec]
  | some directory =>
    have hcd : Silent (Run.log .debug .runner "cd" [.of "cwd" directory.display]) := .log (Or.inr (by decide))
    dsimp only
    rw [bind_apply_ok (Run.log_apply ..), bind_apply_ok (Run.log_apply ..), hrest, hexec,
      Silent.eq hcd (Run.log_apply ..)]

end Command

namespace Step

variable {p : Project} {s : Surroundings} {m m' : Machine} {a : Action}

/-- Only Gradle steps execute commands. -/
theorem executed_other {step : Step} (hstep : ∀ a, step ≠ .gradle a) : Silent (step.run p s) := by
  cases step with
  | gradle a => exact absurd rfl (hstep a)
  | remove q =>
    change Silent (runRemove p s q)
    unfold runRemove
    split
    · exact .log (Or.inl (by decide))
    · refine .bind (.onFiles _) fun removed => ?_
      split
      · exact .log (Or.inl (by decide))
      · exact .pure _
  | collect source destination =>
    change Silent (runCollect p s source destination)
    unfold runCollect
    split
    · exact .log (Or.inl (by decide))
    · refine .bind .get fun m => ?_
      split
      · refine .bind (.onFiles _) fun stats => ?_
        split
        · exact .log (Or.inl (by decide))
        · exact .log (Or.inl (by decide))
      · exact .fail _

/-- A Gradle step that is done has found a program, and has executed its line. -/
theorem executed_gradle (hdry : p.dry = false) (h : (Step.gradle a).run p s m = (.ok (), m')) :
    ∃ program, (p.gradle a).program s m.tree = .ok program ∧
      m'.executed = m.executed ++ [((p.gradle a).command program).line] := by
  change runGradle p s a m = _ at h
  unfold runGradle Gradle.run at h
  simp only [hdry, Bool.false_eq_true, if_false] at h
  obtain ⟨_, m₁, h₁, h⟩ := of_bind_ok h
  have hm₁ : m₁.executed = m.executed := Silent.eq (.log (Or.inl (by decide))) h₁
  have htree : m₁.tree = m.tree := by rw [← (Prod.mk.inj h₁).2]
  rw [bind_apply_ok (get_apply m₁), htree] at h
  cases hprogram : (p.gradle a).program s m.tree with
  | error c =>
    rw [hprogram] at h
    cases h
  | ok program =>
    rw [hprogram] at h
    refine ⟨program, rfl, ?_⟩
    dsimp only at h
    obtain ⟨_, m₂, h₂, h⟩ := of_bind_ok h
    obtain ⟨_, m₃, h₃, h₄⟩ := of_bind_ok h
    have hm₂ : m₂.executed = m₁.executed := Silent.eq (.log (Or.inl (by decide))) h₂
    have hm₃ : m₃.executed = m₂.executed ++ [((p.gradle a).command program).line] := by
      rw [Run.inContext_apply] at h₃
      rw [← (Prod.mk.inj h₃).2]
      exact Command.executed_run _ s m₂
    have hm' : m'.executed = m₃.executed := Silent.eq (.log (Or.inl (by decide))) h₄
    rw [hm', hm₃, hm₂, hm₁]

end Step

/-- The place of the wrapper. -/
def Project.wrapperPlace (p : Project) : Path :=
  p.layout.projectRoot.absoluteFrom (p.config.gradle.wrapper.getD (.ofText defaultWrapper))

/-- The program of Gradle is the wrapper if that is a file, or else, unless one is configured, that of the search
path. -/
theorem Gradle.program_eq_ok {g : Gradle} {s : Surroundings} {t : Tree} {program : Path} :
    g.program s t = .ok program ↔ Files.isFile t s.cwd g.wrapperPath = true ∧ program = g.wrapperPath ∨
      Files.isFile t s.cwd g.wrapperPath = false ∧ g.wrapper = none ∧
        findProgram t s.cwd s.searchPath "gradle" = some program := by
  unfold Gradle.program
  by_cases hfile : Files.isFile t s.cwd g.wrapperPath = true
  · simp [hfile, eq_comm]
  · rw [Bool.not_eq_true] at hfile
    cases hwrapper : g.wrapper with
    | some w => simp [hfile]
    | none => cases hfind : findProgram t s.cwd s.searchPath "gradle" <;> simp [hfile]

namespace Task

variable {t : Task} {p : Project} {s : Surroundings} {m m₁ m' : Machine} {i : Nat}

/-! ### Runs in earnest -/

/-- These are the command lines of the first `n` Gradle steps, each with the program that was found when the step
began. -/
def Executed (t : Task) (p : Project) (s : Surroundings) (m : Machine) (n : Nat) (lines : List String) : Prop :=
  lines.length = n ∧ ∀ j line, lines[j]? = some line → ∃ m₁ a program,
    t.Reaches p s m ((t.outputs p.layout).length + j) m₁ ∧ t.actions[j]? = some a ∧
      (p.gradle a).program s m₁.tree = .ok program ∧ line = ((p.gradle a).command program).line

/-- Each Gradle step that is done has executed one line. -/
theorem Reaches.executed (hdry : p.dry = false) (h : t.Reaches p s m i m₁) : ∃ lines,
    m₁.executed = m.executed ++ lines ∧
      t.Executed p s m (min (i - (t.outputs p.layout).length) t.actions.length) lines := by
  have hlogged : ∀ (m : Machine) (e : Log.Event), e.source = .task → (Run.logged m e).executed = m.executed :=
    fun m e he => Machine.executed_of_shown rfl fun e' he' => by
      obtain rfl := Shown.event.inj (List.mem_singleton.1 he')
      simp [Log.Event.executed?, he]
  induction h with
  | start => exact ⟨[], by rw [hlogged m _ rfl, List.append_nil], by simp [Executed]⟩
  | @step i m₁ m₂ step hreach hstep hrun ih =>
    obtain ⟨lines, hlines, hlength, hall⟩ := ih
    have hheader := hlogged m₁ (t.headerEvent p i step) rfl
    rcases plan_cases hstep with ⟨q, hq, rfl⟩ | ⟨j, a, rfl, ha, rfl⟩ | ⟨rfl, rfl⟩
    · have hlt := (List.getElem?_eq_some_iff.1 hq).1
      have hsilent := Silent.eq (Step.executed_other (by simp)) hrun
      refine ⟨lines, by rw [hsilent, hheader, hlines], ?_, hall⟩
      omega
    · obtain ⟨program, hprogram, hexecuted⟩ := Step.executed_gradle hdry hrun
      have hlt := (List.getElem?_eq_some_iff.1 ha).1
      refine ⟨lines ++ [((p.gradle a).command program).line], ?_, ?_, fun j' line hline => ?_⟩
      · rw [hexecuted, hheader, hlines, List.append_assoc]
      · rw [List.length_append, List.length_singleton]
        omega
      -- a line is one of those before, or that of this step
      · rcases Nat.lt_or_ge j' lines.length with hj | hj
        · rw [List.getElem?_append_left hj] at hline
          exact hall j' line hline
        · rw [List.getElem?_append_right hj, List.getElem?_singleton] at hline
          split at hline
          · obtain rfl : j' = j := by omega
            exact ⟨m₁, a, program, hreach, ha, hprogram, (Option.some.inj hline).symm⟩
          · cases hline
    · have hsilent := Silent.eq (Step.executed_other (by simp)) hrun
      refine ⟨lines, by rw [hsilent, hheader, hlines], ?_, hall⟩
      omega

theorem headlines_eq (m : Machine) : m.headlines = (Task.log m).filter (·.message.toList.head? = some '[') := by
  unfold Machine.headlines Task.log
  rw [List.filter_filter]
  refine List.filter_congr fun e _ => ?_
  rw [Log.Event.isHeadline, Bool.and_comm]

/-- The headlines of a run are those of the steps done. -/
theorem Reaches.headlines (hdry : p.dry = false) (h : t.Reaches p s m i m₁) :
    m₁.headlines = m.headlines ++ t.headers p i := by
  have hall : ∀ e ∈ t.headers p i, e.message.toList.head? = some '[' := by
    intro e he
    obtain ⟨k, hk, rfl⟩ := List.mem_mapIdx.1 he
    simp [headerEvent, stepHeadline]
  have hstart : (t.startEvent p).message.toList.head? ≠ some '[' := by simp [startEvent]
  have hself : (t.headers p i).filter (·.message.toList.head? = some '[') = t.headers p i :=
    List.filter_eq_self.2 (by simpa using hall)
  rw [headlines_eq, headlines_eq, h.log hdry, List.filter_append, List.filter_cons_of_neg (by simpa using hstart),
    hself]

/-- A run that comes to a good end has done all Gradle steps, and has shown all headlines. -/
theorem executed_run (hdry : p.dry = false) (h : t.run p s m = (.ok (), m')) : ∃ lines,
    m'.executed = m.executed ++ lines ∧ t.Executed p s m t.actions.length lines ∧
      m'.headlines = m.headlines ++ t.headers p (t.plan p.layout).length := by
  rcases run_cases h with ⟨m₁, hreach, -, rfl⟩ | ⟨j, step, m₁, f, -, -, -, hf⟩
  · obtain ⟨lines, hlines, hexecuted⟩ := hreach.executed hdry
    have hall : min ((t.plan p.layout).length - (t.outputs p.layout).length) t.actions.length = t.actions.length := by
      rw [length_plan]
      omega
    rw [hall] at hexecuted
    have hend : (Run.logged m₁ t.endEvent).executed = m₁.executed := by
      rw [Machine.executed_logged]
      exact List.append_nil _
    have hheadlines : (Run.logged m₁ t.endEvent).headlines = m₁.headlines := by
      unfold Machine.headlines
      rw [Machine.events_logged, List.filter_append]
      simp [Log.Event.isHeadline, endEvent]
    exact ⟨lines, by rw [hend, hlines], hexecuted, by rw [hheadlines, hreach.headlines hdry]⟩
  · cases hf

/-- The program of a step is the wrapper if that is a file when the step begins, or else that of the search path. -/
theorem Executed.line {n : Nat} {lines : List String} {a : Action} (h : t.Executed p s m n lines)
    (ha : t.actions[i]? = some a) (hi : i < n) : ∃ m₁ program,
      t.Reaches p s m ((t.outputs p.layout).length + i) m₁ ∧
      lines[i]? = some ((p.gradle a).command program).line ∧
      (Files.isFile m₁.tree s.cwd p.wrapperPlace = true ∧ program = p.wrapperPlace ∨
        Files.isFile m₁.tree s.cwd p.wrapperPlace = false ∧ p.config.gradle.wrapper = none ∧
          findProgram m₁.tree s.cwd s.searchPath "gradle" = some program) := by
  obtain ⟨hlength, hall⟩ := h
  have hlt : i < lines.length := by omega
  obtain ⟨m₁, a', program, hreach, ha', hprogram, hline⟩ := hall i _ (List.getElem?_eq_getElem hlt)
  obtain rfl := Option.some.inj (ha'.symm.trans ha)
  refine ⟨m₁, program, hreach, ?_, Gradle.program_eq_ok.1 hprogram⟩
  rw [List.getElem?_eq_getElem hlt, hline]

/-- With a wrapper that is configured, or always there, all lines are those of the wrapper. -/
theorem Executed.eq_wrapper {lines : List String} (h : t.Executed p s m t.actions.length lines)
    (hwrapper : p.config.gradle.wrapper ≠ none ∨
      ∀ i m₁, t.Reaches p s m i m₁ → Files.isFile m₁.tree s.cwd p.wrapperPlace = true) :
    lines = t.actions.map fun a => ((p.gradle a).command p.wrapperPlace).line := by
  refine List.ext_getElem? fun i => ?_
  by_cases hi : i < t.actions.length
  · obtain ⟨a, ha⟩ : ∃ a, t.actions[i]? = some a := ⟨_, List.getElem?_eq_getElem hi⟩
    obtain ⟨m₁, program, hreach, hline, hprogram⟩ := h.line ha hi
    have heq : program = p.wrapperPlace := by
      rcases hprogram with ⟨-, heq⟩ | ⟨hfile, hnone, -⟩
      · exact heq
      · rcases hwrapper with hsome | hthere
        · exact absurd hnone hsome
        · rw [hthere _ _ hreach] at hfile
          cases hfile
    rw [hline, heq, List.getElem?_map, ha, Option.map_some]
  · rw [List.getElem?_eq_none (by rw [h.1]; omega), List.getElem?_eq_none (by rw [List.length_map]; omega)]

end Task

/-! ### Dry runs -/

/-- The command line that a dry run shows for a step. -/
def Step.predictedLine? (p : Project) : Step → Option String
  | gradle a => some ((p.gradle a).command (p.gradle a).wrapperPath).line
  | remove _ | collect _ _ => none

variable {p : Project} {s : Surroundings} {m m' : Machine}

theorem dropStart?_append (start rest : List Char) :
    Config.dropStart? start (start ++ rest) = some rest := by
  induction start with
  | nil => simp [Config.dropStart?]
  | cons c cs ih => simpa [Config.dropStart?] using ih

private theorem predicted?_preview (step : Step) : (step.preview p).predicted? = step.predictedLine? p := by
  cases step with
  | remove | collect => simp [Step.preview, Log.Event.predicted?, Step.predictedLine?]
  | gradle a =>
    have hline : ∀ line : String, Config.dropStart? "[dry-run] Would run `".toList
        ("[dry-run] Would run `" ++ line ++ "`").toList = some (line.toList ++ "`".toList) := by
      intro line
      rw [String.toList_append, String.toList_append, List.append_assoc, dropStart?_append]
    simp only [Step.preview, Log.Event.predicted?, if_true, hline, Step.predictedLine?, Option.map_some]
    simp

private theorem predicted_foretold (t : Task) (i : Nat) (step : Step) :
    (t.foretold p i step).filterMap (·.predicted?) = (step.predictedLine? p).toList := by
  have hheader : (t.headerEvent p i step).predicted? = none := rfl
  have hnotice : step.notice.filterMap (·.predicted?) = [] := by cases step <;> rfl
  rw [Task.foretold, List.filterMap_append, List.filterMap_cons_none hheader, hnotice]
  cases hline : step.predictedLine? p <;> simp [predicted?_preview, hline]

private theorem headlines_foretold (t : Task) (i : Nat) (step : Step) :
    (t.foretold p i step).filter (·.isHeadline) = [t.headerEvent p i step] := by
  have hheader : (t.headerEvent p i step).isHeadline = true := by
    simp [Log.Event.isHeadline, Task.headerEvent, Task.stepHeadline]
  have hrest : ∀ e ∈ step.notice ++ [step.preview p], e.isHeadline = false := by
    intro e he
    have hsource : e.source ≠ .task := by
      cases step with
      | remove | collect =>
        obtain rfl := List.mem_singleton.1 he
        simp [Step.preview]
      | gradle a =>
        rcases List.mem_cons.1 he with rfl | he
        · simp
        · obtain rfl := List.mem_singleton.1 he
          simp [Step.preview]
    simp [Log.Event.isHeadline, hsource]
  rw [Task.foretold, List.cons_append, List.filter_cons_of_pos hheader,
    List.filter_eq_nil_iff.2 fun e he => by simp [hrest e he]]

private theorem predicted_steps (t : Task) (f : Nat → Nat) (steps : List Step) :
    ((steps.mapIdx fun i => t.foretold p (f i)).flatten).filterMap (·.predicted?) =
      steps.filterMap (Step.predictedLine? p) := by
  induction steps generalizing f with
  | nil => rfl
  | cons step rest ih =>
    rw [List.mapIdx_cons, List.flatten_cons, List.filterMap_append, predicted_foretold, ih fun i => f (i + 1)]
    cases hline : step.predictedLine? p with
    | none => rw [List.filterMap_cons_none hline, Option.toList_none, List.nil_append]
    | some line => rw [List.filterMap_cons_some hline, Option.toList_some, List.singleton_append]

private theorem headlines_steps (t : Task) (f : Nat → Nat) (steps : List Step) :
    ((steps.mapIdx fun i => t.foretold p (f i)).flatten).filter (·.isHeadline) =
      steps.mapIdx fun i => t.headerEvent p (f i) := by
  induction steps generalizing f with
  | nil => rfl
  | cons step rest ih =>
    rw [List.mapIdx_cons, List.flatten_cons, List.filter_append, headlines_foretold, ih fun i => f (i + 1),
      List.mapIdx_cons, List.singleton_append]

/-- Of the steps of a plan the Gradle steps show a line. -/
private theorem predictedLine?_plan (t : Task) (l : Layout) : (t.plan l).filterMap (Step.predictedLine? p) =
    t.actions.map fun a => ((p.gradle a).command (p.gradle a).wrapperPath).line := by
  have hremoved : ((t.outputs l).map Step.remove).filterMap (Step.predictedLine? p) = [] := by
    rw [List.filterMap_map]
    exact List.filterMap_eq_nil_iff.2 fun _ _ => rfl
  have hactions : (t.actions.map Step.gradle).filterMap (Step.predictedLine? p) =
      t.actions.map fun a => ((p.gradle a).command (p.gradle a).wrapperPath).line := by
    rw [List.filterMap_map, ← List.filterMap_eq_map]
    rfl
  rw [Task.plan, List.filterMap_append, List.filterMap_append, hremoved, hactions, List.nil_append]
  exact List.append_nil _

/-- What a dry run of a task predicts. -/
theorem Task.predicted_dry (hdry : p.dry = true) (t : Task) (m : Machine) :
    (t.run p s m).2.predicted =
        m.predicted ++ t.actions.map (fun a => ((p.gradle a).command (p.gradle a).wrapperPath).line) ∧
      (t.run p s m).2.headlines = m.headlines ++ t.headers p (t.plan p.layout).length := by
  rw [(Task.logs_dry (s := s) hdry t).apply m]
  unfold Machine.predicted Machine.headlines
  rw [Machine.events_append]
  have hstart : (t.startEvent p).predicted? = none ∧ (t.startEvent p).isHeadline = false := ⟨rfl, by
    simp [Log.Event.isHeadline, Task.startEvent]⟩
  have hend : t.endEvent.predicted? = none ∧ t.endEvent.isHeadline = false := ⟨rfl, by
    simp [Log.Event.isHeadline, Task.endEvent]⟩
  have hpredicted := predicted_steps (p := p) t id (t.plan p.layout)
  have hheadlines := headlines_steps (p := p) t id (t.plan p.layout)
  simp only [id] at hpredicted hheadlines
  constructor
  · rw [List.filterMap_append, List.filterMap_cons_none hstart.1, List.filterMap_append, hpredicted,
      List.filterMap_cons_none hend.1, List.filterMap_nil, List.append_nil, predictedLine?_plan]
  · rw [List.filter_append, List.filter_cons_of_neg (by simp [hstart.2]), List.filter_append, hheadlines,
      List.filter_cons_of_neg (by simp [hend.2]), List.filter_nil, List.append_nil, Task.headers, List.take_length]

/-! ### Builds -/

/-- The same configuration, for a dry run or in earnest. -/
def LoadedConfig.withDry (loaded : LoadedConfig) (dry : Bool) : LoadedConfig :=
  { loaded with config.globals.dry := dry }

/-- The machine when a build comes to its task. -/
def LoadedConfig.opened (loaded : LoadedConfig) (r : Request) (root : Path) (m : Machine) : Machine :=
  { m with shown := m.shown ++ (loaded.opening r root).map .event }

/-- What a build logs ahead of its task tells of no step. -/
private theorem opened_tells (loaded : LoadedConfig) (r : Request) (root : Path) (m : Machine) :
    (loaded.opened r root m).executed = m.executed ∧ (loaded.opened r root m).predicted = m.predicted ∧
      (loaded.opened r root m).headlines = m.headlines := by
  have hsource : ∀ e ∈ loaded.opening r root, e.source = .build := by
    intro e he
    unfold LoadedConfig.opening at he
    simp only [List.mem_append, List.mem_map, List.mem_singleton] at he
    rcases he with ((⟨file, -, rfl⟩ | ⟨line, -, rfl⟩) | he) | rfl
    · rfl
    · rfl
    · split at he
      · rw [List.mem_singleton.1 he]
      · cases he
    · rfl
  unfold LoadedConfig.opened Machine.executed Machine.predicted Machine.headlines
  rw [Machine.events_append, List.filterMap_append, List.filterMap_append, List.filter_append]
  refine ⟨?_, ?_, ?_⟩
  · refine List.append_right_eq_self.2 (List.filterMap_eq_nil_iff.2 fun e he => ?_)
    simp [Log.Event.executed?, hsource e he]
  · refine List.append_right_eq_self.2 (List.filterMap_eq_nil_iff.2 fun e he => ?_)
    simp [Log.Event.predicted?, hsource e he]
  · refine List.append_right_eq_self.2 (List.filter_eq_nil_iff.2 fun e he => ?_)
    simp [Log.Event.isHeadline, hsource e he]

variable {r : Request} {loaded : LoadedConfig}

/-- A dry run of a build predicts a line for each Gradle step. -/
private theorem runBuild_predicted (hp : Project.ofConfig loaded.config = .ok p) (hdry : p.dry = true) (m : Machine) :
    ∃ md, runBuild r loaded s m = (.ok (), md) ∧
      md.predicted =
        m.predicted ++ r.task.actions.map (fun a => ((p.gradle a).command (p.gradle a).wrapperPath).line) ∧
      md.headlines = m.headlines ++ r.task.headers p (r.task.plan p.layout).length := by
  obtain ⟨-, hpredicted₀, hheadlines₀⟩ := opened_tells loaded r p.layout.projectRoot m
  obtain ⟨hpredicted, hheadlines⟩ :=
    Task.predicted_dry (s := s) hdry r.task (loaded.opened r p.layout.projectRoot m)
  have hgood := (Task.logs_dry (s := s) hdry r.task).apply (loaded.opened r p.layout.projectRoot m)
  rw [hgood] at hpredicted hheadlines
  rw [hpredicted₀] at hpredicted
  rw [hheadlines₀] at hheadlines
  exact ⟨_, (runBuild_apply hp m).trans hgood, hpredicted, hheadlines⟩

/-- A build that comes to a good end has executed a line for each Gradle step. -/
private theorem runBuild_executed (hp : Project.ofConfig loaded.config = .ok p) (hdry : p.dry = false)
    (h : runBuild r loaded s m = (.ok (), m')) : ∃ lines, m'.executed = m.executed ++ lines ∧
      r.task.Executed p s (loaded.opened r p.layout.projectRoot m) r.task.actions.length lines ∧
      m'.headlines = m.headlines ++ r.task.headers p (r.task.plan p.layout).length := by
  obtain ⟨hexecuted₀, -, hheadlines₀⟩ := opened_tells loaded r p.layout.projectRoot m
  obtain ⟨lines, hexecuted, hlines, hheadlines⟩ := Task.executed_run hdry ((runBuild_apply hp m).symm.trans h)
  exact ⟨lines, hexecuted.trans (by rw [← hexecuted₀]; rfl), hlines, hheadlines.trans (by rw [← hheadlines₀]; rfl)⟩

/-- A build that comes to a good end, and its dry run: both show the same headlines, and the dry run predicts as many
command lines as are executed.  Each is predicted with the wrapper at its place, and executed so if the wrapper is a
file when the step begins; else, and then none is configured, it is executed with the program of the search path, and
is the same but for that. -/
theorem runBuild_predicts (r : Request) (loaded : LoadedConfig) (s : Surroundings) (m m' : Machine) {root : Path}
    (hroot : loaded.config.paths.projectRoot = some root)
    (h : runBuild r (loaded.withDry false) s m = (.ok (), m')) :
    ∃ p m₀ md predicted executed, Project.ofConfig (loaded.withDry false).config = .ok p ∧
      m₀ = (loaded.withDry false).opened r root m ∧ runBuild r (loaded.withDry true) s m = (.ok (), md) ∧
      m'.headlines = m.headlines ++ r.task.headers p (r.task.plan p.layout).length ∧ md.headlines = m'.headlines ∧
      md.predicted = m.predicted ++ predicted ∧ m'.executed = m.executed ++ executed ∧
      predicted.length = r.task.actions.length ∧ executed.length = r.task.actions.length ∧
      (∀ i a, r.task.actions[i]? = some a → ∃ m₁ program,
        r.task.Reaches p s m₀ ((r.task.outputs p.layout).length + i) m₁ ∧
        predicted[i]? = some ((p.gradle a).command p.wrapperPlace).line ∧
        executed[i]? = some ((p.gradle a).command program).line ∧
        (Files.isFile m₁.tree s.cwd p.wrapperPlace = true ∧ program = p.wrapperPlace ∨
          Files.isFile m₁.tree s.cwd p.wrapperPlace = false ∧ p.config.gradle.wrapper = none ∧
            findProgram m₁.tree s.cwd s.searchPath "gradle" = some program)) ∧
      (p.config.gradle.wrapper ≠ none ∨ Files.isFile m.tree s.cwd p.wrapperPlace = true ∧
          (∀ i m₁, r.task.Reaches p s m₀ i m₁ →
            Files.isFile m₁.tree s.cwd p.wrapperPlace = Files.isFile m.tree s.cwd p.wrapperPlace) →
        executed = predicted) := by
  have hp := Project.ofConfig_eq (c := (loaded.withDry false).config) hroot
  have hpd := Project.ofConfig_eq (c := (loaded.withDry true).config) hroot
  obtain ⟨md, hgood, hpredicted, hheadlinesd⟩ := runBuild_predicted (r := r) (s := s) hpd rfl m
  obtain ⟨executed, hexecuted, hall, hheadlines⟩ := runBuild_executed hp rfl h
  refine ⟨_, _, md, _, executed, hp, rfl, hgood, hheadlines, ?_, hpredicted, hexecuted, List.length_map _, hall.1,
    fun i a ha => ?_, fun hwrapper => ?_⟩
  · rw [hheadlines]
    exact hheadlinesd
  · obtain ⟨m₁, program, hreach, hline, hprogram⟩ := hall.line ha (List.getElem?_eq_some_iff.1 ha).1
    refine ⟨m₁, program, hreach, ?_, hline, hprogram⟩
    rw [List.getElem?_map, ha]
    rfl
  · refine hall.eq_wrapper (hwrapper.imp_right fun ⟨hfile, hkept⟩ i m₁ hreach => ?_)
    rw [← hfile]
    exact hkept i m₁ hreach

/-- A project whose documentation is there, with a file of some name that can be executed. -/
def Tree.withProgram (directory name : String) : Tree := .ofEntries [([encode "p"], .directory),
  ([encode "p", encode "build"], .directory), ([encode "p", encode "build", encode "docs"], .directory),
  ([encode directory], .directory), ([encode directory, encode name], .file (encode "#!") true)]

/-- A search path of one directory, and children that change nothing. -/
def Surroundings.searching (path : String) : Surroundings := ⟨[], [("PATH", encode path)], fun _ _ tree => { tree }⟩

/-- A project without settings but the wrapper. -/
def LoadedConfig.wrapped (wrapper : Option Path) : LoadedConfig :=
  ⟨{ paths := { projectRoot := some (.ofText "/p") }, gradle := { wrapper } }, []⟩

theorem runBuild_predicts_wrapped :
    (LoadedConfig.wrapped (some (.ofText "/tools/g w"))).config.paths.projectRoot = some (.ofText "/p") ∧
    (runBuild ⟨.doc, false⟩ ((LoadedConfig.wrapped (some (.ofText "/tools/g w"))).withDry false) (.searching "/bin")
      { tree := .withProgram "tools" "g w" }).1 = .ok () ∧
    (runBuild ⟨.doc, false⟩ ((LoadedConfig.wrapped (some (.ofText "/tools/g w"))).withDry false) (.searching "/bin")
      { tree := .withProgram "tools" "g w" }).2.executed =
    (runBuild ⟨.doc, false⟩ ((LoadedConfig.wrapped (some (.ofText "/tools/g w"))).withDry true) (.searching "/bin")
      { tree := .withProgram "tools" "g w" }).2.predicted := by
  have hgood : (runBuild ⟨.doc, false⟩ ((LoadedConfig.wrapped (some (.ofText "/tools/g w"))).withDry false)
      (.searching "/bin") { tree := .withProgram "tools" "g w" }).1 = .ok () := by decide +kernel
  obtain ⟨m', hm'⟩ := exists_state hgood
  obtain ⟨p, m₀, md, predicted, executed, hp, -, hmd, -, -, hpredicted, hexecuted, -, -, -, hsame⟩ :=
    runBuild_predicts ⟨.doc, false⟩ (.wrapped (some (.ofText "/tools/g w"))) (.searching "/bin")
      { tree := .withProgram "tools" "g w" } m' rfl hm'
  have hwrapper : p.config.gradle.wrapper ≠ none := by
    rw [Project.ofConfig_eq (c := ((LoadedConfig.wrapped _).withDry false).config) rfl] at hp
    rw [← Except.ok.inj hp]
    exact Option.some_ne_none _
  rw [hm', hmd]
  refine ⟨rfl, rfl, ?_⟩
  rw [hpredicted, hexecuted, hsame (Or.inl hwrapper)]
  rfl

/-- Without a wrapper a build in earnest takes Gradle from the search path, and its dry run predicts the wrapper all the
same, although nothing ever changes at the place of the wrapper. -/
theorem runBuild_unpredicted :
    (runBuild ⟨.doc, false⟩ ((LoadedConfig.wrapped none).withDry false) (.searching "/bin")
      { tree := .withProgram "bin" "gradle" }).1 = .ok () ∧
    Files.isFile (.withProgram "bin" "gradle") [] (.ofText "/p/gradlew") = false ∧
    Files.isFile (runBuild ⟨.doc, false⟩ ((LoadedConfig.wrapped none).withDry false) (.searching "/bin")
      { tree := .withProgram "bin" "gradle" }).2.tree [] (.ofText "/p/gradlew") = false ∧
    (runBuild ⟨.doc, false⟩ ((LoadedConfig.wrapped none).withDry true) (.searching "/bin")
      { tree := .withProgram "bin" "gradle" }).2.predicted = ["/p/gradlew --console=plain -p /p :javadoc"] ∧
    (runBuild ⟨.doc, false⟩ ((LoadedConfig.wrapped none).withDry false) (.searching "/bin")
      { tree := .withProgram "bin" "gradle" }).2.executed = ["/bin/gradle --console=plain -p /p :javadoc"] := by
  refine ⟨?_, ?_, ?_, ?_, ?_⟩ <;> decide +kernel

end GradleBuild
