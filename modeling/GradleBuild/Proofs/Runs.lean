import GradleBuild.Proofs.Removal
import GradleBuild.Proofs.Steps
import Mathlib.Data.List.Basic

/-!
# Runs of a plan

`Task.Reaches` says that the first steps of a plan have been done without failure, and which machine they left.  What
holds along a run is proved by induction on it.

* `run_cases`: a run comes to the end of its plan, or to a step that fails.
* `of_run_ok`: a run to a good end has collected last.
* `Reaches.extends`, `Reaches.gone`: as long as only removals were done the tree has shrunk, and their targets are gone.
* `Reaches.calls`: each Gradle step done has recorded one call.
* `exists_step_of_ne`: what differs after a run was changed by a step that the run came to.
-/

namespace GradleBuild

/-- A project below a root, without settings. -/
def Project.plain (root : Path) : Project := ⟨{ paths := { projectRoot := some root } }, .below root, false⟩

/-- A configuration with a root makes a project. -/
theorem Project.ofConfig_eq {c : Config} {root : Path} (h : c.paths.projectRoot = some root) :
    Project.ofConfig c = .ok ⟨c, c.paths.layoutFrom root, c.globals.dry⟩ := by
  simp [Project.ofConfig, Config.layout, PathsConfig.resolve, h, bind, Except.bind, pure, Except.pure]

/-- The call of a command has its arguments, and its directory. -/
theorem call_ok {c : Command} {s : Surroundings} {t : Tree} {call : Call} (h : c.call s t = .ok call) :
    call.arguments = c.arguments ∧ ∀ d, c.directory = some d →
      ∃ cs, Files.stat t s.cwd d true = .ok (call.directory, .directory cs) := by
  unfold Command.call at h
  split at h
  · simp at h
  · rcases hd : c.directoryFor t s.cwd with e | l
    · simp [hd, bind, Except.bind] at h
    · rcases he : executed? t l s.searchPath c.program with e | q
      · simp [hd, he, bind, Except.bind] at h
      · simp only [hd, he, bind, Except.bind, pure, Except.pure, Except.ok.injEq] at h
        subst h
        refine ⟨rfl, fun d hdir => ?_⟩
        unfold Command.directoryFor at hd
        rw [hdir] at hd
        rcases hstat : Files.stat t s.cwd d true with e | ⟨l', n⟩
        · simp [hstat] at hd
        · simp only [hstat] at hd
          cases n with
          | directory cs =>
            obtain rfl := Except.ok.inj hd
            exact ⟨cs, rfl⟩
          | file | link => cases hd

namespace Task

variable {t : Task} {p : Project} {s : Surroundings} {m m₁ m₂ m' : Machine} {i j : Nat} {step : Step}
  {r : Except Failure Unit} {k : Location}

/-- The event at the start of a run. -/
def startEvent (t : Task) (p : Project) : Log.Event where
  level := .info
  source := .task
  message := "Starting build"
  fields := [.of "component" t.component.name, .of "steps" (toString (t.plan p.layout).length),
    .of "dry_run" (toString p.dry)]

/-- The event before the step number `i`. -/
def headerEvent (t : Task) (p : Project) (i : Nat) (step : Step) : Log.Event where
  level := .info
  source := .task
  message := stepHeadline i (t.plan p.layout).length step
  fields := [.of "component" t.component.name]

/-- The event at the end of a run without a failure. -/
def endEvent (t : Task) : Log.Event where
  level := .info
  source := .task
  message := "Build completed successfully"
  fields := [.of "component" t.component.name]

/-- What a step does once its headline is shown. -/
def announced (t : Task) (p : Project) (s : Surroundings) (i : Nat) (step : Step) (m : Machine) :
    Except Failure Unit × Machine := step.run p s (Run.logged m (t.headerEvent p i step))

/-- From a start, the first steps of the plan have been done without failure, and have left a machine. -/
inductive Reaches (t : Task) (p : Project) (s : Surroundings) (m : Machine) : Nat → Machine → Prop
  | start : Reaches t p s m 0 (Run.logged m (t.startEvent p))
  | step {i : Nat} {m₁ m₂ : Machine} {step : Step} : Reaches t p s m i m₁ → (t.plan p.layout)[i]? = some step →
      t.announced p s i step m₁ = (.ok (), m₂) → Reaches t p s m (i + 1) m₂

theorem Reaches.unique (h : Reaches t p s m i m₁) (h' : Reaches t p s m i m₂) : m₁ = m₂ := by
  induction h generalizing m₂ with
  | start => cases h'; rfl
  | step _ hstep hrun ih =>
    cases h' with
    | step h' hstep' hrun' =>
      rw [hstep, Option.some.injEq] at hstep'
      subst hstep'
      rw [ih h', hrun'] at hrun
      exact (Prod.mk.inj hrun).2.symm

theorem Reaches.le_length (h : Reaches t p s m i m₁) : i ≤ (t.plan p.layout).length := by
  cases h with
  | start => exact Nat.zero_le _
  | step _ hstep _ => exact (List.getElem?_eq_some_iff.1 hstep).1

private theorem runSteps_cases {steps : List Step} (hi : Reaches t p s m i m₁)
    (hsteps : (t.plan p.layout).drop i = steps)
    (h : runSteps t.component (t.plan p.layout).length p s i steps m₁ = (r, m')) :
    Reaches t p s m (t.plan p.layout).length m' ∧ r = .ok () ∨
      ∃ j step m₂ f, Reaches t p s m j m₂ ∧ (t.plan p.layout)[j]? = some step ∧
        t.announced p s j step m₂ = (.error f, m') ∧ r = .error (f.inContext (failureContext t.component step)) := by
  induction steps generalizing i m₁ with
  | nil =>
    obtain ⟨rfl, rfl⟩ := Prod.mk.inj h
    have hle : (t.plan p.layout).length ≤ i := List.drop_eq_nil_iff.1 hsteps
    refine Or.inl ⟨?_, rfl⟩
    have hge : i ≤ (t.plan p.layout).length := hi.le_length
    obtain rfl : i = (t.plan p.layout).length := by omega
    exact hi
  | cons step rest ih =>
    have hstep : (t.plan p.layout)[i]? = some step := by
      rw [← List.head?_drop, hsteps, List.head?_cons]
    have hrest : (t.plan p.layout).drop (i + 1) = rest := by
      rw [← List.tail_drop, hsteps, List.tail_cons]
    unfold runSteps at h
    rw [bind_apply_ok (Run.log_apply ..)] at h
    change (Run.inContext (failureContext t.component step) (step.run p s) >>= _)
      (Run.logged m₁ (t.headerEvent p i step)) = _ at h
    -- the header has been logged, and the step runs in its context
    rcases hrun : t.announced p s i step m₁ with ⟨f | u, m₂⟩
    · have herror := Run.inContext_apply (failureContext t.component step) (step.run p s)
        (Run.logged m₁ (t.headerEvent p i step))
      unfold announced at hrun
      rw [hrun] at herror
      rw [bind_apply_error herror] at h
      obtain ⟨rfl, rfl⟩ := Prod.mk.inj h
      exact Or.inr ⟨i, step, m₁, f, hi, hstep, hrun, rfl⟩
    · have hok := Run.inContext_apply (failureContext t.component step) (step.run p s)
        (Run.logged m₁ (t.headerEvent p i step))
      unfold announced at hrun
      rw [hrun] at hok
      rw [bind_apply_ok hok] at h
      exact ih (.step hi hstep hrun) hrest h

/-- A run comes to the end of its plan, or to a step that fails. -/
theorem run_cases (h : t.run p s m = (r, m')) :
    (∃ m₁, Reaches t p s m (t.plan p.layout).length m₁ ∧ r = .ok () ∧ m' = Run.logged m₁ t.endEvent) ∨
      ∃ j step m₁ f, Reaches t p s m j m₁ ∧ (t.plan p.layout)[j]? = some step ∧
        t.announced p s j step m₁ = (.error f, m') ∧ r = .error (f.inContext (failureContext t.component step)) := by
  unfold Task.run at h
  rw [bind_apply_ok (Run.log_apply ..)] at h
  rcases of_bind h with ⟨u, m₁, hsteps, hend⟩ | ⟨f, hsteps, rfl⟩
  · obtain ⟨rfl, rfl⟩ := Prod.mk.inj hend
    rcases runSteps_cases .start rfl hsteps with ⟨hr, -⟩ | ⟨_, _, _, _, -, -, -, hf⟩
    · exact Or.inl ⟨m₁, hr, rfl, rfl⟩
    · cases hf
  · rcases runSteps_cases .start rfl hsteps with ⟨-, hf⟩ | hcases
    · cases hf
    · exact Or.inr hcases

/-! ### The plan -/

theorem length_plan (t : Task) (l : Layout) : (t.plan l).length = (t.outputs l).length + t.actions.length + 1 := by
  simp [plan, Nat.add_assoc]

/-- A plan removes the outputs, then runs Gradle, then collects. -/
theorem plan_cases {l : Layout} (h : (t.plan l)[i]? = some step) :
    (∃ q, (t.outputs l)[i]? = some q ∧ step = .remove q) ∨
      (∃ j a, i = (t.outputs l).length + j ∧ t.actions[j]? = some a ∧ step = .gradle a) ∨
        i = (t.outputs l).length + t.actions.length ∧ step = .collect (t.products l) l.java := by
  unfold plan at h
  -- an index falls into one of the three parts
  by_cases h₁ : i < (t.outputs l).length
  · rw [List.append_assoc, List.getElem?_append_left (by simpa using h₁), List.getElem?_map] at h
    obtain ⟨q, hq, rfl⟩ := Option.map_eq_some_iff.1 h
    exact Or.inl ⟨q, hq, rfl⟩
  · right
    rw [List.append_assoc, List.getElem?_append_right (by simpa using h₁), List.length_map] at h
    obtain ⟨j, rfl⟩ := Nat.exists_eq_add_of_le (Nat.le_of_not_lt h₁)
    rw [Nat.add_sub_cancel_left] at h
    by_cases h₂ : j < t.actions.length
    · rw [List.getElem?_append_left (by simpa using h₂), List.getElem?_map] at h
      obtain ⟨a, ha, rfl⟩ := Option.map_eq_some_iff.1 h
      exact Or.inl ⟨j, a, rfl, ha, rfl⟩
    · right
      rw [List.getElem?_append_right (by simpa using h₂), List.length_map, List.getElem?_singleton] at h
      split at h
      · rename_i hj
        simp only [Option.some.injEq] at h
        exact ⟨by omega, h.symm⟩
      · simp at h

/-- A run to a good end has come to its collect step and has done it. -/
theorem of_run_ok (h : (t.run p s m).1 = .ok ()) :
    ∃ n m', t.Reaches p s m ((t.outputs p.layout).length + t.actions.length) n ∧
      t.announced p s ((t.outputs p.layout).length + t.actions.length)
        (.collect (t.products p.layout) p.layout.java) n = (.ok (), m') ∧ (t.run p s m).2.tree = m'.tree := by
  rcases hrun : t.run p s m with ⟨r, m'⟩
  rw [hrun] at h
  rcases run_cases hrun with ⟨n, hreach, -, rfl⟩ | ⟨_, _, _, _, -, -, -, hr⟩
  · rw [length_plan] at hreach
    cases hreach with
    | step hreach hstep hlast =>
      rcases plan_cases hstep with ⟨q, hq, -⟩ | ⟨j, a, hj, ha, -⟩ | ⟨-, rfl⟩
      · have := (List.getElem?_eq_some_iff.1 hq).1
        omega
      · have := (List.getElem?_eq_some_iff.1 ha).1
        omega
      · exact ⟨_, n, hreach, hlast, rfl⟩
  · rw [hr] at h
    simp at h

/-! ### What a run preserves -/

/-- Until the outputs are removed the tree only shrinks, and no child is started. -/
theorem Reaches.removals (hdry : p.dry = false) (h : Reaches t p s m i m₁) (hi : i ≤ (t.outputs p.layout).length) :
    m₁.tree.Extends m.tree ∧ m₁.calls = m.calls := by
  induction h with
  | start => exact ⟨.refl _, rfl⟩
  | step _ hstep hrun ih =>
    obtain ⟨ht, hc⟩ := ih (by omega)
    rcases plan_cases hstep with ⟨q, -, rfl⟩ | ⟨j, -, rfl, -⟩ | ⟨rfl, -⟩
    · obtain ⟨htree, hcalls, -⟩ := Step.remove_step hdry hrun
      rw [htree, hcalls]
      exact ⟨(Files.remove_spec ..).extends.trans ht, hc⟩
    · omega
    · omega

/-- An output that has been removed is gone, and later removals do not bring it back. -/
theorem Reaches.gone (hdry : p.dry = false) (h : Reaches t p s m i m₁) (hi : i ≤ (t.outputs p.layout).length)
    (hj : j < i) {q : Path} (hq : (t.outputs p.layout)[j]? = some q) (l : Location) (n : Node) :
    Files.stat m₁.tree s.cwd q false ≠ .ok (l, n) := by
  induction h generalizing l n with
  | start => omega
  | @step i _ _ _ _ hstep hrun ih =>
    rcases plan_cases hstep with ⟨q', hq', rfl⟩ | ⟨j, -, rfl, -⟩ | ⟨rfl, -⟩
    · obtain ⟨htree, -, -, hok⟩ := Step.remove_step hdry hrun
      obtain ⟨b, hb⟩ := hok rfl
      rw [htree]
      by_cases hji : j = i
      · subst hji
        obtain rfl := Option.some.inj (hq.symm.trans hq')
        exact (Files.remove_spec ..).gone hb l n
      · -- what names something after a removal named it before
        intro hstat
        obtain ⟨n', hn'⟩ := Files.stat_extends (Files.remove_spec ..).extends hstat
        exact ih (by omega) (by omega) l n' hn'
    · omega
    · omega

/-- After the calls so far come those of the first `n` Gradle steps, each made where the root of the project led when
its step began. -/
def Calls (t : Task) (p : Project) (s : Surroundings) (m : Machine) (n : Nat) (calls : List Call) : Prop :=
  ∃ made : List Call, calls = m.calls ++ made ∧
    made.map Call.arguments = (t.actions.take n).map (fun a => (p.gradle a).arguments) ∧
    ∀ j call, made[j]? = some call → ∃ m₂, Reaches t p s m ((t.outputs p.layout).length + j) m₂ ∧
      ∃ cs, Files.stat m₂.tree s.cwd p.layout.projectRoot true = .ok (call.directory, .directory cs)

private theorem Calls.started {a : Action} {program : Path} {call : Call}
    (hreach : Reaches t p s m ((t.outputs p.layout).length + j) m₁) (h : Calls t p s m j m₁.calls)
    (ha : t.actions[j]? = some a) (hcall : ((p.gradle a).command program).call s m₁.tree = .ok call) :
    Calls t p s m (j + 1) (m₁.calls ++ [call]) := by
  obtain ⟨made, hcalls, hargs, hmade⟩ := h
  obtain ⟨hcargs, hdir⟩ := call_ok hcall
  have hlength : made.length = j := by
    have := congrArg List.length hargs
    have hlt := (List.getElem?_eq_some_iff.1 ha).1
    simp only [List.length_map, List.length_take] at this
    omega
  refine ⟨made ++ [call], by rw [hcalls, List.append_assoc], ?_, fun j' call' hj' => ?_⟩
  · rw [List.map_append, hargs, List.take_add_one, ha, List.map_append]
    simp [hcargs, Gradle.command]
  -- a call is one of those made before, or the one that has been started now
  · rcases Nat.lt_or_ge j' made.length with hlt | hge
    · rw [List.getElem?_append_left hlt] at hj'
      exact hmade j' call' hj'
    · rw [List.getElem?_append_right hge, List.getElem?_singleton] at hj'
      split at hj'
      · rename_i hz
        obtain rfl := Option.some.inj hj'
        rw [show j' = j by omega]
        obtain ⟨cs, hstat⟩ := hdir p.layout.projectRoot rfl
        exact ⟨m₁, hreach, cs, hstat⟩
      · simp at hj'

/-- A step records the call of its child if that is started, which it is unless the step fails. -/
theorem Calls.after (hdry : p.dry = false) (hreach : Reaches t p s m i m₁)
    (h : Calls t p s m (i - (t.outputs p.layout).length) m₁.calls) (hstep : (t.plan p.layout)[i]? = some step)
    (hrun : t.announced p s i step m₁ = (r, m₂)) : ∃ n, Calls t p s m n m₂.calls ∧
      (r = .ok () → n = i + 1 - (t.outputs p.layout).length) := by
  rcases plan_cases hstep with ⟨q, hq, rfl⟩ | ⟨j, a, rfl, ha, rfl⟩ | ⟨rfl, rfl⟩
  · obtain ⟨-, hc, -⟩ := Step.remove_step hdry hrun
    have hlt := (List.getElem?_eq_some_iff.1 hq).1
    rw [hc]
    exact ⟨_, h, fun _ => by omega⟩
  · rw [Nat.add_sub_cancel_left] at h
    obtain ⟨-, hcases⟩ := Step.gradle_step hdry hrun
    rcases hcases with ⟨-, hc, hne⟩ | ⟨program, call, -, hcall, -, hc⟩
    · rw [hc]
      exact ⟨j, h, fun hr => absurd hr hne⟩
    · have hnext : Calls t p s m (j + 1) (m₁.calls ++ [call]) := .started hreach h ha hcall
      rw [hc]
      exact ⟨j + 1, hnext, fun _ => by omega⟩
  · obtain ⟨hc, -⟩ := Step.collect_step hdry hrun
    obtain ⟨made, hcalls, hargs, hmade⟩ := h
    rw [hc]
    refine ⟨t.actions.length + 1, ⟨made, hcalls, ?_, hmade⟩, fun _ => by omega⟩
    rw [hargs, List.take_of_length_le (by omega), List.take_of_length_le (by omega)]

/-- Each Gradle step that is done records one call. -/
theorem Reaches.calls (hdry : p.dry = false) (h : Reaches t p s m i m₁) :
    Calls t p s m (i - (t.outputs p.layout).length) m₁.calls := by
  induction h with
  | start => exact ⟨[], by simp [Run.logged], by simp, by simp⟩
  | step hreach hstep hrun ih =>
    obtain ⟨n, hn, hok⟩ := ih.after hdry hreach hstep hrun
    rwa [hok rfl] at hn

/-- What differs after some steps was changed by one of them. -/
theorem Reaches.exists_step_of_ne (h : Reaches t p s m i m₁) (hk : m₁.tree.entryAt? k ≠ m.tree.entryAt? k) :
    ∃ j step m₂ m₃, j < i ∧ Reaches t p s m j m₂ ∧ (t.plan p.layout)[j]? = some step ∧
      t.announced p s j step m₂ = (.ok (), m₃) ∧ m₃.tree.entryAt? k ≠ m₂.tree.entryAt? k := by
  induction h with
  | start => exact absurd rfl hk
  | @step i m₁ m₂ step hreach hstep hrun ih =>
    -- it differs before the last step already, or that step has changed it
    by_cases he : m₁.tree.entryAt? k = m.tree.entryAt? k
    · exact ⟨i, step, m₁, m₂, Nat.lt_succ_self i, hreach, hstep, hrun, by rwa [he]⟩
    · obtain ⟨j, step, m₃, m₄, hj, hrest⟩ := ih he
      exact ⟨j, step, m₃, m₄, Nat.lt_succ_of_lt hj, hrest⟩

/-- What differs after a run was changed by a step that the run came to. -/
theorem exists_step_of_ne (h : t.run p s m = (r, m')) (hk : m'.tree.entryAt? k ≠ m.tree.entryAt? k) :
    ∃ j step m₁ r₁ m₂, Reaches t p s m j m₁ ∧ (t.plan p.layout)[j]? = some step ∧
      t.announced p s j step m₁ = (r₁, m₂) ∧ m₂.tree.entryAt? k ≠ m₁.tree.entryAt? k := by
  rcases run_cases h with ⟨m₁, hreach, -, rfl⟩ | ⟨j, step, m₁, f, hreach, hstep, hrun, -⟩
  · obtain ⟨j, step, m₂, m₃, -, h₂, hstep, hrun, hne⟩ := hreach.exists_step_of_ne hk
    exact ⟨j, step, m₂, _, m₃, h₂, hstep, hrun, hne⟩
  · by_cases he : m₁.tree.entryAt? k = m.tree.entryAt? k
    · exact ⟨j, step, m₁, _, m', hreach, hstep, hrun, by rwa [he]⟩
    · obtain ⟨j, step, m₂, m₃, -, h₂, hstep, hrun, hne⟩ := hreach.exists_step_of_ne he
      exact ⟨j, step, m₂, _, m₃, h₂, hstep, hrun, hne⟩

/-! ### The log of a task -/

/-- The events that have been logged in the name of the task. -/
def log (m : Machine) : List Log.Event := m.events.filter (·.source = .task)

theorem log_of_quiet (h : Quiet m m') : log m' = log m := by
  obtain ⟨new, hm, hnew⟩ := h
  unfold log Machine.events
  rw [hm, List.filterMap_append, List.filter_append]
  refine List.append_right_eq_self.2 (List.filter_eq_nil_iff.2 fun e he => ?_)
  obtain ⟨x, hx, hxe⟩ := List.mem_filterMap.1 he
  cases x with
  | event e' =>
    obtain rfl := Option.some.inj hxe
    simpa using hnew e' hx
  | raw => simp at hxe

theorem log_logged {e : Log.Event} (he : e.source = .task) (m : Machine) : log (Run.logged m e) = log m ++ [e] := by
  simp [log, Machine.events, Run.logged, he]

/-- The headers of the first steps of the plan. -/
def headers (t : Task) (p : Project) (i : Nat) : List Log.Event :=
  ((t.plan p.layout).take i).mapIdx (t.headerEvent p)

theorem headers_succ (hstep : (t.plan p.layout)[i]? = some step) :
    t.headers p (i + 1) = t.headers p i ++ [t.headerEvent p i step] := by
  have hlt := (List.getElem?_eq_some_iff.1 hstep).1
  unfold headers
  rw [List.take_add_one, hstep, Option.toList_some, List.mapIdx_concat, List.length_take, Nat.min_eq_left (by omega)]

/-- The log of a task holds the headers of the steps done, in order. -/
theorem Reaches.log (hdry : p.dry = false) (h : Reaches t p s m i m₁) :
    Task.log m₁ = Task.log m ++ t.startEvent p :: t.headers p i := by
  induction h with
  | start => simpa [headers] using log_logged (e := t.startEvent p) rfl m
  | step _ hstep hrun ih =>
    rw [log_of_quiet (Step.step_quiet hdry hrun), log_logged rfl, ih, headers_succ hstep]
    simp

end Task

end GradleBuild
