import GradleBuild.Proofs.Runs

/-!
# A build stops at its first failure

A run performs the steps of its plan in order and stops at the first that fails.  `Performs` says all there is to say
about it: which step was the last, what it left, what the failure is called, what the log of the task holds, and which
calls of Gradle were made.  The texts that Gradle is called with are written out here (`requested`), apart from the
actions of the plan.

* `run_performs`: every run does so, whatever its children do.
-/

namespace GradleBuild

def Step.isGradle : Step → Bool
  | gradle _ => true
  | remove _ | collect _ _ => false

namespace Task

variable {t : Task} {p : Project} {s : Surroundings} {m m₁ m₂ m' : Machine} {i j k : Nat} {step : Step} {l : Layout}
  {r result : Except Failure Unit} {root : String}

/-- What Gradle is asked for, call by call. -/
def requested : Task → List String
  | library true => [":clean", ":build"]
  | library false => [":build"]
  | documentation => [":javadoc"]

/-- The arguments of the calls for a task, given the text of the project's root. -/
def callArguments (t : Task) (p : Project) (root : String) : List (List String) :=
  t.requested.map fun text =>
    ["--console=" ++ p.config.gradle.console.name, "-p", root] ++ p.config.gradle.args ++ [text]

/-- The step number `i` of the plan runs Gradle, and `j` steps before it do. -/
def CallStep (t : Task) (l : Layout) (i j : Nat) : Prop :=
  (∃ a, (t.plan l)[i]? = some (.gradle a)) ∧ ((t.plan l).take i).countP Step.isGradle = j

/-- A run from `m` that ends in `m'` with `r` has performed the steps of its plan up to number `k`, counted from 0.
This last `step` began at `before` and ended at `after` with `result`. -/
structure Performs (t : Task) (p : Project) (s : Surroundings) (root : String) (m : Machine)
    (r : Except Failure Unit) (m' : Machine) (k : Nat) (step : Step) (before after : Machine)
    (result : Except Failure Unit) : Prop where
  inPlan : (t.plan p.layout)[k]? = some step
  earlier : t.Reaches p s m k before
  last : t.announced p s k step before = (result, after)
  tree : m'.tree = after.tree
  ok_iff : r = .ok () ↔ result = .ok () ∧ k + 1 = (t.plan p.layout).length
  failure : ∀ f, r = .error f → (∃ g, result = .error g ∧ f = g.inContext (failureContext t.component step)) ∧
    f.headline = "'" ++ t.component.name ++ "' build failed at step '" ++ step.text ++ "'"
  log : Task.log m' = Task.log m ++ t.startEvent p :: t.headers p (k + 1) ++
    match r with
    | .ok () => [t.endEvent]
    | .error _ => []
  calls : ∃ made : List Call, m'.calls = m.calls ++ made ∧
    made.map Call.arguments <+: t.callArguments p root ∧
    (r = .ok () → made.map Call.arguments = t.callArguments p root) ∧
    ∀ j call, made[j]? = some call → ∃ i m₀, t.CallStep p.layout i j ∧ t.Reaches p s m i m₀ ∧
      ∃ cs, Files.stat m₀.tree s.cwd p.layout.projectRoot true = .ok (call.directory, .directory cs)
  /-- When the first call starts, nothing is there that the plan removes. -/
  cleared : ∀ i m₀, t.CallStep p.layout i 0 → t.Reaches p s m i m₀ → ∀ q, Step.remove q ∈ t.plan p.layout →
    ∀ l n, Files.stat m₀.tree s.cwd q false ≠ .ok (l, n)

private theorem map_taskPath (t : Task) : t.actions.map Action.taskPath = t.requested := by
  rcases t with ⟨_ | _⟩ | _ <;> decide

/-- The steps before the call number `j` are the removals, and the calls before it. -/
private theorem countP_isGradle (hj : j ≤ t.actions.length) :
    ((t.plan l).take ((t.outputs l).length + j)).countP Step.isGradle = j := by
  have hremovals : ((t.outputs l).map Step.remove).countP Step.isGradle = 0 := by
    simp [List.countP_eq_zero, Step.isGradle]
  have hcalls : ((t.actions.take j).map Step.gradle).countP Step.isGradle = j := by
    rw [List.countP_map, List.countP_eq_length.2 (by simp [Step.isGradle]), List.length_take, Nat.min_eq_left hj]
  have htake : (t.plan l).take ((t.outputs l).length + j) =
      (t.outputs l).map .remove ++ (t.actions.take j).map .gradle := by
    have hlength : ((t.outputs l).map Step.remove).length = (t.outputs l).length := List.length_map _
    unfold plan
    rw [List.append_assoc, ← hlength, List.take_length_add_append, List.take_append_of_le_length (by simpa using hj),
      List.map_take]
  rw [htake, List.countP_append, hremovals, hcalls, Nat.zero_add]

private theorem callStep_of_lt (hj : j < t.actions.length) : t.CallStep l ((t.outputs l).length + j) j := by
  refine ⟨⟨t.actions[j], ?_⟩, countP_isGradle (Nat.le_of_lt hj)⟩
  unfold plan
  rw [List.append_assoc, List.getElem?_append_right (by simp), List.length_map, Nat.add_sub_cancel_left,
    List.getElem?_append_left (by simpa using hj), List.getElem?_map, List.getElem?_eq_getElem hj, Option.map_some]

private theorem CallStep.eq (h : t.CallStep l i j) : i = (t.outputs l).length + j := by
  obtain ⟨⟨a, hstep⟩, hcount⟩ := h
  rcases plan_cases hstep with ⟨q, -, hne⟩ | ⟨j', a', rfl, ha, -⟩ | ⟨-, hne⟩
  · cases hne
  · rw [← hcount, countP_isGradle (Nat.le_of_lt (List.getElem?_eq_some_iff.1 ha).1)]
  · cases hne

private theorem mem_outputs {q : Path} (h : Step.remove q ∈ t.plan l) : q ∈ t.outputs l := by
  simpa [plan] using h

private theorem map_arguments (hroot : decode? p.layout.projectRoot.bytes = some root) :
    t.actions.map (fun a => (p.gradle a).arguments) = t.callArguments p root := by
  have hdisplay : p.layout.projectRoot.display = root := by
    unfold decode? at hroot
    split at hroot
    · exact Option.some.inj hroot
    · simp at hroot
  unfold callArguments
  rw [← map_taskPath, List.map_map]
  apply List.map_congr_left
  intro a _
  simp only [Gradle.arguments, Project.gradle, hdisplay, Function.comp]

private theorem calls_of (hroot : decode? p.layout.projectRoot.bytes = some root) {n : Nat} {calls : List Call}
    (h : Calls t p s m n calls) (hn : r = .ok () → t.actions.length ≤ n) : ∃ made : List Call, calls = m.calls ++ made ∧
      made.map Call.arguments <+: t.callArguments p root ∧
      (r = .ok () → made.map Call.arguments = t.callArguments p root) ∧
      ∀ j call, made[j]? = some call → ∃ i m₀, t.CallStep p.layout i j ∧ t.Reaches p s m i m₀ ∧
        ∃ cs, Files.stat m₀.tree s.cwd p.layout.projectRoot true = .ok (call.directory, .directory cs) := by
  obtain ⟨made, hcalls, hargs, hmade⟩ := h
  refine ⟨made, hcalls, ?_, fun hr => ?_, fun j call hj => ?_⟩
  · rw [hargs, ← map_arguments hroot]
    exact (List.take_prefix n t.actions).map _
  · rw [hargs, List.take_of_length_le (hn hr), map_arguments hroot]
  · have hlt := (List.getElem?_eq_some_iff.1 hj).1
    have hlength := congrArg List.length hargs
    simp only [List.length_map, List.length_take] at hlength
    obtain ⟨m₀, hreach, hdirectory⟩ := hmade j call hj
    exact ⟨_, m₀, callStep_of_lt (by omega), hreach, hdirectory⟩

/-- A run performs the steps of its plan in order, up to the first that fails. -/
theorem run_performs (t : Task) (p : Project) (s : Surroundings) (m : Machine) (hdry : p.dry = false)
    (hroot : decode? p.layout.projectRoot.bytes = some root) :
    ∃ k step before after result, k < (t.plan p.layout).length ∧
      Performs t p s root m (t.run p s m).1 (t.run p s m).2 k step before after result := by
  have hcleared : ∀ i m₀, t.CallStep p.layout i 0 → t.Reaches p s m i m₀ → ∀ q, Step.remove q ∈ t.plan p.layout →
      ∀ l n, Files.stat m₀.tree s.cwd q false ≠ .ok (l, n) := by
    intro i m₀ hcall hreach q hq l n
    obtain rfl := hcall.eq
    obtain ⟨j, hj⟩ := List.mem_iff_getElem?.1 (mem_outputs hq)
    exact hreach.gone hdry (Nat.le_refl _) (List.getElem?_eq_some_iff.1 hj).1 hj l n
  rcases hrun : t.run p s m with ⟨r, m'⟩
  rcases run_cases hrun with ⟨m₁, hreach, rfl, rfl⟩ | ⟨k, step, before, g, hreach, hstep, hlast, rfl⟩
  · -- the last step of the plan was done, and ended well
    obtain ⟨k, hk⟩ : ∃ k, (t.plan p.layout).length = k + 1 := ⟨_, length_plan t p.layout⟩
    have hcalls := hreach.calls hdry
    have hlog := hreach.log hdry
    rw [hk] at hreach hlog
    cases hreach with
    | @step _ before _ step hbefore hstep hlast =>
      refine ⟨k, step, before, m₁, .ok (), by omega, hstep, hbefore, hlast, rfl, by simp [hk], by simp, ?_, ?_,
        hcleared⟩
      · rw [log_logged rfl, hlog]
      · exact calls_of hroot hcalls fun _ => by have := length_plan t p.layout; omega
  · obtain ⟨n, hn, -⟩ := (hreach.calls hdry).after hdry hreach hstep hlast
    refine ⟨k, step, before, m', .error g, (List.getElem?_eq_some_iff.1 hstep).1, hstep, hreach, hlast, rfl, by simp,
      fun f hf => ?_, ?_, calls_of hroot hn (by simp), hcleared⟩
    · obtain rfl := Except.error.inj hf
      exact ⟨⟨g, rfl, rfl⟩, rfl⟩
    · rw [log_of_quiet (Step.step_quiet hdry hlast), log_logged rfl, hreach.log hdry, headers_succ hstep]
      simp

/-- A project with an extra argument for Gradle. -/
def offline : Project :=
  let c : Config := { paths := { projectRoot := some (.ofText "/p") }, gradle := { args := ["--offline"] } }
  ⟨c, c.paths.layoutFrom (.ofText "/p"), false⟩

/-- A wrapper, and a library of an earlier build. -/
def outdated : Tree := .ofEntries [([encode "p"], .directory),
  ([encode "p", encode "gradlew"], .file (encode "#!") true), ([encode "p", encode "build"], .directory),
  ([encode "p", encode "build", encode "libs"], .directory),
  ([encode "p", encode "build", encode "libs", encode "old.jar"], .file [] false)]

/-- A child that builds an empty library, and leaves the tree as it is when it is asked to clean. -/
def emptyLibrary : ChildBehaviour := fun _ call tree =>
  if call.arguments.getLast? = some ":build" then
    { tree := tree.put [encode "p", encode "build", encode "libs"] .directory }
  else { tree }

theorem run_performs_offline : offline.dry = false ∧ decode? offline.layout.projectRoot.bytes = some "/p" ∧
    ((library true).run offline ⟨[], [], emptyLibrary⟩ { tree := outdated }).1 = .ok () ∧
    ((library true).run offline ⟨[], [], emptyLibrary⟩ { tree := outdated }).2.calls.map Call.arguments =
      [["--console=plain", "-p", "/p", "--offline", ":clean"],
        ["--console=plain", "-p", "/p", "--offline", ":build"]] ∧
    ∃ k step before after result, k < ((library true).plan offline.layout).length ∧
      Performs (library true) offline ⟨[], [], emptyLibrary⟩ "/p" { tree := outdated }
        ((library true).run offline ⟨[], [], emptyLibrary⟩ { tree := outdated }).1
        ((library true).run offline ⟨[], [], emptyLibrary⟩ { tree := outdated }).2 k step before after result :=
  ⟨rfl, by decide, by decide +kernel, by decide +kernel,
    run_performs (library true) offline ⟨[], [], emptyLibrary⟩ _ rfl (by decide)⟩

end Task

end GradleBuild
