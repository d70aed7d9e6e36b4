import GradleBuild.Build
import GradleBuild.Proofs.Effects

/-!
# What one step does

Each step of a plan acts on the tree, starts children and logs.  Here is what it does of each, whether it fails or not,
in a run that is no dry run.

* `remove_step`, `gradle_step`, `collect_step`: the tree and the calls after a step.
* `step_quiet`: no step logs in the name of the task.
-/

namespace GradleBuild

/-- Between two machines nothing has been logged in the name of the task. -/
def Quiet (m m' : Machine) : Prop :=
  ∃ new, m'.shown = m.shown ++ new ∧ ∀ e, Shown.event e ∈ new → e.source ≠ .task

namespace Quiet

variable {m m' m'' : Machine}

theorem of_shown_eq (h : m'.shown = m.shown) : Quiet m m' := ⟨[], by simp [h], by simp⟩

theorem refl (m : Machine) : Quiet m m := of_shown_eq rfl

theorem trans (h : Quiet m m') (h' : Quiet m' m'') : Quiet m m'' := by
  obtain ⟨new, hm, hn⟩ := h
  obtain ⟨new', hm', hn'⟩ := h'
  refine ⟨new ++ new', by rw [hm', hm, List.append_assoc], fun e he => ?_⟩
  rcases List.mem_append.1 he with he | he
  · exact hn e he
  · exact hn' e he

end Quiet

namespace Run

variable {α β : Type} {m m' m₁ : Machine} {r : Except Failure α}

/-- The machine after an event. -/
def logged (m : Machine) (e : Log.Event) : Machine := { m with shown := m.shown ++ [.event e] }

@[simp] theorem logged_tree (m : Machine) (e : Log.Event) : (logged m e).tree = m.tree := rfl

theorem log_apply (level : Log.Level) (source : Log.Source) (message : String) (fields : List Log.Field) (m : Machine) :
    Run.log level source message fields m = (.ok (), logged m ⟨level, source, message, fields⟩) := rfl

theorem quiet_logged {e : Log.Event} (he : e.source ≠ .task) (m : Machine) : Quiet m (logged m e) :=
  ⟨[.event e], rfl, by simpa using he⟩

theorem onFiles_ok {act : FileAction Cause α} {m : Machine} {x : α} {t : Tree} (h : act m.tree = (.ok x, t)) :
    Run.onFiles act m = (.ok x, { m with tree := t }) := by
  unfold Run.onFiles
  rw [h]

theorem onFiles_error {act : FileAction Cause α} {m : Machine} {c : Cause} {t : Tree} (h : act m.tree = (.error c, t)) :
    Run.onFiles act m = (.error (.of c), { m with tree := t }) := by
  unfold Run.onFiles
  rw [h]

theorem inContext_apply (context : String) (act : Run α) (m : Machine) :
    Run.inContext context act m = ((act m).1.mapError (·.inContext context), (act m).2) := adapt_apply _ m

end Run

namespace Step

variable {p : Project} {s : Surroundings} {m m' : Machine} {r : Except Failure Unit} {a : Action}
  {q source destination : Path}

theorem remove_step (hdry : p.dry = false) (h : (Step.remove q).run p s m = (r, m')) :
    m'.tree = (Files.remove s.cwd q m.tree).2 ∧ m'.calls = m.calls ∧ Quiet m m' ∧
      (r = .ok () → ∃ b, (Files.remove s.cwd q m.tree).1 = .ok b) := by
  unfold Step.run runRemove at h
  simp only [hdry, Bool.false_eq_true, if_false] at h
  rcases hremove : Files.remove s.cwd q m.tree with ⟨c | b, t⟩
  · rw [bind_apply_error (Run.onFiles_error hremove)] at h
    obtain ⟨rfl, rfl⟩ := Prod.mk.inj h
    exact ⟨rfl, rfl, .of_shown_eq rfl, by simp⟩
  · rw [bind_apply_ok (Run.onFiles_ok hremove)] at h
    cases b with
    | true =>
      obtain ⟨rfl, rfl⟩ := Prod.mk.inj h
      exact ⟨rfl, rfl, ⟨_, rfl, by simp⟩, fun _ => ⟨_, rfl⟩⟩
    | false =>
      obtain ⟨rfl, rfl⟩ := Prod.mk.inj h
      exact ⟨rfl, rfl, .of_shown_eq rfl, fun _ => ⟨_, rfl⟩⟩

/-- A collect step whose source is no directory fails; else it is a copy. -/
theorem collect_step (hdry : p.dry = false) (h : (Step.collect source destination).run p s m = (r, m')) :
    m'.calls = m.calls ∧ Quiet m m' ∧
      (Files.isDirectory m.tree s.cwd source = false ∧ m'.tree = m.tree ∧ r ≠ .ok () ∨
        Files.isDirectory m.tree s.cwd source = true ∧
          m'.tree = (Files.copyDirectory s.cwd source destination m.tree).2 ∧
            (r = .ok () → ∃ stats, (Files.copyDirectory s.cwd source destination m.tree).1 = .ok stats)) := by
  unfold Step.run runCollect at h
  simp only [hdry, Bool.false_eq_true, if_false] at h
  rw [bind_apply_ok (get_apply m)] at h
  by_cases hd : Files.isDirectory m.tree s.cwd source = true
  · rw [if_pos hd] at h
    rcases hcopy : Files.copyDirectory s.cwd source destination m.tree with ⟨c | stats, t⟩
    · rw [bind_apply_error (Run.onFiles_error hcopy)] at h
      obtain ⟨rfl, rfl⟩ := Prod.mk.inj h
      exact ⟨rfl, .of_shown_eq rfl, Or.inr ⟨hd, rfl, by simp⟩⟩
    · rw [bind_apply_ok (Run.onFiles_ok hcopy)] at h
      have hquiet : m'.calls = m.calls ∧ Quiet m m' ∧ m'.tree = t := by
        split at h
        all_goals
          obtain ⟨rfl, rfl⟩ := Prod.mk.inj h
          exact ⟨rfl, ⟨_, rfl, by simp⟩, rfl⟩
      exact ⟨hquiet.1, hquiet.2.1, Or.inr ⟨hd, hquiet.2.2, fun _ => ⟨stats, rfl⟩⟩⟩
  · rw [if_neg hd] at h
    obtain ⟨rfl, rfl⟩ := Prod.mk.inj h
    exact ⟨rfl, .refl m, Or.inl ⟨by simpa using hd, rfl, by simp⟩⟩

/-- What is logged of the output of a child is logged in its name. -/
theorem source_of_mem_shownOutput {c : Command} {chunks : List Chunk} {e : Log.Event}
    (h : Shown.event e ∈ c.shownOutput chunks) : e.source = .output := by
  have hforward : ∀ (name : String) (r : Command.Readers) (chunks : List Chunk),
      ∀ e ∈ Command.forward name r chunks, e.source = .output := by
    intro name r chunks
    induction chunks generalizing r with
    | nil => simp [Command.forward]
    | cons c rest ih =>
      intro e he
      simp only [Command.forward, List.mem_append, List.mem_map] at he
      rcases he with ⟨line, -, rfl⟩ | he
      · rfl
      · exact ih _ e he
  unfold Command.shownOutput at h
  split at h
  · obtain ⟨e', he', hee⟩ := List.mem_map.1 h
    obtain rfl := Shown.event.inj hee
    exact hforward _ _ _ e' he'
  · simp at h

/-- What comes of a child that is started, or of a command that is refused. -/
private theorem start_cases {c : Command} {r : Except Failure Int} (h : c.start s m = (r, m')) : Quiet m m' ∧
    (m'.tree = m.tree ∧ m'.calls = m.calls ∧ (∀ code, r ≠ .ok code) ∨ ∃ call, c.call s m.tree = .ok call ∧
      m'.tree = (s.child m.calls call m.tree).tree ∧ m'.calls = m.calls ++ [call]) := by
  unfold Command.start at h
  rcases hcall : c.call s m.tree with fault | call
  · rw [hcall] at h
    obtain ⟨rfl, rfl⟩ := Prod.mk.inj h
    exact ⟨.refl m, Or.inl ⟨rfl, rfl, by simp⟩⟩
  · rw [hcall] at h
    obtain ⟨rfl, rfl⟩ := Prod.mk.inj h
    refine ⟨⟨_, rfl, fun e he => ?_⟩, Or.inr ⟨call, rfl, rfl, rfl⟩⟩
    rcases List.mem_cons.1 he with he | he
    · obtain rfl := Shown.event.inj he
      simp [Command.spawned]
    · simp [source_of_mem_shownOutput he]

/-- A command changes the tree, and is recorded, only if its child is started. -/
theorem command_run {c : Command} (h : c.run s m = (r, m')) : Quiet m m' ∧
    (m'.tree = m.tree ∧ m'.calls = m.calls ∧ r ≠ .ok () ∨ ∃ call, c.call s m.tree = .ok call ∧
      m'.tree = (s.child m.calls call m.tree).tree ∧ m'.calls = m.calls ++ [call]) := by
  -- what is logged beforehand depends on whether the command has a directory
  have hstart : ∃ m₁, Quiet m m₁ ∧ m₁.tree = m.tree ∧ m₁.calls = m.calls ∧
      (do
        let code ← c.start s
        if code = 0 then Run.log .trace .runner "completed" [.of "process" c.displayName]
        else Run.fail (.nonZeroExit c.line code) : Run Unit) m₁ = (r, m') := by
    unfold Command.run at h
    cases hd : c.directory with
    | none =>
      rw [hd] at h
      exact ⟨_, Run.quiet_logged (by simp) m, rfl, rfl, h⟩
    | some d =>
      rw [hd] at h
      exact ⟨_, (Run.quiet_logged (by simp) m).trans (Run.quiet_logged (by simp) _), rfl, rfl, h⟩
  obtain ⟨m₁, hquiet, htree, hcalls, h⟩ := hstart
  rcases of_bind h with ⟨code, m₂, h₂, hend⟩ | ⟨f, h₂, rfl⟩
  · obtain ⟨hquiet₂, hcases⟩ := start_cases h₂
    have hlast : Quiet m₂ m' ∧ m'.tree = m₂.tree ∧ m'.calls = m₂.calls := by
      split at hend
      · obtain ⟨-, rfl⟩ := Prod.mk.inj hend
        exact ⟨Run.quiet_logged (by simp) m₂, rfl, rfl⟩
      · obtain ⟨-, rfl⟩ := Prod.mk.inj hend
        exact ⟨.refl m₂, rfl, rfl⟩
    refine ⟨(hquiet.trans hquiet₂).trans hlast.1, ?_⟩
    rcases hcases with ⟨-, -, hne⟩ | ⟨call, hcall, ht, hc⟩
    · exact absurd rfl (hne code)
    · rw [htree, hcalls] at *
      exact Or.inr ⟨call, hcall, by rw [hlast.2.1, ht], by rw [hlast.2.2, hc]⟩
  · obtain ⟨hquiet₂, hcases⟩ := start_cases h₂
    refine ⟨hquiet.trans hquiet₂, ?_⟩
    rw [htree, hcalls] at hcases
    rcases hcases with ⟨ht, hc, -⟩ | hcases
    · exact Or.inl ⟨ht, hc, by simp⟩
    · exact Or.inr hcases

/-- A Gradle step changes the tree, and is recorded, only if its child is started. -/
theorem gradle_step (hdry : p.dry = false) (h : (Step.gradle a).run p s m = (r, m')) : Quiet m m' ∧
    (m'.tree = m.tree ∧ m'.calls = m.calls ∧ r ≠ .ok () ∨ ∃ program call,
      (p.gradle a).program s m.tree = .ok program ∧ ((p.gradle a).command program).call s m.tree = .ok call ∧
        m'.tree = (s.child m.calls call m.tree).tree ∧ m'.calls = m.calls ++ [call]) := by
  change runGradle p s a m = _ at h
  unfold runGradle at h
  rw [bind_apply_ok (Run.log_apply ..)] at h
  have hquiet := Run.quiet_logged (e := ⟨.info, .step, "running", [.quoted "tool" "gradle", .of "action" a.name]⟩)
    (by simp) m
  unfold Gradle.run at h
  simp only [hdry, Bool.false_eq_true, if_false] at h
  rw [bind_apply_ok (get_apply _)] at h
  rcases hprogram : (p.gradle a).program s m.tree with c | program
  · rw [Run.logged_tree, hprogram] at h
    obtain ⟨rfl, rfl⟩ := Prod.mk.inj h
    exact ⟨hquiet, Or.inl ⟨rfl, rfl, by simp⟩⟩
  · rw [Run.logged_tree, hprogram] at h
    dsimp only at h
    rw [bind_apply_ok (Run.log_apply ..)] at h
    -- the two entries of the log change neither the tree nor the calls
    generalize hm₁ : Run.logged (Run.logged m _) _ = m₁ at h
    have hquiet₁ : Quiet m m₁ := by rw [← hm₁]; exact hquiet.trans (Run.quiet_logged (by simp) _)
    have htree₁ : m₁.tree = m.tree := by rw [← hm₁]; rfl
    have hcalls₁ : m₁.calls = m.calls := by rw [← hm₁]; rfl
    have hcommand : ∃ r₂ m₂, ((p.gradle a).command program).run s m₁ = (r₂, m₂) ∧ m'.tree = m₂.tree ∧
        m'.calls = m₂.calls ∧ Quiet m₂ m' ∧ (r = .ok () → r₂ = .ok ()) := by
      rcases of_bind h with ⟨u, m₂, h₂, hend⟩ | ⟨f, h₂, rfl⟩
      · rw [Run.inContext_apply] at h₂
        obtain ⟨hr₂, rfl⟩ := Prod.mk.inj h₂
        obtain ⟨-, rfl⟩ := Prod.mk.inj hend
        exact ⟨_, _, rfl, rfl, rfl, Run.quiet_logged (by simp) _, fun _ => mapError_eq_ok.1 hr₂⟩
      · rw [Run.inContext_apply] at h₂
        obtain ⟨-, rfl⟩ := Prod.mk.inj h₂
        exact ⟨_, _, rfl, rfl, rfl, .refl _, by simp⟩
    obtain ⟨r₂, m₂, h₂, htree, hcalls, hlast, hok⟩ := hcommand
    obtain ⟨hquiet₂, hcases⟩ := command_run h₂
    refine ⟨(hquiet₁.trans hquiet₂).trans hlast, ?_⟩
    rw [htree, hcalls]
    rw [htree₁, hcalls₁] at hcases
    rcases hcases with ⟨ht, hc, hne⟩ | ⟨call, hcall, ht, hc⟩
    · exact Or.inl ⟨ht, hc, fun hr => hne (hok hr)⟩
    · exact Or.inr ⟨program, call, rfl, hcall, ht, hc⟩

/-- No step logs in the name of the task. -/
theorem step_quiet {step : Step} (hdry : p.dry = false) (h : step.run p s m = (r, m')) : Quiet m m' := by
  cases step with
  | remove q => exact (remove_step hdry h).2.2.1
  | gradle a => exact (gradle_step hdry h).1
  | collect source destination => exact (collect_step hdry h).2.1

end Step

end GradleBuild
