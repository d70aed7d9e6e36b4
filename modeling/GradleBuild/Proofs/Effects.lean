import GradleBuild.Machine

/-!
# Running effects

Actions on files and runs of the machine are state transitions that can fail and leave the state as it is by then.
These are the laws by which a composed one is taken apart: what it did is what its parts did, one after another, up to
the first that failed.
-/

namespace GradleBuild

variable {σ ε ε' α β : Type} {a : ExceptT ε (StateM σ) α} {f : α → ExceptT ε (StateM σ) β} {s s' : σ}

/-- Whatever comes of an action, it leaves some state. -/
theorem exists_state {r : Except ε α} (h : (a s).1 = r) : ∃ s', a s = (r, s') := ⟨(a s).2, Prod.ext h rfl⟩

theorem throw_apply (e : ε) (s : σ) : (throw e : ExceptT ε (StateM σ) α) s = (.error e, s) := rfl

theorem modify_apply (g : σ → σ) (s : σ) : (modify g : ExceptT ε (StateM σ) PUnit) s = (.ok ⟨⟩, g s) := rfl

theorem get_apply (s : σ) : (get : ExceptT ε (StateM σ) σ) s = (.ok s, s) := rfl

theorem bind_apply_ok {x : α} {s₁ : σ} (h : a s = (.ok x, s₁)) : (a >>= f) s = f x s₁ := by
  show ExceptT.bindCont (m := StateM σ) f (a s).1 (a s).2 = _
  rw [h]
  rfl

theorem bind_apply_error {e : ε} {s₁ : σ} (h : a s = (.error e, s₁)) : (a >>= f) s = (.error e, s₁) := by
  show ExceptT.bindCont (m := StateM σ) f (a s).1 (a s).2 = _
  rw [h]
  rfl

/-- A sequence did what its parts did, or its first part failed. -/
theorem of_bind {r : Except ε β} (h : (a >>= f) s = (r, s')) :
    (∃ x s₁, a s = (.ok x, s₁) ∧ f x s₁ = (r, s')) ∨ ∃ e, a s = (.error e, s') ∧ r = .error e := by
  rcases ha : a s with ⟨x | x, s₁⟩
  · rw [bind_apply_error ha] at h
    obtain ⟨rfl, rfl⟩ := Prod.mk.inj h
    exact Or.inr ⟨x, rfl, rfl⟩
  · rw [bind_apply_ok ha] at h
    exact Or.inl ⟨x, s₁, rfl, h⟩

theorem of_bind_ok {y : β} (h : (a >>= f) s = (.ok y, s')) : ∃ x s₁, a s = (.ok x, s₁) ∧ f x s₁ = (.ok y, s') := by
  rcases of_bind h with h | ⟨e, -, h⟩
  · exact h
  · cases h

/-- What follows on an action without effects is what the action did. -/
theorem of_bind_pure {g : α → β} {r : Except ε β} (h : (a >>= fun x => pure (g x)) s = (r, s')) :
    ∃ r₁, a s = (r₁, s') ∧ r = r₁.map g := by
  rcases of_bind h with ⟨x, s₁, ha, hx⟩ | ⟨e, ha, rfl⟩
  · obtain ⟨rfl, rfl⟩ := Prod.mk.inj hx
    exact ⟨.ok x, ha, rfl⟩
  · exact ⟨.error e, ha, rfl⟩

/-- An action with a handler ended well, or the handler did what it did from there. -/
theorem of_tryCatch {g : ε → ExceptT ε (StateM σ) α} {r : Except ε α} (h : tryCatch a g s = (r, s')) :
    (∃ x, a s = (.ok x, s') ∧ r = .ok x) ∨ ∃ e s₁, a s = (.error e, s₁) ∧ g e s₁ = (r, s') := by
  change (match (a s).1 with
    | .ok x => (pure (.ok x) : StateM σ (Except ε α))
    | .error e => g e) (a s).2 = _ at h
  rcases ha : a s with ⟨x | x, s₁⟩
  · rw [ha] at h
    exact Or.inr ⟨x, s₁, rfl, h⟩
  · rw [ha] at h
    obtain ⟨rfl, rfl⟩ := Prod.mk.inj h
    exact Or.inl ⟨x, rfl, rfl⟩

theorem tryCatch_apply_ok {g : ε → ExceptT ε (StateM σ) α} {x : α} (h : a s = (.ok x, s')) :
    tryCatch a g s = (.ok x, s') := by
  change (match (a s).1 with
    | .ok x => (pure (.ok x) : StateM σ (Except ε α))
    | .error e => g e) (a s).2 = _
  rw [h]
  rfl

theorem tryCatch_apply_error {g : ε → ExceptT ε (StateM σ) α} {e : ε} (h : a s = (.error e, s')) :
    tryCatch a g s = g e s' := by
  change (match (a s).1 with
    | .ok x => (pure (.ok x) : StateM σ (Except ε α))
    | .error e => g e) (a s).2 = _
  rw [h]

theorem adapt_apply (g : ε → ε') (s : σ) : (a.adapt g) s = ((a s).1.mapError g, (a s).2) := rfl

theorem mapError_eq_ok {r : Except ε α} {g : ε → ε'} {x : α} : r.mapError g = .ok x ↔ r = .ok x := by
  cases r with
  | ok => exact ⟨fun h => congrArg _ (Except.ok.inj h), fun h => congrArg _ (Except.ok.inj h)⟩
  | error => exact ⟨(nomatch ·), (nomatch ·)⟩

/-! ### Looking at the tree -/

theorem query_apply (q : Tree → Except ε α) (t : Tree) : Files.query q t = (q t, t) := rfl

theorem query_bind_ok {q : Tree → Except ε α} {f : α → FileAction ε β} {t : Tree} {x : α} (h : q t = .ok x) :
    (Files.query q >>= f) t = f x t := bind_apply_ok (by rw [query_apply, h])

theorem query_bind_error {q : Tree → Except ε α} {f : α → FileAction ε β} {t : Tree} {e : ε} (h : q t = .error e) :
    (Files.query q >>= f) t = (.error e, t) := bind_apply_error (by rw [query_apply, h])

end GradleBuild
