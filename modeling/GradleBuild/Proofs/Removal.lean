import GradleBuild.Files.Remove
import GradleBuild.Proofs.Effects
import GradleBuild.Proofs.Leads

/-!
# What removing does

`Removal` lists what removing can come to.  Whatever it is, the tree only shrinks, and only at what the path names.

* `remove_spec`: these are all cases.
* `Removal.extends`, `Removal.frame`: nothing appears, and nothing else changes.
* `Removal.gone`, `Removal.cleared`: after a removal without an error the path names nothing, and where it led there is
  nothing but an empty directory.
-/

namespace GradleBuild.Files

variable {t t' : Tree} {cwd l k : Location} {p : Path} {e : Fault} {r : Except Cause Bool}

/-- What a directory is deleted under leads to it, also in every tree that has what this one has. -/
private theorem leadsTo_of_parent {t₂ : Tree} (ht : t.Extends t₂) {before es : List Bytes} {last : Bytes} {d : Location}
    {n : Node} (hseg : p.segments = before ++ last :: es) (hes : ∀ s ∈ es, Path.isIdle s = true)
    (hw : walkFrom t cwd p before true = .ok (.present d n)) (hs : IsPlain last)
    (hd : t.entryAt? (d ++ [last]) = some .directory) : LeadsTo t₂ cwd p (d ++ [last]) := by
  obtain ⟨-, hwalk⟩ := walkFrom_eq_ok_iff.1 hw
  obtain ⟨n', hwalk'⟩ := hwalk.extends ht rfl
  have hlast : ∀ target, t₂.entryAt? (d ++ [last]) ≠ some (.link target) := by
    intro target hl
    rw [ht.directory hd] at hl
    simp at hl
  unfold LeadsTo
  rw [hseg]
  exact (hwalk'.leads rfl (Or.inl rfl)).append (.enter hs hlast (leads_idle hes))

/-- A deletion ends well where the name before the idle end of the path is an empty directory; else it is refused. -/
private theorem removeDirectory_cases (cwd : Location) (p : Path) (t : Tree) :
    (∃ before last es d n, last ≠ [] ∧ (∀ s ∈ es, Path.isIdle s = true) ∧ p.segments = before ++ last :: es ∧
      walkFrom t cwd p before true = .ok (.present d n) ∧ IsPlain last ∧
      n.children.lookup last = some (.directory []) ∧
      removeDirectory cwd p t = (.ok (), t.erase (d ++ [last]))) ∨
    ∃ e, removeDirectory cwd p t = (.error e, t) ∧ (e = .noEntry → ∃ before last es, last ≠ [] ∧
      p.segments = before ++ last :: es ∧ ∀ d n, walkFrom t cwd p before true = .ok (.present d n) →
        IsPlain last ∧ n.children.lookup last = none) := by
  unfold removeDirectory
  rcases hsplit : splitLast p with _ | ⟨before, last⟩
  · exact Or.inr ⟨.busy, rfl, by simp⟩
  obtain ⟨hne, es, hes, hseg⟩ := Path.segments_splitLast hsplit
  rcases hw : walkFrom t cwd p before true with e | f
  · exact Or.inr ⟨e, query_bind_error hw, fun _ => ⟨before, last, es, hne, hseg, by simp [hw]⟩⟩
  simp only [query_bind_ok (q := (walkFrom · cwd p before true)) hw]
  cases f with
  | absent => exact Or.inr ⟨.noEntry, rfl, fun _ => ⟨before, last, es, hne, hseg, by simp [hw]⟩⟩
  | present d n =>
    by_cases hdot : last = [Path.dot]
    · exact Or.inr ⟨.badArgument, by simp [hdot, throw_apply], by simp⟩
    by_cases hup : last = [Path.dot, Path.dot]
    · exact Or.inr ⟨.notEmpty, by simp [hup, throw_apply], by simp⟩
    have hs : IsPlain last := ⟨by simp [Path.isIdle, hne, hdot], hup⟩
    simp only [hdot, hup, if_false]
    rcases hchild : n.children.lookup last with _ | (⟨_ | _⟩ | _ | _)
    · refine Or.inr ⟨.noEntry, by simp [throw_apply], fun _ => ⟨before, last, es, hne, hseg, fun d' n' h => ?_⟩⟩
      rw [hw, Except.ok.injEq, Found.present.injEq] at h
      exact ⟨hs, by rw [← h.2, hchild]⟩
    · exact Or.inl ⟨before, last, es, d, n, hne, hes, hseg, hw, hs, hchild, by simp [modify_apply]⟩
    · exact Or.inr ⟨.notEmpty, by simp [throw_apply], by simp⟩
    · exact Or.inr ⟨.notDirectory, by simp [throw_apply], by simp⟩
    · exact Or.inr ⟨.notDirectory, by simp [throw_apply], by simp⟩

/-- A directory is deleted where its path leads. -/
theorem removeDirectory_ok (h : removeDirectory cwd p t = (.ok (), t')) :
    ∃ l, l ≠ [] ∧ t' = t.erase l ∧ ∀ t₂, t.Extends t₂ → LeadsTo t₂ cwd p l := by
  rcases removeDirectory_cases cwd p t with ⟨before, last, es, d, n, -, hes, hseg, hw, hs, hchild, h'⟩ | ⟨e, h', -⟩
  · rw [h'] at h
    obtain ⟨-, rfl⟩ := Prod.mk.inj h
    have hd : t.entryAt? (d ++ [last]) = some .directory := by
      rw [Tree.entryAt?_eq_directory_iff, Tree.get?_concat, (walkFrom_eq_ok_iff.1 hw).2.get?_eq rfl]
      exact ⟨[], hchild⟩
    exact ⟨d ++ [last], by simp, rfl, fun t₂ ht => leadsTo_of_parent ht hseg hes hw hs hd⟩
  · rw [h'] at h
    cases h

/-- A path that names something has a directory to look in, and its last name there, if it ends in one. -/
private theorem stat_parent {before es : List Bytes} {last : Bytes} {n : Node}
    (hseg : p.segments = before ++ last :: es) (hne : last ≠ []) (h : stat t cwd p false = .ok (l, n)) :
    ∃ d m, walkFrom t cwd p before true = .ok (.present d m) ∧
      (last = [Path.dot] ∨ last = [Path.dot, Path.dot] ∨ m.children.lookup last ≠ none) := by
  obtain ⟨-, hd, hw⟩ := find_eq_ok_iff.1 (stat_eq_ok_iff.1 h)
  obtain ⟨d, m, links, h₁, h₂⟩ := hw.split hd rfl hseg (by simp)
  refine ⟨d, m, walkFrom_eq_ok_iff.2 ⟨hd, h₁⟩, ?_⟩
  have hchild : ∀ n, t.get? (d ++ [last]) = some n → m.children.lookup last ≠ none := by
    intro n hn
    rw [Tree.get?_concat, h₁.get?_eq rfl, Option.bind_some] at hn
    simp [hn]
  cases h₂ with
  | idle hi =>
    left
    simpa [Path.isIdle, hne] using hi
  | up => exact Or.inr (Or.inl rfl)
  | enter _ _ hn | file _ _ hn | stay _ _ _ hn | follow _ _ _ hn => exact Or.inr (Or.inr (hchild _ hn))

/-- A deletion that is refused leaves the tree alone; the directory is said to be missing only if its path names
nothing. -/
theorem removeDirectory_error (h : removeDirectory cwd p t = (.error e, t')) :
    t' = t ∧ (e = .noEntry → ∀ l n, stat t cwd p false ≠ .ok (l, n)) := by
  rcases removeDirectory_cases cwd p t with ⟨_, _, _, _, _, -, -, -, -, -, -, h'⟩ | ⟨e', h', hgone⟩
  · rw [h'] at h
    cases h
  · rw [h'] at h
    obtain ⟨he, rfl⟩ := Prod.mk.inj h
    cases he
    refine ⟨rfl, fun he l n hstat => ?_⟩
    obtain ⟨before, last, es, hne, hseg, hmissing⟩ := hgone he
    obtain ⟨d, m, hw, hlast⟩ := stat_parent hseg hne hstat
    obtain ⟨hs, hchild⟩ := hmissing d m hw
    rcases hlast with rfl | rfl | hlast
    · exact absurd hs.1 (by decide)
    · exact hs.2 rfl
    · exact hlast hchild

/-! ### All cases -/

/-- What removing can come to: the answer, and the tree that is left. -/
inductive Removal (t : Tree) (cwd : Location) (p : Path) : Except Cause Bool → Tree → Prop
  | nothing : stat t cwd p false = .error .noEntry → Removal t cwd p (.ok false) t
  | refused {e : Fault} : stat t cwd p false = .error e →
      Removal t cwd p (.error (.fileFault p.display e)) t
  | leaf {l : Location} {n : Node} : stat t cwd p false = .ok (l, n) → n.isDirectory = false →
      Removal t cwd p (.ok true) (t.erase l)
  | whole {l : Location} {cs : List (Name × Node)} : stat t cwd p false = .ok (l, .directory cs) → l ≠ [] →
      Removal t cwd p (.ok true) ((t.put l .directory).erase l)
  | emptied {l : Location} {cs : List (Name × Node)} : stat t cwd p false = .ok (l, .directory cs) →
      (∀ l' n, stat (t.put l .directory) cwd p false ≠ .ok (l', n)) →
      Removal t cwd p (.ok true) (t.put l .directory)
  | stuck {l : Location} {cs : List (Name × Node)} {e : Fault} : stat t cwd p false = .ok (l, .directory cs) →
      Removal t cwd p (.error (.fileFault p.display e)) (t.put l .directory)

/-- What is done before an answer is given. -/
private def removing (cwd : Location) (p : Path) : FileAction Fault Unit := do
  let (l, n) ← query (stat · cwd p false)
  if n.isDirectory then removeTree cwd p l else modify (·.erase l)

private def removeAnswer (p : Path) : Except Fault Unit → Except Cause Bool
  | .ok () => .ok true
  | .error .noEntry => .ok false
  | .error fault => .error (.fileFault p.display fault)

private theorem remove_apply (cwd : Location) (p : Path) (t : Tree) :
    remove cwd p t = (removeAnswer p (removing cwd p t).1, (removing cwd p t).2) := by
  have hrun : (liftM (removing cwd p).run : FileAction Cause (Except Fault Unit)) t =
      (.ok (removing cwd p t).1, (removing cwd p t).2) := rfl
  show (liftM (removing cwd p).run >>= _ : FileAction Cause Bool) t = _
  rw [bind_apply_ok hrun]
  rcases removing cwd p t with ⟨e | _, t'⟩
  · cases e <;> rfl
  · rfl

/-- What is not found is not removed, and only a missing name is no error. -/
theorem remove_of_stat_error (h : stat t cwd p false = .error e) :
    remove cwd p t = (if e = .noEntry then .ok false else .error (.fileFault p.display e), t) := by
  have happly : removing cwd p t = (.error e, t) := query_bind_error h
  rw [remove_apply, happly]
  cases e <;> rfl

private theorem removeTree_cases (cwd : Location) (p : Path) (l : Location) (t : Tree) :
    (∃ l', l' ≠ [] ∧ (∀ t₂, (t.put l .directory).Extends t₂ → LeadsTo t₂ cwd p l') ∧
      removeTree cwd p l t = (.ok (), (t.put l .directory).erase l')) ∨
    (∀ l' n, stat (t.put l .directory) cwd p false ≠ .ok (l', n)) ∧
      removeTree cwd p l t = (.ok (), t.put l .directory) ∨
    ∃ e, e ≠ .noEntry ∧ removeTree cwd p l t = (.error e, t.put l .directory) := by
  rcases h : removeTree cwd p l t with ⟨r, t'⟩
  unfold removeTree at h
  rw [bind_apply_ok (modify_apply _ t)] at h
  rcases of_tryCatch h with ⟨_, hd, rfl⟩ | ⟨e, t₁, hd, h⟩
  · obtain ⟨l', hl', rfl, hleads⟩ := removeDirectory_ok hd
    exact Or.inl ⟨l', hl', hleads, rfl⟩
  · obtain ⟨rfl, hgone⟩ := removeDirectory_error hd
    by_cases he : e = .noEntry
    · rw [if_pos he] at h
      obtain ⟨rfl, rfl⟩ := Prod.mk.inj h
      exact Or.inr (Or.inl ⟨hgone he, rfl⟩)
    · rw [if_neg he] at h
      obtain ⟨rfl, rfl⟩ := Prod.mk.inj h
      exact Or.inr (Or.inr ⟨e, he, rfl⟩)

theorem remove_spec (cwd : Location) (p : Path) (t : Tree) :
    Removal t cwd p (remove cwd p t).1 (remove cwd p t).2 := by
  rw [remove_apply]
  rcases hstat : stat t cwd p false with e | ⟨l, n⟩
  · have happly : removing cwd p t = (.error e, t) := query_bind_error hstat
    rw [happly]
    by_cases he : e = .noEntry
    · subst he
      exact .nothing hstat
    · have hanswer : removeAnswer p (.error e) = .error (.fileFault p.display e) := by
        cases e <;> simp_all [removeAnswer]
      rw [hanswer]
      exact .refused hstat
  · have happly : removing cwd p t = (if n.isDirectory then removeTree cwd p l else modify (·.erase l)) t :=
      query_bind_ok (q := (stat · cwd p false)) hstat
    cases n with
    | directory cs =>
      rw [happly, Node.isDirectory, if_pos rfl]
      have hdir : t.entryAt? l = some .directory := Tree.entryAt?_eq_directory_iff.2 ⟨cs, stat_get? hstat⟩
      rcases removeTree_cases cwd p l t with ⟨l', hl', hleads, h⟩ | ⟨hgone, h⟩ | ⟨e, he, h⟩
      · -- the directory that is deleted is the one that has been emptied
        have hl : l' = l :=
          (hleads t (Tree.emptied_extends hdir)).unique (stat_leadsTo hstat (Or.inr (by simp)))
        rw [h]
        subst hl
        exact .whole hstat hl'
      · rw [h]
        exact .emptied hstat hgone
      · rw [h]
        have hanswer : removeAnswer p (.error e) = .error (.fileFault p.display e) := by
          cases e <;> simp_all [removeAnswer]
        rw [hanswer]
        exact .stuck hstat
    | file c x =>
      rw [happly]
      exact .leaf hstat rfl
    | link target =>
      rw [happly]
      exact .leaf hstat rfl

/-! ### What follows -/

/-- Nothing appears. -/
theorem Removal.extends (h : Removal t cwd p r t') : t'.Extends t := by
  have hdir : ∀ {l cs}, stat t cwd p false = .ok (l, .directory cs) → (t.put l .directory).Extends t :=
    fun hstat => Tree.emptied_extends (Tree.entryAt?_eq_directory_iff.2 ⟨_, stat_get? hstat⟩)
  cases h with
  | nothing | refused => exact .refl t
  | leaf => exact Tree.erase_extends t _
  | whole hstat => exact (Tree.erase_extends _ _).trans (hdir hstat)
  | emptied hstat | stuck hstat => exact hdir hstat

/-- Only what the path names changes, and what is below it. -/
theorem Removal.frame (h : Removal t cwd p r t') (hk : t'.entryAt? k ≠ t.entryAt? k) :
    ∃ l n, stat t cwd p false = .ok (l, n) ∧ l <+: k := by
  cases h with
  | nothing | refused => exact absurd rfl hk
  | @leaf l n hstat =>
    refine ⟨l, n, hstat, ?_⟩
    by_contra hl
    exact hk (Tree.entryAt?_erase hl)
  | @whole l cs hstat =>
    refine ⟨l, _, hstat, ?_⟩
    by_contra hl
    exact hk (by rw [Tree.entryAt?_erase hl, Tree.entryAt?_put hl])
  | @emptied l cs hstat | @stuck l cs _ hstat =>
    refine ⟨l, _, hstat, ?_⟩
    by_contra hl
    exact hk (Tree.entryAt?_put hl _)

/-- After a removal without an error the path names nothing. -/
theorem Removal.gone {b : Bool} (h : Removal t cwd p r t') (hr : r = .ok b) (l : Location) (n : Node) :
    stat t' cwd p false ≠ .ok (l, n) := by
  intro hl
  -- what the path named before is what it names now, since nothing has appeared
  obtain ⟨n', hn'⟩ := stat_extends h.extends hl
  cases h with
  | nothing hstat => simp [hstat] at hl
  | refused => simp at hr
  | @leaf l' m hstat hm =>
    rw [hstat] at hn'
    obtain ⟨rfl, rfl⟩ := Prod.mk.inj (Except.ok.inj hn')
    have hne : l' ≠ [] := by
      rintro rfl
      obtain ⟨cs, hcs⟩ := Tree.entryAt?_eq_directory_iff.1 t.entryAt?_root
      rw [stat_get? hstat, Option.some.injEq] at hcs
      simp [hcs, Node.isDirectory] at hm
    have := Tree.entryAt?_eq_none_iff.1 (Tree.entryAt?_erase_self (t := t) hne)
    simp [stat_get? hl] at this
  | @whole l' cs hstat hne =>
    rw [hstat] at hn'
    obtain ⟨rfl, -⟩ := Prod.mk.inj (Except.ok.inj hn')
    have := Tree.entryAt?_eq_none_iff.1 (Tree.entryAt?_erase_self (t := t.put l' .directory) hne)
    simp [stat_get? hl] at this
  | emptied _ hgone => exact hgone l n hl
  | stuck => simp at hr

/-- After a removal without an error nothing but directories is left where something was found. -/
theorem Removal.cleared {b : Bool} {n : Node} {x : Entry} (h : Removal t cwd p (.ok b) t')
    (hstat : stat t cwd p false = .ok (l, n)) (hk : l <+: k) (hx : t'.entryAt? k = some x) : x = .directory := by
  have hgone (hl : l ≠ []) (t₁ : Tree) (ht : t' = t₁.erase l) : x = .directory := by
    rw [ht, Tree.entryAt?_erase_below hl hk] at hx
    cases hx
  cases h with
  | nothing hs => simp [hstat] at hs
  | @leaf l' n' hs hn =>
    rw [hstat] at hs
    obtain ⟨rfl, rfl⟩ := Prod.mk.inj (Except.ok.inj hs)
    refine hgone ?_ t rfl
    rintro rfl
    obtain ⟨cs, hcs⟩ := Tree.entryAt?_eq_directory_iff.1 t.entryAt?_root
    rw [stat_get? hstat, Option.some.injEq] at hcs
    simp [hcs, Node.isDirectory] at hn
  | @whole l' cs hs hne =>
    rw [hstat] at hs
    obtain ⟨rfl, -⟩ := Prod.mk.inj (Except.ok.inj hs)
    exact hgone hne _ rfl
  | @emptied l' cs hs hnone =>
    rw [hstat] at hs
    obtain ⟨rfl, rfl⟩ := Prod.mk.inj (Except.ok.inj hs)
    obtain ⟨r, rfl⟩ := hk
    -- had nothing been emptied, the path would still name the directory
    have hput := (Tree.put_cases t l .directory).resolve_left fun he => hnone l _ (by rw [he, hstat])
    rw [hput r] at hx
    split at hx
    · exact (Option.some.inj hx).symm
    · cases hx

end GradleBuild.Files
