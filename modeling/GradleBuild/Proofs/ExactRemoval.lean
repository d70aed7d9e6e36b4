import GradleBuild.Proofs.Making

/-!
# Removals that are exact

A removal without an error leaves nothing that its path finds, touches nothing but what the path named and what was
below, and says whether there was anything.  Links are removed as links, so that what they lead to stays.

* `Walks.misses_or`: in a smaller tree a walk ends where it ended, or misses something.
* `Missing.misses`, `ThroughFile.fails`: what comes of a path that goes through a free name, or through a file.
* `remove_exact`: what a removal has done, and what it leaves alone.
* `remove_inexact`: a directory that its path goes into and out of again is emptied, and stays.
-/

namespace GradleBuild

/-- What is in a tree is not in a smaller one, or is there as something of the same kind. -/
theorem Tree.Extends.none_or {t t' : Tree} {l : Location} {e : Entry} (h : t'.Extends t)
    (hl : t.entryAt? l = some e) : t'.entryAt? l = none ∨ ∃ e', t'.entryAt? l = some e' ∧ e'.SameKind e := by
  cases hnow : t'.entryAt? l with
  | none => exact Or.inl rfl
  | some e' =>
    obtain ⟨e'', he'', hkind⟩ := h l e' hnow
    obtain rfl := Option.some.inj (hl.symm.trans he'')
    exact Or.inr ⟨e', rfl, hkind⟩

namespace Files

variable {t t' : Tree} {cwd d k l r : Location} {p : Path} {xs ys : List Bytes} {links : Nat} {f : Found} {n : Node}
  {b : Bool} {c : Bytes} {x : Bool} {name : Name} {slashed : Bool}

/-! ### Walks that miss something -/

theorem walkAt_eq_ok_iff {followLast : Bool} (hl : t.entryAt? l = some .directory) :
    walkAt t followLast links l xs = .ok f ↔ Walks t followLast links l xs f := by
  obtain ⟨cs, hcs⟩ := Tree.entryAt?_eq_directory_iff.1 hl
  have hrev : t.get? l.reverse.reverse = some (.directory cs) := by rw [List.reverse_reverse, hcs]
  unfold walkAt
  rw [hcs]
  simpa using walk_eq_ok_iff hrev

/-- A walk that comes to a free name, at its end or on its way. -/
def Misses (t : Tree) (links : Nat) (l : Location) (xs : List Bytes) : Prop :=
  (∃ d name slashed, walkAt t false links l xs = .ok (.absent d name slashed)) ∨
    walkAt t false links l xs = .error .noEntry

private theorem misses_congr {links' : Nat} {l' : Location}
    (h : walkAt t false links l xs = walkAt t false links' l' ys) (hm : Misses t links' l' ys) :
    Misses t links l xs := by
  unfold Misses
  rwa [h]

private theorem misses_of_free {s : Bytes} {rest : List Bytes} (hs : IsPlain s) (hle : s.length ≤ Name.longest)
    (hl : t.entryAt? l = some .directory) (h : t.entryAt? (l ++ [s]) = none) : Misses t links l (s :: rest) := by
  by_cases hrest : rest.all List.isEmpty = true
  · exact Or.inl ⟨l, s, _, (walkAt_eq_ok_iff hl).2 (.missing hs hle hl (Tree.entryAt?_eq_none_iff.1 h) hrest)⟩
  · exact Or.inr (walkAt_missing hs hle hl h (by simpa using hrest))

private theorem directory_linkBase (hl : t.entryAt? l = some .directory) (target : Path) :
    t.entryAt? (linkBase l target) = some .directory := by
  unfold linkBase
  split
  · exact t.entryAt?_root
  · exact hl

/-- What was found before something was removed is still found, or the walk misses something now. -/
theorem Walks.misses_or (ht : t'.Extends t) (hl : t'.entryAt? l = some .directory)
    (h : Walks t false links l xs f) (hf : f = .present r n) :
    (∃ n', walkAt t' false links l xs = .ok (.present r n')) ∨ Misses t' links l xs := by
  induction h with
  | here =>
    cases hf
    obtain ⟨cs, hcs⟩ := Tree.entryAt?_eq_directory_iff.1 hl
    exact Or.inl ⟨_, (walkAt_eq_ok_iff hl).2 (.here hcs)⟩
  | idle hi _ ih =>
    rw [walkAt_idle hi]
    exact (ih hl hf).imp_right (misses_congr (walkAt_idle hi))
  | @up _ l _ _ _ ih =>
    rw [walkAt_up hl]
    exact (ih (Tree.directory_above (List.dropLast_prefix l) hl) hf).imp_right (misses_congr (walkAt_up hl))
  | missing => simp at hf
  | @enter _ l s _ _ _ hs hle hn _ ih =>
    rcases ht.none_or (Tree.entryAt?_eq_directory_iff.2 ⟨_, hn⟩) with hnone | ⟨e, hnow, hkind⟩
    · exact Or.inr (misses_of_free hs hle hl hnone)
    · obtain rfl : e = .directory := by cases e <;> simp_all [Entry.SameKind]
      rw [walkAt_enter hs hle hnow]
      exact (ih hnow hf).imp_right (misses_congr (walkAt_enter hs hle hnow))
  | @file _ l s c x hs hle hn =>
    cases hf
    rcases ht.none_or (Tree.entryAt?_eq_file_iff.2 hn) with hnone | ⟨e, hnow, hkind⟩
    · exact Or.inr (misses_of_free hs hle hl hnone)
    · obtain ⟨c', x', rfl⟩ : ∃ c' x', e = .file c' x' := by cases e <;> simp_all [Entry.SameKind]
      exact Or.inl ⟨_, (walkAt_eq_ok_iff hl).2 (.file hs hle (Tree.entryAt?_eq_file_iff.1 hnow))⟩
  | @stay _ l s target hfl hs hle hn =>
    cases hf
    rcases ht.none_or (Tree.entryAt?_eq_link_iff.2 hn) with hnone | ⟨e, hnow, hkind⟩
    · exact Or.inr (misses_of_free hs hle hl hnone)
    · obtain rfl : e = .link target := by cases e <;> simp_all [Entry.SameKind]
      exact Or.inl ⟨_, (walkAt_eq_ok_iff hl).2 (.stay hfl hs hle (Tree.entryAt?_eq_link_iff.1 hnow))⟩
  | @follow _ l s rest target _ hr hs hle hn _ ih =>
    have hrest : rest ≠ [] := hr.resolve_right (by simp)
    rcases ht.none_or (Tree.entryAt?_eq_link_iff.2 hn) with hnone | ⟨e, hnow, hkind⟩
    · exact Or.inr (misses_of_free hs hle hl hnone)
    · obtain rfl : e = .link target := by cases e <;> simp_all [Entry.SameKind]
      rw [walkAt_follow hs hle hnow hrest]
      exact (ih (directory_linkBase hl _) hf).imp_right (misses_congr (walkAt_follow hs hle hnow hrest))

/-- Behind a free name there is nothing to be found. -/
theorem Walks.misses (hl : t.entryAt? l = some .directory) (h : Walks t true links l xs f)
    (hf : f = .absent d name slashed) (hy : ys ≠ []) : Misses t links l (xs ++ ys) := by
  induction h with
  | here => simp at hf
  | idle hi _ ih => exact misses_congr (walkAt_idle hi) (ih hl hf)
  | @up _ l _ _ _ ih => exact misses_congr (walkAt_up hl) (ih (Tree.directory_above (List.dropLast_prefix l) hl) hf)
  | missing hs hle _ hn => exact misses_of_free hs hle hl (Tree.entryAt?_eq_none_iff.2 hn)
  | enter hs hle hn _ ih =>
    have hin := Tree.entryAt?_eq_directory_iff.2 ⟨_, hn⟩
    exact misses_congr (walkAt_enter hs hle hin) (ih hin hf)
  | file => simp at hf
  | stay hfl => simp at hfl
  | follow hr hs hle hn _ ih =>
    have hthen := ih (directory_linkBase hl _) hf
    rw [List.append_assoc] at hthen
    exact misses_congr (walkAt_follow hs hle (Tree.entryAt?_eq_link_iff.2 hn) (by simp [hy])) hthen

/-- Behind a file there is nothing to be found, and it is said why. -/
theorem Walks.notDirectory (hl : t.entryAt? l = some .directory) (h : Walks t true links l xs f)
    (hf : f = .present d (.file c x)) (hy : ys ≠ []) : walkAt t false links l (xs ++ ys) = .error .notDirectory := by
  induction h with
  | here hn =>
    cases hf
    simp [Tree.entryAt?_eq_file_iff.2 hn] at hl
  | idle hi _ ih => exact (walkAt_idle hi).trans (ih hl hf)
  | @up _ l _ _ _ ih => exact (walkAt_up hl).trans (ih (Tree.directory_above (List.dropLast_prefix l) hl) hf)
  | missing => simp at hf
  | enter hs hle hn _ ih =>
    have hin := Tree.entryAt?_eq_directory_iff.2 ⟨_, hn⟩
    exact (walkAt_enter hs hle hin).trans (ih hin hf)
  | file hs hle hn => exact walkAt_file hs hle (Tree.entryAt?_eq_file_iff.2 hn) hy
  | stay hfl => simp at hfl
  | follow hr hs hle hn _ ih =>
    have hthen := ih (directory_linkBase hl _) hf
    rw [List.append_assoc] at hthen
    exact (walkAt_follow hs hle (Tree.entryAt?_eq_link_iff.2 hn) (by simp [hy])).trans hthen

/-! ### Paths that name nothing -/

/-- The directory that a path is seen from is gone, or the path comes to a free name: at its end, where a link is not
followed, or on its way. -/
def Missing (t : Tree) (cwd : Location) (p : Path) : Prop :=
  t.entryAt? (start cwd p) ≠ some .directory ∨ ∃ xs ys d name slashed, p.segments = xs ++ ys ∧
    walkFrom t cwd p xs (!ys.isEmpty) = .ok (.absent d name slashed)

/-- A path goes on behind a file, be it by a slash alone. -/
def ThroughFile (t : Tree) (cwd : Location) (p : Path) : Prop :=
  ∃ xs ys d c x, p.segments = xs ++ ys ∧ ys ≠ [] ∧ walkFrom t cwd p xs true = .ok (.present d (.file c x))

private theorem find_eq_walkAt (hc : checkPath p = .ok ()) :
    find t cwd p false = walkAt t false maxLinks (start cwd p) p.segments := by
  unfold find
  rw [hc]
  rfl

private theorem stat_of_misses (hc : checkPath p = .ok ()) (h : Misses t maxLinks (start cwd p) p.segments) :
    stat t cwd p false = .error .noEntry := by
  unfold stat
  rw [find_eq_walkAt hc]
  rcases h with ⟨d, name, slashed, h⟩ | h
  · rw [h]
    rfl
  · rw [h]
    rfl

private theorem misses_of_gone (h : t.entryAt? (start cwd p) ≠ some .directory) :
    Misses t maxLinks (start cwd p) p.segments := by
  right
  unfold walkAt
  split
  · rename_i cs hcs
    exact absurd (Tree.entryAt?_eq_directory_iff.2 ⟨cs, hcs⟩) h
  · rfl

theorem Missing.stat_eq (h : Missing t cwd p) (hc : checkPath p = .ok ()) :
    stat t cwd p false = .error .noEntry := by
  refine stat_of_misses hc ?_
  rcases h with h | ⟨xs, ys, d, name, slashed, hseg, h⟩
  · exact misses_of_gone h
  · rcases eq_or_ne ys [] with rfl | hy
    · rw [List.append_nil] at hseg
      exact Or.inl ⟨d, name, slashed, by rw [hseg]; exact h⟩
    · have hfollow : (!ys.isEmpty) = true := by simpa using hy
      rw [hfollow] at h
      obtain ⟨hstart, hw⟩ := walkFrom_eq_ok_iff.1 h
      rw [hseg]
      exact hw.misses hstart rfl hy

theorem ThroughFile.stat_eq (h : ThroughFile t cwd p) (hc : checkPath p = .ok ()) :
    stat t cwd p false = .error .notDirectory := by
  obtain ⟨xs, ys, d, c, x, hseg, hy, h⟩ := h
  obtain ⟨hstart, hw⟩ := walkFrom_eq_ok_iff.1 h
  unfold stat
  rw [find_eq_walkAt hc, hseg, hw.notDirectory hstart rfl hy]
  rfl

/-! ### Removals -/

/-- What is no longer found after something was removed is missing. -/
private theorem stat_noEntry (ht : t'.Extends t) (h : stat t cwd p false = .ok (l, n))
    (hgone : ∀ l n, stat t' cwd p false ≠ .ok (l, n)) : stat t' cwd p false = .error .noEntry := by
  obtain ⟨hc, -, hw⟩ := find_eq_ok_iff.1 (stat_eq_ok_iff.1 h)
  refine stat_of_misses hc ?_
  by_cases hstart : t'.entryAt? (start cwd p) = some .directory
  · refine (hw.misses_or ht hstart rfl).resolve_left ?_
    rintro ⟨n', hn'⟩
    exact hgone l n' (stat_eq_ok_iff.2 ((find_eq_walkAt hc).trans hn'))
  · exact misses_of_gone hstart

/-- After a removal without an error nothing is found under the path. -/
theorem Removal.stat_eq (h : Removal t cwd p (.ok b) t') : stat t' cwd p false = .error .noEntry := by
  have hgone := h.gone rfl
  have hless := h.extends
  cases h with
  | nothing hstat => exact hstat
  | leaf hstat | whole hstat | emptied hstat => exact stat_noEntry hless hstat hgone

/-- Below what the path named nothing is left, and nothing there either, but for a directory to which the path does not
lead once it is empty. -/
theorem Removal.nothing_left (h : Removal t cwd p (.ok b) t') (hstat : stat t cwd p false = .ok (l, n)) :
    (∀ r, r ≠ [] → t'.entryAt? (l ++ r) = none) ∧ (t'.entryAt? l = none ∨ n.isDirectory = true ∧
      t'.entryAt? l = some .directory ∧ ∀ l' n', stat (t.put l .directory) cwd p false ≠ .ok (l', n')) := by
  have herased (hl : l ≠ []) (t₁ : Tree) (ht : t' = t₁.erase l) (r : Location) : t'.entryAt? (l ++ r) = none := by
    rw [ht]
    exact Tree.entryAt?_erase_below hl (List.prefix_append l r)
  cases h with
  | nothing hs => simp [hstat] at hs
  | @leaf l' n' hs hn =>
    rw [hstat] at hs
    obtain ⟨rfl, rfl⟩ := Prod.mk.inj (Except.ok.inj hs)
    have hl : l ≠ [] := by
      rintro rfl
      obtain ⟨cs, hcs⟩ := Tree.entryAt?_eq_directory_iff.1 t.entryAt?_root
      rw [stat_get? hstat, Option.some.injEq] at hcs
      simp [hcs, Node.isDirectory] at hn
    have hnone := herased hl t rfl
    exact ⟨fun r _ => hnone r, Or.inl (by simpa using hnone [])⟩
  | @whole l' cs hs hl =>
    rw [hstat] at hs
    obtain ⟨rfl, rfl⟩ := Prod.mk.inj (Except.ok.inj hs)
    have hnone := herased hl _ rfl
    exact ⟨fun r _ => hnone r, Or.inl (by simpa using hnone [])⟩
  | @emptied l' cs hs hgone =>
    rw [hstat] at hs
    obtain ⟨rfl, rfl⟩ := Prod.mk.inj (Except.ok.inj hs)
    -- had nothing been emptied, the path would still name the directory
    have hput := (Tree.put_cases t l .directory).resolve_left fun he => hgone l _ (by rw [he, hstat])
    exact ⟨fun r hr => by rw [hput r, if_neg hr], Or.inr ⟨rfl, by simpa using hput [], hgone⟩⟩

/-- The answer says whether there was anything. -/
theorem Removal.answer_iff (h : Removal t cwd p (.ok b) t') :
    b = true ↔ ∃ l n, stat t cwd p false = .ok (l, n) := by
  cases h with
  | nothing hs => simp [hs]
  | leaf hs | whole hs | emptied hs => simp [hs]

/-- A removal that ends well says whether there was anything.  It leaves nothing that the path finds, nor anything below
what the path named, and not that itself either, unless the path does not lead back to the directory once it is empty.
Everything else stays as it is.  A second removal finds nothing to do.  So does the first where the path is missing,
and where it goes on behind a file there is an error and no change. -/
theorem remove_exact (cwd : Location) (p : Path) (t : Tree) :
    (∀ b t', remove cwd p t = (.ok b, t') →
      (b = true ↔ ∃ l n, stat t cwd p false = .ok (l, n)) ∧
      stat t' cwd p false = .error .noEntry ∧
      (∀ l n, stat t cwd p false = .ok (l, n) → (∀ r, r ≠ [] → t'.entryAt? (l ++ r) = none) ∧
        (t'.entryAt? l = none ∨ n.isDirectory = true ∧ t'.entryAt? l = some .directory ∧
          ∀ l' n', stat (t.put l .directory) cwd p false ≠ .ok (l', n'))) ∧
      (∀ k, (∀ l n, stat t cwd p false = .ok (l, n) → ¬ l <+: k) → t'.entryAt? k = t.entryAt? k) ∧
      remove cwd p t' = (.ok false, t')) ∧
    (checkPath p = .ok () → Missing t cwd p → remove cwd p t = (.ok false, t)) ∧
    (checkPath p = .ok () → ThroughFile t cwd p →
      remove cwd p t = (.error (.fileFault p.display .notDirectory), t)) := by
  refine ⟨fun b t' hrun => ?_, fun hc h => ?_, fun hc h => ?_⟩
  · have h := remove_spec cwd p t
    rw [hrun] at h
    refine ⟨h.answer_iff, h.stat_eq, fun l n hstat => h.nothing_left hstat, fun k hk => ?_, ?_⟩
    · by_contra hne
      obtain ⟨l, n, hstat, hp⟩ := h.frame hne
      exact hk l n hstat hp
    · rw [remove_of_stat_error h.stat_eq, if_pos rfl]
  · rw [remove_of_stat_error (h.stat_eq hc), if_pos rfl]
  · rw [remove_of_stat_error (h.stat_eq hc), if_neg (by simp)]

/-- An output directory with a file and a link to a directory beside it. -/
def linkedOutput : Tree := .ofEntries [([encode "keep"], .directory),
  ([encode "keep", encode "f"], .file (encode "kept") false), ([encode "out"], .directory),
  ([encode "out", encode "a"], .file (encode "old") false), ([encode "out", encode "l"], .link (.ofText "../keep"))]

theorem remove_exact_linked : ∃ t',
    remove [] (.ofText "/out") linkedOutput = (.ok true, t') ∧
    t'.entryAt? [encode "out", encode "l"] = none ∧ stat t' [] (.ofText "/out") false = .error .noEntry ∧
    t'.entryAt? [encode "keep", encode "f"] = some (.file (encode "kept") false) ∧
    remove [] (.ofText "/out") t' = (.ok false, t') ∧
    remove [] (.ofText "/none/x") linkedOutput = (.ok false, linkedOutput) ∧
    remove [] (.ofText "/out/a/x") linkedOutput = (.error (.fileFault "/out/a/x" .notDirectory), linkedOutput) := by
  obtain ⟨t', hrun⟩ : ∃ t', remove [] (.ofText "/out") linkedOutput = (.ok true, t') :=
    exists_state (by decide +kernel)
  obtain ⟨-, hstat, hleft, hframe, hagain⟩ := (remove_exact [] (.ofText "/out") linkedOutput).1 true t' hrun
  have hfound : (stat linkedOutput [] (.ofText "/out") false).toOption.map (fun f => (f.1, f.2.entry)) =
      some ([encode "out"], .directory) := by decide +kernel
  obtain ⟨cs, hfound⟩ := stat_directory_of_entry hfound
  have hkept : t'.entryAt? [encode "keep", encode "f"] = linkedOutput.entryAt? [encode "keep", encode "f"] := by
    refine hframe _ fun l n hl => ?_
    obtain ⟨rfl, -⟩ := Prod.mk.inj (Except.ok.inj (hfound.symm.trans hl))
    decide
  have hmissing : Missing linkedOutput [] (.ofText "/none/x") :=
    Or.inr ⟨[[], encode "none"], [encode "x"], [], encode "none", false, by decide +kernel, rfl⟩
  have hfile : ThroughFile linkedOutput [] (.ofText "/out/a/x") :=
    ⟨[[], encode "out", encode "a"], [encode "x"], [encode "out", encode "a"], encode "old", false, by decide +kernel,
      by simp, rfl⟩
  refine ⟨t', hrun, (hleft _ _ hfound).1 [encode "l"] (by simp), hstat, hkept.trans (by decide +kernel), hagain,
    (remove_exact [] (.ofText "/none/x") linkedOutput).2.1 (by decide +kernel) hmissing,
    (remove_exact [] (.ofText "/out/a/x") linkedOutput).2.2 (by decide +kernel) hfile⟩

/-- A directory in a directory. -/
def nested : Tree := .ofEntries [([encode "d"], .directory), ([encode "d", encode "x"], .directory)]

/-- A directory that its path goes into and out of again is emptied, but stays, and a name that is too long is an error
though nothing can have it. -/
theorem remove_inexact :
    (remove [] (.ofText "/d/x/..") nested).1 = .ok true ∧
      (remove [] (.ofText "/d/x/..") nested).2.entryAt? [encode "d"] = some .directory ∧
    nested.entryAt? [List.replicate 256 97] = none ∧
      (remove [] ⟨List.replicate 256 97⟩ nested).1 =
        .error (.fileFault (Path.display ⟨List.replicate 256 97⟩) .nameTooLong) := by
  refine ⟨by decide +kernel, by decide +kernel, by decide +kernel, by decide +kernel⟩

end Files

end GradleBuild
