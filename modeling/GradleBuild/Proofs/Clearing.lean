import GradleBuild.Proofs.ByName
import GradleBuild.Proofs.Runs

/-!
# Cleared places

Where a path leads can depend on what is about to be removed: on a link at its end, or on a directory that it goes into
and out of again.  A place is `Settled` for a path if that is not so: what is there is found under the path, and once
it is gone the path leads there by name.  Settled places are cleared by the removals at the start of a run, whatever
was there.

* `settled_of_spells`: a location that is spelled out is settled, if there is no link above it.
* `Settled.removal`: a removal without an error clears the place, and changes nothing else.
* `Reaches.cleared`: after the removals of a run the tree is the one at the start without what was at their places.
-/

namespace GradleBuild

variable {t t' : Tree} {l k : Location} {ls : List Location}

namespace Tree

/-- The tree without what is at some locations and below them. -/
def clear (t : Tree) (ls : List Location) : Tree := ls.foldl erase t

theorem clear_concat (t : Tree) (ls : List Location) (l : Location) : t.clear (ls ++ [l]) = (t.clear ls).erase l := by
  simp [clear]

theorem clear_extends (t : Tree) (ls : List Location) : (t.clear ls).Extends t := by
  induction ls generalizing t with
  | nil => exact .refl t
  | cons l ls ih => exact (ih (t.erase l)).trans (t.erase_extends l)

theorem entryAt?_clear (h : ∀ l ∈ ls, ¬ l <+: k) : (t.clear ls).entryAt? k = t.entryAt? k := by
  induction ls generalizing t with
  | nil => rfl
  | cons l ls ih =>
    have hrest := ih (t := t.erase l) fun l' hl' => h l' (List.mem_cons_of_mem _ hl')
    rw [entryAt?_erase (h l (by simp))] at hrest
    exact hrest

theorem entryAt?_clear_below (hls : ∀ l ∈ ls, l ≠ []) (hl : l ∈ ls) (h : l <+: k) :
    (t.clear ls).entryAt? k = none := by
  induction ls generalizing t with
  | nil => simp at hl
  | cons l' ls ih =>
    rcases List.mem_cons.1 hl with rfl | hl
    · exact (clear_extends _ ls).eq_none (entryAt?_erase_below (hls l (by simp)) h)
    · exact ih (fun l hl => hls l (List.mem_cons_of_mem _ hl)) hl

/-- Trees that differ only in what is cleared agree afterwards. -/
theorem agrees_clear (hls : ∀ l ∈ ls, l ≠ []) (h : ∀ k, (∀ l ∈ ls, ¬ l <+: k) → t.entryAt? k = t'.entryAt? k) :
    (t.clear ls).Agrees (t'.clear ls) := by
  intro k
  by_cases hk : ∃ l ∈ ls, l <+: k
  · obtain ⟨l, hl, hk⟩ := hk
    rw [entryAt?_clear_below hls hl hk, entryAt?_clear_below hls hl hk]
  · have hk' : ∀ l ∈ ls, ¬ l <+: k := fun l hl hp => hk ⟨l, hl, hp⟩
    rw [entryAt?_clear hk', entryAt?_clear hk', h k hk']

theorem agrees_put_erase (hl : l ≠ []) (e : Entry) : ((t.put l e).erase l).Agrees (t.erase l) := by
  intro k
  by_cases hk : l <+: k
  · rw [entryAt?_erase_below hl hk, entryAt?_erase_below hl hk]
  · rw [entryAt?_erase hk, entryAt?_erase hk, entryAt?_put hk]

end Tree

namespace Files

variable {cwd : Location} {p : Path} {s : Bytes} {b : Bool} {places : List (Path × Location)}

/-- What is at the place is found under the path, and once it is gone the path leads there by name. -/
structure Settled (t : Tree) (cwd : Location) (p : Path) (l : Location) : Prop where
  found : t.entryAt? l ≠ none → ∃ n, stat t cwd p false = .ok (l, n)
  byName : ByName (t.erase l) cwd p l

/-- Each place is settled once those before it are cleared. -/
def SettledAll (t : Tree) (cwd : Location) : List (Path × Location) → Prop
  | [] => True
  | (p, l) :: places => Settled t cwd p l ∧ SettledAll (t.erase l) cwd places

theorem Settled.agrees (h : Settled t cwd p l) (ht : t.Agrees t') : Settled t' cwd p l where
  found hl := by
    obtain ⟨n, hn⟩ := h.found (by rwa [ht l])
    exact stat_extends ht.extends hn
  byName := h.byName.agrees (ht.erase l)

theorem SettledAll.agrees (h : SettledAll t cwd places) (ht : t.Agrees t') : SettledAll t' cwd places := by
  induction places generalizing t t' with
  | nil => trivial
  | cons x places ih => exact ⟨h.1.agrees ht, ih h.2 (ht.erase x.2)⟩

/-- A directory that is emptied shows that a path that has led there by name without it still leads there. -/
private theorem Settled.emptied (h : Settled t cwd p l) (hl : l ≠ []) (hd : t.entryAt? l = some .directory) :
    (t.put l .directory).entryAt? l = some .directory ∧ ByName (t.put l .directory) cwd p l := by
  have hput : (t.put l .directory).entryAt? l = some .directory := by
    obtain ⟨d, name, rfl⟩ := (List.eq_nil_or_concat' l).resolve_left hl
    have hin := Tree.entryAt?_of_append (List.cons_ne_nil name []) hd
    have hv : name.IsValid := Tree.isValid_of_entryAt? hd name (by simp)
    simpa using Tree.entryAt?_put_below (r := []) hin hv .directory
  refine ⟨hput, h.byName.mono (fun k e he => ⟨e, ?_, .refl e⟩) fun k hk q hq => ?_⟩
  · by_cases hk : l <+: k
    · simp [Tree.entryAt?_erase_below hl hk] at he
    · rwa [Tree.entryAt?_erase hk, ← Tree.entryAt?_put hk .directory] at he
  · have hne : ¬ l <+: k := by
      intro hlk
      rw [hk.eq_of_length (Nat.le_antisymm hk.length_le hlk.length_le), hput] at hq
      simp at hq
    rwa [Tree.entryAt?_put hne, ← Tree.entryAt?_erase hne] at hq

/-- A removal without an error clears the place, whatever is there, and changes nothing else. -/
theorem Settled.removal (h : Settled t cwd p l) (hr : Removal t cwd p (.ok b) t') :
    l ≠ [] ∧ t'.Agrees (t.erase l) := by
  -- what is found is at the place: by assumption if something is there, by name if nothing is
  have hat : ∀ {r n}, stat t cwd p false = .ok (r, n) → r = l := by
    intro r n hs
    by_cases hn : t.entryAt? l = none
    · exact (h.byName.agrees (Tree.agrees_erase hn).symm).stat_eq hs
    · obtain ⟨n', hn'⟩ := h.found hn
      rw [hn'] at hs
      exact (Prod.mk.inj (Except.ok.inj hs)).1.symm
  cases hr with
  | nothing hs =>
    have hn : t.entryAt? l = none := by
      by_contra hn
      obtain ⟨n, hn'⟩ := h.found hn
      simp [hs] at hn'
    refine ⟨?_, Tree.agrees_erase hn⟩
    rintro rfl
    simp [Tree.entryAt?_root] at hn
  | @leaf r n hs hn =>
    obtain rfl := hat hs
    refine ⟨?_, fun _ => rfl⟩
    rintro rfl
    obtain ⟨cs, hcs⟩ := Tree.entryAt?_eq_directory_iff.1 t.entryAt?_root
    rw [stat_get? hs, Option.some.injEq] at hcs
    simp [hcs, Node.isDirectory] at hn
  | @whole r cs hs hr =>
    obtain rfl := hat hs
    exact ⟨hr, Tree.agrees_put_erase hr .directory⟩
  | @emptied r cs hs hgone =>
    -- the directory has been emptied, and is found again, so it has been deleted too
    exfalso
    obtain rfl := hat hs
    have hd : t.entryAt? r = some .directory := Tree.entryAt?_eq_directory_iff.2 ⟨cs, stat_get? hs⟩
    by_cases hne : r = []
    · refine hgone r _ (by rw [hne] at hs ⊢; simpa [Tree.put] using hs)
    · obtain ⟨hput, hname⟩ := h.emptied hne hd
      obtain ⟨n, hn⟩ := hname.stat_directory (find_eq_ok_iff.1 (stat_eq_ok_iff.1 hs)).1 hput
      exact hgone r n hn

/-- The operating system takes no path with a NUL byte. -/
theorem Removal.no_nul (h : Removal t cwd p (.ok b) t') : 0 ∉ p.bytes := by
  intro hp
  have hstat : stat t cwd p false = .error .nulInPath := by
    simp [stat, find, checkPath, hp, bind, Except.bind]
  cases h with
  | nothing hs | leaf hs | whole hs | emptied hs => simp [hstat] at hs

/-! ### Plain paths -/

private theorem walks_name {links : Nat} {n : Node} (hs : IsPlain s) (hn : t.get? (l ++ [s]) = some n) :
    Walks t false links l [s] (.present (l ++ [s]) n) := by
  have hv : Name.IsValid s :=
    Tree.isValid_of_entryAt? (Tree.entryAt?_eq_some_iff.2 ⟨n, hn, rfl⟩) s (by simp)
  have hle := hv.2.2.2.2.2
  cases n with
  | directory cs => exact .enter hs hle hn (.here hn)
  | file => exact .file hs hle hn
  | link => exact .stay rfl hs hle hn

/-- The path is the location itself, name by name from the root. -/
def Spells (p : Path) (l : Location) : Prop :=
  p.segments = [] :: l ∧ l ≠ [] ∧ (∀ s ∈ l, IsPlain s) ∧ checkPath p = .ok ()

instance (s : Bytes) : Decidable (IsPlain s) := inferInstanceAs (Decidable (_ ∧ _))

instance (p : Path) (l : Location) : Decidable (Spells p l) := inferInstanceAs (Decidable (_ ∧ _ ∧ _ ∧ _))

private theorem plain_eq_self {xs : List Bytes} (h : ∀ s ∈ xs, IsPlain s) : plain xs = xs :=
  List.filter_eq_self.2 fun s hs => by simp [(h s hs).1]

private theorem up_not_mem {xs : List Bytes} (h : ∀ s ∈ xs, IsPlain s) : [Path.dot, Path.dot] ∉ xs :=
  fun hup => (h _ hup).ne_up rfl

/-- A location that is spelled out is settled, if there is no link above it. -/
theorem settled_of_spells (h : Spells p l) (hlinks : ∀ k, k <+: l → k ≠ l → ∀ q, t.entryAt? k ≠ some (.link q)) :
    Settled t cwd p l := by
  obtain ⟨hp, hl, hplain, hc⟩ := h
  have hstart : start cwd p = [] := by
    unfold start
    rw [Path.isAbsolute_iff.2 ⟨l, hl, hp⟩]
    rfl
  obtain ⟨ds, hroot⟩ := Tree.entryAt?_eq_directory_iff.1 (t.erase l).entryAt?_root
  refine ⟨fun hn => ?_, [[]], l, [], ds, hp, hl, walkFrom_eq_ok_iff.2 ?_, up_not_mem hplain,
    by rw [plain_eq_self hplain]; rfl, fun k _ hk q hq => ?_⟩
  · obtain ⟨d, s, rfl⟩ := (List.eq_nil_or_concat' l).resolve_left hl
    obtain ⟨e, he⟩ := Option.ne_none_iff_exists'.1 hn
    obtain ⟨n, hget, -⟩ := Tree.entryAt?_eq_some_iff.1 he
    have hd := Tree.entryAt?_of_append (List.cons_ne_nil s []) he
    obtain ⟨cs, hcs⟩ := Tree.entryAt?_eq_directory_iff.1 hd
    have hdplain : ∀ s ∈ d, IsPlain s := fun s hs => hplain s (List.mem_append_left _ hs)
    have hnames : Walks t true maxLinks [] d (.present ([] ++ plain d) (.directory cs)) :=
      walks_plain (up_not_mem hdplain) (by rwa [plain_eq_self hdplain]) (by rwa [plain_eq_self hdplain])
    rw [plain_eq_self hdplain] at hnames
    refine ⟨n, stat_eq_ok_iff.2 (find_eq_ok_iff.2 ⟨hc, by rw [hstart]; exact t.entryAt?_root, ?_⟩)⟩
    rw [hstart, hp]
    exact .idle rfl (hnames.append rfl (by simp) fun links => walks_name (hplain s (by simp)) hget)
  · rw [hstart]
    exact ⟨Tree.entryAt?_root _, .idle rfl (.here hroot)⟩
  · -- nothing is left at the place itself, and above it there was no link
    by_cases hkl : k = l
    · rw [hkl, Tree.entryAt?_erase_self hl] at hq
      simp at hq
    · exact hlinks k hk hkl q ((Tree.erase_extends t _).link hq)

/-- Where there are no links, all locations that are spelled out are settled. -/
theorem settledAll_of_noLinks (ht : t.NoLinks) (h : ∀ x ∈ places, Spells x.1 x.2) : SettledAll t cwd places := by
  induction places generalizing t with
  | nil => trivial
  | cons x places ih =>
    exact ⟨settled_of_spells (h x (by simp)) fun k _ _ => ht k,
      ih (ht.of_extends (t.erase_extends x.2)) fun y hy => h y (List.mem_cons_of_mem _ hy)⟩

end Files

/-! ### The removals of a run -/

namespace Task

open Files (Settled SettledAll ByName)

variable {t : Task} {p : Project} {s : Surroundings} {m m₁ m' : Machine} {i : Nat} {q : Path}
  {places : List (Path × Location)}

private theorem remove_settled (hdry : p.dry = false) (h : Settled m.tree s.cwd q l)
    (hrun : t.announced p s i (.remove q) m = (.ok (), m')) :
    l ≠ [] ∧ 0 ∉ q.bytes ∧ m'.tree.Agrees (m.tree.erase l) := by
  obtain ⟨htree, -, -, hok⟩ := Step.remove_step hdry hrun
  obtain ⟨b, hb⟩ := hok rfl
  have hremoval := Files.remove_spec s.cwd q m.tree
  rw [Run.logged_tree] at htree hb
  rw [hb, ← htree] at hremoval
  exact ⟨(h.removal hremoval).1, hremoval.no_nul, (h.removal hremoval).2⟩

private theorem outputs_step (hplaces : places.map Prod.fst = t.outputs p.layout) {step : Step}
    (hstep : (t.plan p.layout)[i]? = some step) (hi : i < places.length) :
    ∃ q l, places[i]? = some (q, l) ∧ step = .remove q := by
  have hlength : (t.outputs p.layout).length = places.length := by rw [← hplaces, List.length_map]
  rcases plan_cases hstep with ⟨q, hq, rfl⟩ | ⟨j, a, rfl, -, -⟩ | ⟨rfl, -⟩
  · rw [← hplaces, List.getElem?_map] at hq
    obtain ⟨⟨q', l⟩, hx, rfl⟩ := Option.map_eq_some_iff.1 hq
    exact ⟨q', l, hx, rfl⟩
  · omega
  · omega

/-- After some removals the tree is the one at the start without what was at their places, and the other places are
still settled. -/
theorem Reaches.cleared (hdry : p.dry = false) (hplaces : places.map Prod.fst = t.outputs p.layout)
    (hset : SettledAll m.tree s.cwd places) (h : t.Reaches p s m i m₁) (hi : i ≤ places.length) :
    m₁.tree.Agrees (m.tree.clear ((places.take i).map Prod.snd)) ∧ SettledAll m₁.tree s.cwd (places.drop i) ∧
      ∀ l ∈ (places.take i).map Prod.snd, l ≠ [] := by
  induction h with
  | start => exact ⟨fun _ => rfl, hset, by simp⟩
  | @step i m₁ m₂ step _ hstep hrun ih =>
    obtain ⟨hagrees, hrest, hne⟩ := ih (by omega)
    obtain ⟨q, l, hx, rfl⟩ := outputs_step hplaces hstep (by omega)
    obtain ⟨hlt, hget⟩ := List.getElem?_eq_some_iff.1 hx
    -- the step clears the first of the places that are left
    rw [List.drop_eq_getElem_cons hlt, hget] at hrest
    obtain ⟨hl, -, hclear⟩ := remove_settled hdry hrest.1 hrun
    rw [List.take_add_one, hx, List.map_append]
    refine ⟨?_, hrest.2.agrees hclear.symm, fun l' hmem => ?_⟩
    · exact hclear.trans ((hagrees.erase l).trans fun k => by rw [← Tree.clear_concat]; rfl)
    · rcases List.mem_append.1 hmem with hmem | hmem
      · exact hne l' hmem
      · rw [List.mem_singleton.1 hmem]
        exact hl

/-- After its removal a path leads to its place by name. -/
theorem Reaches.byName (hdry : p.dry = false) (hplaces : places.map Prod.fst = t.outputs p.layout)
    (hset : SettledAll m.tree s.cwd places) (h : t.Reaches p s m (i + 1) m₁) (hx : places[i]? = some (q, l)) :
    ByName m₁.tree s.cwd q l ∧ m₁.tree.entryAt? l = none ∧ 0 ∉ q.bytes := by
  obtain ⟨hlt, hget⟩ := List.getElem?_eq_some_iff.1 hx
  cases h with
  | step hreach hstep hrun =>
    obtain ⟨-, hrest, -⟩ := hreach.cleared hdry hplaces hset (Nat.le_of_lt hlt)
    obtain ⟨q', l', hx', rfl⟩ := outputs_step hplaces hstep hlt
    obtain ⟨rfl, rfl⟩ := Prod.mk.inj (Option.some.inj (hx.symm.trans hx'))
    rw [List.drop_eq_getElem_cons hlt, hget] at hrest
    obtain ⟨hl, hnul, hclear⟩ := remove_settled hdry hrest.1 hrun
    exact ⟨hrest.1.byName.agrees hclear.symm, by rw [hclear l, Tree.entryAt?_erase_self hl], hnul⟩

end Task

end GradleBuild
