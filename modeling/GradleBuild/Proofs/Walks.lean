import GradleBuild.Files.Lookup
import GradleBuild.Proofs.Entries

/-!
# Walks by rules

`Walks` describes the successful walks through a tree, rule by rule, and `walk_eq_ok_iff` says that it describes them
all.  What is proved about paths goes by induction on these rules.

* `Walks.extends`, `stat_extends`: what a path names in a tree it also names in every tree that extends it.
* `Walks.split`: a walk to something goes through a directory at each cut.
-/

namespace GradleBuild.Files

/-- Whether a segment stands for a name. -/
def IsPlain (s : Bytes) : Prop := Path.isIdle s = false ∧ s ≠ [Path.dot, Path.dot]

/-- The directory that the target of a link in `l` is seen from. -/
def linkBase (l : Location) (target : Path) : Location := if target.isAbsolute then [] else l

/-- The walks from a location along segments, through at most `links` links, that end at something. -/
inductive Walks (t : Tree) (followLast : Bool) : Nat → Location → List Bytes → Found → Prop
  | here {links : Nat} {l : Location} {n : Node} : t.get? l = some n → Walks t followLast links l [] (.present l n)
  | idle {links : Nat} {l : Location} {s : Bytes} {rest : List Bytes} {f : Found} : Path.isIdle s = true →
      Walks t followLast links l rest f → Walks t followLast links l (s :: rest) f
  | up {links : Nat} {l : Location} {rest : List Bytes} {f : Found} : Walks t followLast links l.dropLast rest f →
      Walks t followLast links l ([Path.dot, Path.dot] :: rest) f
  | missing {links : Nat} {l : Location} {s : Bytes} {rest : List Bytes} : IsPlain s → s.length ≤ Name.longest →
      t.entryAt? l = some .directory → t.get? (l ++ [s]) = none → rest.all List.isEmpty = true →
      Walks t followLast links l (s :: rest) (.absent l s !rest.isEmpty)
  | enter {links : Nat} {l : Location} {s : Bytes} {rest : List Bytes} {cs : List (Name × Node)} {f : Found} :
      IsPlain s → s.length ≤ Name.longest → t.get? (l ++ [s]) = some (.directory cs) →
      Walks t followLast links (l ++ [s]) rest f → Walks t followLast links l (s :: rest) f
  | file {links : Nat} {l : Location} {s c : Bytes} {x : Bool} : IsPlain s → s.length ≤ Name.longest →
      t.get? (l ++ [s]) = some (.file c x) → Walks t followLast links l [s] (.present (l ++ [s]) (.file c x))
  | stay {links : Nat} {l : Location} {s : Bytes} {target : Path} : followLast = false → IsPlain s →
      s.length ≤ Name.longest → t.get? (l ++ [s]) = some (.link target) →
      Walks t followLast links l [s] (.present (l ++ [s]) (.link target))
  | follow {links : Nat} {l : Location} {s : Bytes} {rest : List Bytes} {target : Path} {f : Found} :
      rest ≠ [] ∨ followLast = true → IsPlain s → s.length ≤ Name.longest → t.get? (l ++ [s]) = some (.link target) →
      Walks t followLast links (linkBase l target) (target.segments ++ rest) f →
      Walks t followLast (links + 1) l (s :: rest) f

variable {t t' : Tree} {cwd l l' l'' r k : Location} {p : Path} {s : Bytes} {rest xs ys : List Bytes}
  {followLast : Bool} {links : Nat} {f : Found} {name : Name}

/-- Above a directory there is a directory, also above the root. -/
private theorem directory_dropLast (h : t.entryAt? l = some .directory) :
    t.entryAt? l.dropLast = some .directory := by
  rcases List.eq_nil_or_concat' l with rfl | ⟨d, a, rfl⟩
  · exact h
  · rw [List.dropLast_concat]
    exact Tree.entryAt?_of_append (List.cons_ne_nil a []) h

/-! ### The rules, read backwards -/

theorem IsPlain.ne_up (h : IsPlain s) : s ≠ [Path.dot, Path.dot] := h.2

theorem IsPlain.not_idle (h : IsPlain s) : Path.isIdle s ≠ true := by simp [h.1]

/-- A segment that stands for a name is a valid one if it is not too long and free of slashes and NUL bytes. -/
theorem IsPlain.isValid (h : IsPlain s) (hle : s.length ≤ Name.longest) (hs : Path.slash ∉ s ∧ 0 ∉ s) :
    Name.IsValid s := by
  have hi := h.1
  simp only [Path.isIdle, Bool.or_eq_false_iff, List.isEmpty_eq_false_iff, beq_eq_false_iff_ne] at hi
  exact ⟨hi.1, hi.2, h.2, hs.1, hs.2, hle⟩

private theorem walks_nil_iff : Walks t followLast links l [] f ↔ ∃ n, t.get? l = some n ∧ f = .present l n := by
  constructor
  · intro hw
    cases hw with
    | here hn => exact ⟨_, hn, rfl⟩
  · rintro ⟨n, hn, rfl⟩
    exact .here hn

private theorem walks_idle_iff (hi : Path.isIdle s = true) :
    Walks t followLast links l (s :: rest) f ↔ Walks t followLast links l rest f := by
  refine ⟨fun hw => ?_, .idle hi⟩
  cases hw with
  | idle _ hw => exact hw
  | up => exact absurd hi (by decide)
  | missing hs | enter hs | file hs | stay _ hs | follow _ hs => exact absurd hi hs.not_idle

private theorem walks_up_iff :
    Walks t followLast links l ([Path.dot, Path.dot] :: rest) f ↔ Walks t followLast links l.dropLast rest f := by
  refine ⟨fun hw => ?_, .up⟩
  cases hw with
  | idle hi => exact absurd hi (by decide)
  | up hw => exact hw
  | missing hs | enter hs | file hs | stay _ hs | follow _ hs => exact absurd rfl hs.ne_up

private theorem walks_missing_iff (hs : IsPlain s) (hd : t.entryAt? l = some .directory)
    (hn : t.get? (l ++ [s]) = none) : Walks t followLast links l (s :: rest) f ↔
      s.length ≤ Name.longest ∧ rest.all List.isEmpty = true ∧ f = .absent l s !rest.isEmpty := by
  constructor
  · intro hw
    cases hw with
    | idle hi => exact absurd hi hs.not_idle
    | up => exact absurd rfl hs.ne_up
    | missing _ hle _ _ hall => exact ⟨hle, hall, rfl⟩
    | enter _ _ h | file _ _ h | stay _ _ _ h | follow _ _ _ h => simp [hn] at h
  · rintro ⟨hle, hall, rfl⟩
    exact .missing hs hle hd hn hall

private theorem walks_enter_iff (hs : IsPlain s) {cs : List (Name × Node)}
    (hn : t.get? (l ++ [s]) = some (.directory cs)) : Walks t followLast links l (s :: rest) f ↔
      s.length ≤ Name.longest ∧ Walks t followLast links (l ++ [s]) rest f := by
  refine ⟨fun hw => ?_, fun ⟨hle, hw⟩ => .enter hs hle hn hw⟩
  cases hw with
  | idle hi => exact absurd hi hs.not_idle
  | up => exact absurd rfl hs.ne_up
  | enter _ hle _ hw => exact ⟨hle, hw⟩
  | missing _ _ _ h | file _ _ h | stay _ _ _ h | follow _ _ _ h => simp [hn] at h

private theorem walks_file_iff (hs : IsPlain s) {c : Bytes} {x : Bool} (hn : t.get? (l ++ [s]) = some (.file c x)) :
    Walks t followLast links l (s :: rest) f ↔
      s.length ≤ Name.longest ∧ rest = [] ∧ f = .present (l ++ [s]) (.file c x) := by
  constructor
  · intro hw
    cases hw with
    | idle hi => exact absurd hi hs.not_idle
    | up => exact absurd rfl hs.ne_up
    | file _ hle h =>
      rw [hn, Option.some.injEq] at h
      exact ⟨hle, rfl, by rw [h]⟩
    | missing _ _ _ h | enter _ _ h | stay _ _ _ h | follow _ _ _ h => simp [hn] at h
  · rintro ⟨hle, rfl, rfl⟩
    exact .file hs hle hn

private theorem walks_stay_iff (hs : IsPlain s) {target : Path} (hn : t.get? (l ++ [s]) = some (.link target))
    (hf : followLast = false) : Walks t followLast links l [s] f ↔
      s.length ≤ Name.longest ∧ f = .present (l ++ [s]) (.link target) := by
  constructor
  · intro hw
    cases hw with
    | idle hi => exact absurd hi hs.not_idle
    | up => exact absurd rfl hs.ne_up
    | stay _ _ hle h =>
      rw [hn, Option.some.injEq] at h
      exact ⟨hle, by rw [h]⟩
    | follow hr => simp [hf] at hr
    | missing _ _ _ h | enter _ _ h | file _ _ h => simp [hn] at h
  · rintro ⟨hle, rfl⟩
    exact .stay hf hs hle hn

private theorem walks_follow_iff (hs : IsPlain s) {target : Path} (hn : t.get? (l ++ [s]) = some (.link target))
    (hr : rest ≠ [] ∨ followLast = true) : Walks t followLast links l (s :: rest) f ↔
      s.length ≤ Name.longest ∧
        ∃ n, links = n + 1 ∧ Walks t followLast n (linkBase l target) (target.segments ++ rest) f := by
  constructor
  · intro hw
    cases hw with
    | idle hi => exact absurd hi hs.not_idle
    | up => exact absurd rfl hs.ne_up
    | stay hf => simp [hf] at hr
    | follow _ _ hle h hw =>
      rw [hn, Option.some.injEq, Node.link.injEq] at h
      subst h
      exact ⟨hle, _, rfl, hw⟩
    | missing _ _ _ h | enter _ _ h | file _ _ h => simp [hn] at h
  · rintro ⟨hle, n, rfl, hw⟩
    exact .follow hr hs hle hn hw

/-! ### The rules describe the function -/

private theorem walkWith_eq_ok_iff {onLink : List Name → Node → Path → List Bytes → Except Fault Found}
    (hlink : ∀ trail cs target rest f, t.get? trail.reverse = some (.directory cs) →
      (onLink trail (.directory cs) target rest = .ok f ↔
        ∃ n, links = n + 1 ∧ Walks t followLast n (linkBase trail.reverse target) (target.segments ++ rest) f))
    (segments : List Bytes) {trail : List Name} {cs : List (Name × Node)}
    (h : t.get? trail.reverse = some (.directory cs)) :
    walkWith t.root followLast onLink trail (.directory cs) segments = .ok f ↔
      Walks t followLast links trail.reverse segments f := by
  induction segments generalizing trail cs with
  | nil => simp [walkWith, walks_nil_iff, h, eq_comm]
  | cons s rest ih =>
    have hd : t.entryAt? trail.reverse = some .directory := Tree.entryAt?_eq_directory_iff.2 ⟨cs, h⟩
    unfold walkWith
    by_cases hi : Path.isIdle s = true
    · rw [if_pos hi, ih h, walks_idle_iff hi]
    rw [if_neg hi]
    by_cases hu : s = [Path.dot, Path.dot]
    · obtain ⟨ds, hm⟩ := Tree.entryAt?_eq_directory_iff.1 (directory_dropLast hd)
      rw [List.dropLast_reverse] at hm
      have hroot : t.root.get? trail.tail.reverse = some (.directory ds) := hm
      rw [if_pos hu, hroot, Option.getD_some, ih hm, hu, walks_up_iff, List.dropLast_reverse]
    rw [if_neg hu]
    have hs : IsPlain s := ⟨by simpa using hi, hu⟩
    have hsnoc : t.get? (trail.reverse ++ [s]) = cs.lookup s := by
      rw [Tree.get?_concat, h, Option.bind_some, Node.children]
    have hrev : (s :: trail).reverse = trail.reverse ++ [s] := by simp
    have hchildren : (Node.directory cs).children = cs := rfl
    by_cases hle : s.length ≤ Name.longest
    · rw [if_neg (by omega), hchildren]
      -- what the directory holds under the name decides which rule applies
      cases hn : cs.lookup s with
      | none =>
        rw [walks_missing_iff hs hd (by rw [hsnoc, hn])]
        by_cases hall : rest.all List.isEmpty = true
        · simp [hle, hall, eq_comm]
        · simp [hall]
      | some m =>
        rw [hn] at hsnoc
        cases m with
        | directory ds =>
          have hin : t.get? (s :: trail).reverse = some (.directory ds) := by rw [hrev, hsnoc]
          rw [walks_enter_iff hs hsnoc, ← hrev]
          simp [hle, ih hin]
        | file c x =>
          rw [walks_file_iff hs hsnoc]
          cases rest <;> simp [hle, eq_comm]
        | link target =>
          by_cases hf : (rest.isEmpty && !followLast) = true
          · have hf' : rest = [] ∧ followLast = false := by simpa using hf
            obtain ⟨rfl, hf'⟩ := hf'
            rw [walks_stay_iff hs hsnoc hf']
            simp [hle, hf', eq_comm]
          · have hr : rest ≠ [] ∨ followLast = true := by
              by_cases he : rest = []
              · right; simpa [he] using hf
              · exact Or.inl he
            rw [walks_follow_iff hs hsnoc hr]
            simp only [hf]
            rw [← hlink _ cs _ _ _ h]
            simp [hle]
    · rw [if_pos (by omega)]
      constructor
      · intro hw; simp at hw
      · intro hw
        cases hw with
        | idle hi' => exact absurd hi' hi
        | up => exact absurd rfl hu
        | missing _ h' | enter _ h' | file _ h' | stay _ _ h' | follow _ _ h' => exact absurd h' hle

/-- The rules describe all successful walks. -/
theorem walk_eq_ok_iff {trail : List Name} {cs : List (Name × Node)} {segments : List Bytes}
    (h : t.get? trail.reverse = some (.directory cs)) :
    walk t.root followLast links trail (.directory cs) segments = .ok f ↔
      Walks t followLast links trail.reverse segments f := by
  induction links generalizing trail cs segments f with
  | zero => exact walkWith_eq_ok_iff (by simp) segments h
  | succ n ih =>
    refine walkWith_eq_ok_iff (fun trail cs target rest f hn => ?_) segments h
    obtain ⟨ds, hds⟩ := Tree.entryAt?_eq_directory_iff.1 t.entryAt?_root
    have hroot : t.root = .directory ds := by simpa [Tree.get?, Node.get?] using hds
    simp only [Nat.add_right_cancel_iff, exists_eq_left', linkBase]
    split
    · have hw : walk t.root followLast n ([] : List Name) (.directory ds) (target.segments ++ rest) = .ok f ↔ _ :=
        ih hds
      rw [hroot] at hw ⊢
      exact hw
    · exact ih hn

theorem walkFrom_eq_ok_iff {segments : List Bytes} : walkFrom t cwd p segments followLast = .ok f ↔
    t.entryAt? (start cwd p) = some .directory ∧ Walks t followLast maxLinks (start cwd p) segments f := by
  unfold walkFrom
  rw [Tree.entryAt?_eq_directory_iff]
  rcases hn : t.get? (start cwd p) with _ | cs | _ | _
  · simp
  · have hrev : t.get? (start cwd p).reverse.reverse = some (.directory cs) := by rw [List.reverse_reverse, hn]
    simpa using walk_eq_ok_iff hrev
  · simp
  · simp

/-! ### What a walk ends at -/

/-- What a walk ends at is there. -/
theorem Walks.get?_eq {n : Node} (h : Walks t followLast links l xs f) (hf : f = .present r n) :
    t.get? r = some n := by
  induction h with
  | here hn => cases hf; exact hn
  | idle _ _ ih => exact ih hf
  | up _ ih => exact ih hf
  | missing => simp at hf
  | enter _ _ _ _ ih => exact ih hf
  | file _ _ hn => cases hf; exact hn
  | stay _ _ _ hn => cases hf; exact hn
  | follow _ _ _ _ _ ih => exact ih hf

/-- A free name is free, in a directory, and not too long. -/
theorem Walks.free {slashed : Bool} (h : Walks t followLast links l xs f) (hf : f = .absent r name slashed) :
    t.entryAt? r = some .directory ∧ t.entryAt? (r ++ [name]) = none ∧ IsPlain name ∧
      name.length ≤ Name.longest := by
  induction h with
  | here => simp at hf
  | idle _ _ ih => exact ih hf
  | up _ ih => exact ih hf
  | missing hs hle hd hn =>
    cases hf
    exact ⟨hd, Tree.entryAt?_eq_none_iff.2 hn, hs, hle⟩
  | enter _ _ _ _ ih => exact ih hf
  | file => simp at hf
  | stay => simp at hf
  | follow _ _ _ _ _ ih => exact ih hf

/-- What a walk finds in a tree it finds in the trees that extend it. -/
theorem Walks.extends {n : Node} (ht : t.Extends t') (h : Walks t followLast links l xs f)
    (hf : f = .present r n) : ∃ n', Walks t' followLast links l xs (.present r n') := by
  induction h with
  | here hn =>
    cases hf
    obtain ⟨e', he', -⟩ := ht r _ (Tree.entryAt?_eq_some_iff.2 ⟨n, hn, rfl⟩)
    obtain ⟨n', hn', -⟩ := Tree.entryAt?_eq_some_iff.1 he'
    exact ⟨n', .here hn'⟩
  | idle hi _ ih =>
    obtain ⟨n', hw⟩ := ih hf
    exact ⟨n', .idle hi hw⟩
  | up _ ih =>
    obtain ⟨n', hw⟩ := ih hf
    exact ⟨n', .up hw⟩
  | missing => simp at hf
  | enter hs hle hn _ ih =>
    obtain ⟨n', hw⟩ := ih hf
    obtain ⟨cs', hn'⟩ := Tree.entryAt?_eq_directory_iff.1 (ht.directory (Tree.entryAt?_eq_directory_iff.2 ⟨_, hn⟩))
    exact ⟨n', .enter hs hle hn' hw⟩
  | file hs hle hn =>
    cases hf
    obtain ⟨c', x', hn'⟩ := ht.file (Tree.entryAt?_eq_file_iff.2 hn)
    exact ⟨_, .file hs hle (Tree.entryAt?_eq_file_iff.1 hn')⟩
  | stay hfl hs hle hn =>
    cases hf
    exact ⟨_, .stay hfl hs hle (Tree.entryAt?_eq_link_iff.1 (ht.link (Tree.entryAt?_eq_link_iff.2 hn)))⟩
  | follow hr hs hle hn _ ih =>
    obtain ⟨n', hw⟩ := ih hf
    exact ⟨n', .follow hr hs hle (Tree.entryAt?_eq_link_iff.1 (ht.link (Tree.entryAt?_eq_link_iff.2 hn))) hw⟩

private theorem Walks.split_nil (hl : t.entryAt? l = some .directory) (h : Walks t followLast links l xs f)
    (hx : xs = [] ++ rest) :
    ∃ d m links', Walks t true links l [] (.present d m) ∧ Walks t followLast links' d rest f := by
  obtain ⟨cs, hcs⟩ := Tree.entryAt?_eq_directory_iff.1 hl
  rw [hx] at h
  exact ⟨l, .directory cs, links, .here hcs, h⟩

private theorem linkBase_directory (hl : t.entryAt? l = some .directory) (target : Path) :
    t.entryAt? (linkBase l target) = some .directory := by
  unfold linkBase
  split
  · exact t.entryAt?_root
  · exact hl

/-- A walk to something goes through something at each cut. -/
theorem Walks.split {n : Node} (hl : t.entryAt? l = some .directory) (h : Walks t followLast links l xs f)
    (hf : f = .present r n) (hx : xs = ys ++ rest) (hr : rest ≠ []) :
    ∃ d m links', Walks t true links l ys (.present d m) ∧ Walks t followLast links' d rest f := by
  induction h generalizing ys with
  | here hn =>
    obtain ⟨rfl, rfl⟩ := List.nil_eq_append_iff.1 hx
    exact absurd rfl hr
  | idle hi hw ih =>
    rcases ys with _ | ⟨y, ys⟩
    · exact split_nil hl (.idle hi hw) hx
    · obtain ⟨rfl, hx'⟩ := List.cons.inj hx
      obtain ⟨d, m, links', h₁, h₂⟩ := ih hl hf hx'
      exact ⟨d, m, links', .idle hi h₁, h₂⟩
  | up hw ih =>
    rcases ys with _ | ⟨y, ys⟩
    · exact split_nil hl (.up hw) hx
    · obtain ⟨rfl, hx'⟩ := List.cons.inj hx
      obtain ⟨d, m, links', h₁, h₂⟩ := ih (directory_dropLast hl) hf hx'
      exact ⟨d, m, links', .up h₁, h₂⟩
  | missing => simp at hf
  | enter hs hle hn hw ih =>
    rcases ys with _ | ⟨y, ys⟩
    · exact split_nil hl (.enter hs hle hn hw) hx
    · obtain ⟨rfl, hx'⟩ := List.cons.inj hx
      obtain ⟨d, m, links', h₁, h₂⟩ := ih (Tree.entryAt?_eq_directory_iff.2 ⟨_, hn⟩) hf hx'
      exact ⟨d, m, links', .enter hs hle hn h₁, h₂⟩
  | file hs hle hn =>
    rcases ys with _ | ⟨y, ys⟩
    · exact split_nil hl (.file hs hle hn) hx
    · simp [hr] at hx
  | stay hfl hs hle hn =>
    rcases ys with _ | ⟨y, ys⟩
    · exact split_nil hl (.stay hfl hs hle hn) hx
    · simp [hr] at hx
  | follow hor hs hle hn hw ih =>
    rcases ys with _ | ⟨y, ys⟩
    · exact split_nil hl (.follow hor hs hle hn hw) hx
    · obtain ⟨rfl, rfl⟩ := List.cons.inj hx
      obtain ⟨d, m, links', h₁, h₂⟩ := ih (linkBase_directory hl _) hf (List.append_assoc ..).symm
      -- the target and what is left before the cut are one way, on which the last link is followed
      exact ⟨d, m, links', .follow (Or.inr rfl) hs hle hn h₁, h₂⟩

/-! ### What a path names -/

theorem find_eq_ok_iff : find t cwd p followLast = .ok f ↔ checkPath p = .ok () ∧
    t.entryAt? (start cwd p) = some .directory ∧ Walks t followLast maxLinks (start cwd p) p.segments f := by
  rw [← walkFrom_eq_ok_iff, find]
  cases checkPath p <;> simp [bind, Except.bind]

theorem findPlace_eq_ok_iff : findPlace t cwd p = .ok f ↔ checkPath p = .ok () ∧
    t.entryAt? (start cwd p) = some .directory ∧
      Walks t false maxLinks (start cwd p) (trimmedSegments p) f := by
  rw [← walkFrom_eq_ok_iff, findPlace]
  cases checkPath p <;> simp [bind, Except.bind]

theorem stat_eq_ok_iff {n : Node} : stat t cwd p followLast = .ok (l, n) ↔
    find t cwd p followLast = .ok (.present l n) := by
  unfold stat
  rcases find t cwd p followLast with _ | f
  · simp [bind, Except.bind]
  · cases f <;> simp [bind, Except.bind]

theorem stat_get? {n : Node} (h : stat t cwd p followLast = .ok (l, n)) : t.get? l = some n :=
  (find_eq_ok_iff.1 (stat_eq_ok_iff.1 h)).2.2.get?_eq rfl

/-- What is found can be told by its location and its entry. -/
theorem stat_of_entry {e : Entry}
    (h : (stat t cwd p followLast).toOption.map (fun f => (f.1, f.2.entry)) = some (l, e)) :
    ∃ n, stat t cwd p followLast = .ok (l, n) ∧ n.entry = e := by
  rcases hstat : stat t cwd p followLast with _ | ⟨k, n⟩
  · simp [hstat, Except.toOption] at h
  · simp only [hstat, Except.toOption, Option.map_some, Option.some.injEq, Prod.mk.injEq] at h
    obtain ⟨rfl, rfl⟩ := h
    exact ⟨n, rfl, rfl⟩

theorem stat_directory_of_entry
    (h : (stat t cwd p followLast).toOption.map (fun f => (f.1, f.2.entry)) = some (l, .directory)) :
    ∃ cs, stat t cwd p followLast = .ok (l, .directory cs) := by
  obtain ⟨n, hn, he⟩ := stat_of_entry h
  obtain ⟨cs, rfl⟩ := Node.entry_eq_directory he
  exact ⟨cs, hn⟩

/-- What a path names in a tree it names in the trees that extend it. -/
theorem stat_extends {n : Node} (ht : t.Extends t') (h : stat t cwd p followLast = .ok (l, n)) :
    ∃ n', stat t' cwd p followLast = .ok (l, n') := by
  obtain ⟨hc, hd, hw⟩ := find_eq_ok_iff.1 (stat_eq_ok_iff.1 h)
  obtain ⟨n', hw'⟩ := hw.extends ht rfl
  exact ⟨n', stat_eq_ok_iff.2 (find_eq_ok_iff.2 ⟨hc, ht.directory hd, hw'⟩)⟩

theorem isDirectory_iff : isDirectory t cwd p = true ↔ ∃ l cs, stat t cwd p true = .ok (l, .directory cs) := by
  unfold isDirectory
  rcases stat t cwd p true with _ | ⟨l, n⟩
  · simp
  · cases n <;> simp [Node.isDirectory]

end GradleBuild.Files
