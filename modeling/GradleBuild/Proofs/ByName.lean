import GradleBuild.Proofs.Removal

/-!
# Places that paths name

A path leads to a place `ByName` if, from some directory on that is there, it names all directories down to the place,
without a link and without going up again.  Such a path can lead to a place where nothing is yet, past directories that
are not there yet, and still leads there once they are.

* `ByName.leadsTo`, `ByName.stat_eq`: this is where the path leads, and where something is found.
* `ByName.way`: only the directories above the place can be missing on the way.
* `ByName.mono`: what is added to a tree does not change the place, unless links are added above it.
-/

namespace GradleBuild

variable {t t' : Tree} {l k : Location}

/-! ### Trees that agree -/

theorem Tree.Agrees.trans {t'' : Tree} (h : t.Agrees t') (h' : t'.Agrees t'') : t.Agrees t'' :=
  fun l => (h l).trans (h' l)

theorem Tree.agrees_erase_root (t : Tree) : (t.erase []).Agrees t := by
  have hroot : (t.erase []).root = t.root := by simp [erase, Node.erase]
  intro k
  simp [entryAt?, get?, hroot]

theorem Tree.Agrees.erase (h : t.Agrees t') (l : Location) : (t.erase l).Agrees (t'.erase l) := by
  rcases eq_or_ne l [] with rfl | hl
  · exact (t.agrees_erase_root.trans h).trans t'.agrees_erase_root.symm
  · intro k
    by_cases hk : l <+: k
    · rw [Tree.entryAt?_erase_below hl hk, Tree.entryAt?_erase_below hl hk]
    · rw [Tree.entryAt?_erase hk, Tree.entryAt?_erase hk, h k]

/-- Where nothing is, nothing is erased. -/
theorem Tree.agrees_erase (h : t.entryAt? l = none) : t.Agrees (t.erase l) := by
  have hl : l ≠ [] := by
    rintro rfl
    simp [Tree.entryAt?_root] at h
  intro k
  by_cases hk : l <+: k
  · obtain ⟨r, rfl⟩ := hk
    rw [Tree.entryAt?_append_eq_none h, Tree.entryAt?_erase_below hl (List.prefix_append l r)]
  · rw [Tree.entryAt?_erase hk]

namespace Files

variable {cwd d r : Location} {p : Path} {xs ys : List Bytes} {followLast : Bool} {links : Nat} {f g : Found}
  {n : Node}

/-! ### Rows of names -/

/-- The segments that stand for something. -/
def plain (xs : List Bytes) : List Bytes := xs.filter fun s => !Path.isIdle s

theorem plain_cons_idle {s : Bytes} (hs : Path.isIdle s = true) (xs : List Bytes) : plain (s :: xs) = plain xs := by
  simp [plain, hs]

theorem plain_cons {s : Bytes} (hs : IsPlain s) (xs : List Bytes) : plain (s :: xs) = s :: plain xs := by
  simp [plain, hs.1]

theorem plain_of_prefix (h : xs <+: ys) : plain xs <+: plain ys := h.filter _

/-- Where no segment goes up, it is idle or stands for a name. -/
private theorem idle_or_plain {s : Bytes} (hup : [Path.dot, Path.dot] ∉ s :: xs) :
    Path.isIdle s = true ∨ IsPlain s := by
  cases hi : Path.isIdle s with
  | true => exact Or.inl rfl
  | false => exact Or.inr ⟨hi, fun he => hup (by simp [he])⟩

/-- No link is at the end of a location, nor between it and the directory `d`. -/
def Unlinked (t : Tree) (d l : Location) : Prop := ∀ k, d <+: k → k <+: l → ∀ q, t.entryAt? k ≠ some (.link q)

private theorem Unlinked.tail {s : Bytes} (h : Unlinked t d (d ++ s :: xs)) : Unlinked t (d ++ [s]) (d ++ [s] ++ xs) :=
  fun k hk hl => h k ((List.prefix_append d [s]).trans hk) (by simpa using hl)

private theorem Unlinked.head {s : Bytes} (h : Unlinked t d (d ++ s :: xs)) (q : Path) :
    t.entryAt? (d ++ [s]) ≠ some (.link q) :=
  h _ (List.prefix_append d [s]) (List.append_cons d s xs ▸ List.prefix_append _ _) q

theorem Unlinked.agrees (h : Unlinked t d l) (ht : ∀ k, k <+: l → ∀ q, t'.entryAt? k = some (.link q) →
    t.entryAt? k = some (.link q)) : Unlinked t' d l :=
  fun k hk hl q hq => h k hk hl q (ht k hl q hq)

theorem leads_plain (hup : [Path.dot, Path.dot] ∉ ys) (h : Unlinked t d (d ++ plain ys)) :
    Leads t d ys (d ++ plain ys) := by
  induction ys generalizing d with
  | nil => simpa [plain] using Leads.here
  | cons s ys ih =>
    -- an idle segment stays where it is, any other one enters the name it stands for
    rcases idle_or_plain hup with hs | hs
    · rw [plain_cons_idle hs] at h ⊢
      exact .idle hs (ih (fun he => hup (List.mem_cons_of_mem _ he)) h)
    · rw [plain_cons hs] at h ⊢
      have hrest := ih (fun he => hup (List.mem_cons_of_mem _ he)) h.tail
      rw [List.append_assoc] at hrest
      exact .enter hs h.head hrest

/-- A walk along names ends where they say. -/
private theorem Walks.eq_plain (hup : [Path.dot, Path.dot] ∉ ys) (h : Unlinked t d (d ++ plain ys))
    (hw : Walks t followLast links d ys (.present r n)) : r = d ++ plain ys := by
  induction ys generalizing d with
  | nil =>
    cases hw with
    | here => simp [plain]
  | cons s ys ih =>
    have hup' : [Path.dot, Path.dot] ∉ ys := fun he => hup (List.mem_cons_of_mem _ he)
    rcases idle_or_plain hup with hs | hs
    · rw [plain_cons_idle hs] at h ⊢
      cases hw with
      | idle _ hw => exact ih hup' h hw
      | up => simp at hup
      | enter hs' | file hs' | stay _ hs' | follow _ hs' => exact absurd hs hs'.not_idle
    · rw [plain_cons hs] at h ⊢
      cases hw with
      | idle hi => exact absurd hi hs.not_idle
      | up => simp at hup
      | enter _ _ _ hw => rw [List.append_cons]; exact ih hup' h.tail hw
      | file => simp [plain]
      | stay _ _ _ hl | follow _ _ _ hl => exact absurd (Tree.entryAt?_eq_link_iff.2 hl) (h.head _)

/-- Names that lead to a directory can be walked along. -/
theorem walks_plain (hup : [Path.dot, Path.dot] ∉ ys) (hn : t.get? (d ++ plain ys) = some n)
    (hd : t.entryAt? (d ++ plain ys) = some .directory) :
    Walks t followLast links d ys (.present (d ++ plain ys) n) := by
  induction ys generalizing d with
  | nil => simpa [plain] using Walks.here (by simpa [plain] using hn)
  | cons s ys ih =>
    have hup' : [Path.dot, Path.dot] ∉ ys := fun he => hup (List.mem_cons_of_mem _ he)
    rcases idle_or_plain hup with hs | hs
    · rw [plain_cons_idle hs] at hn hd ⊢
      exact .idle hs (ih hup' hn hd)
    · rw [plain_cons hs, List.append_cons] at hn hd ⊢
      -- something is below the first name, or the name is the last one
      have hin : t.entryAt? (d ++ [s]) = some .directory := by
        rcases eq_or_ne (plain ys) [] with he | he
        · rwa [he, List.append_nil] at hd
        · exact Tree.entryAt?_of_append he hd
      obtain ⟨cs, hcs⟩ := Tree.entryAt?_eq_directory_iff.1 hin
      have hv : Name.IsValid s := Tree.isValid_of_entryAt? hin s (by simp)
      exact .enter hs hv.2.2.2.2.2 hcs (ih hup' hn hd)

/-- A walk to a directory can be gone on with, if that takes no links. -/
theorem Walks.append {cs : List (Name × Node)} (h : Walks t true links l xs f)
    (hf : f = .present d (.directory cs)) (hy : ys ≠ []) (hw : ∀ links, Walks t followLast links d ys g) :
    Walks t followLast links l (xs ++ ys) g := by
  induction h with
  | here =>
    cases hf
    exact hw _
  | idle hi _ ih => exact .idle hi (ih hf)
  | up _ ih => exact .up (ih hf)
  | missing => simp at hf
  | enter hs hle hn _ ih => exact .enter hs hle hn (ih hf)
  | file => simp at hf
  | stay hb => simp at hb
  | follow _ hs hle hn _ ih =>
    have := ih hf
    rw [List.append_assoc] at this
    exact .follow (Or.inl (by simp [hy])) hs hle hn this

/-! ### Paths that lead by name -/

private theorem prefix_append_cases {zs : List Bytes} (h : zs <+: xs ++ ys) :
    (∃ rest, xs = zs ++ rest ∧ rest ≠ []) ∨ ∃ ys', ys' <+: ys ∧ zs = xs ++ ys' := by
  rcases List.prefix_or_prefix_of_prefix h (List.prefix_append xs ys) with ⟨rest, hr⟩ | ⟨ys', rfl⟩
  · by_cases hne : rest = []
    · exact Or.inr ⟨[], List.nil_prefix, by rw [← hr, hne]; simp⟩
    · exact Or.inl ⟨rest, hr.symm, hne⟩
  · exact Or.inr ⟨ys', (List.prefix_append_right_inj xs).1 h, rfl⟩

/-- From some directory on, which is there, the path leads to `l` by names. -/
def ByName (t : Tree) (cwd : Location) (p : Path) (l : Location) : Prop :=
  ∃ xs ys d cs, p.segments = xs ++ ys ∧ ys ≠ [] ∧ walkFrom t cwd p xs true = .ok (.present d (.directory cs)) ∧
    [Path.dot, Path.dot] ∉ ys ∧ l = d ++ plain ys ∧ Unlinked t d l

namespace ByName

theorem leadsTo (h : ByName t cwd p l) : LeadsTo t cwd p l := by
  obtain ⟨xs, ys, d, cs, hp, -, hw, hup, rfl, hn⟩ := h
  unfold LeadsTo
  rw [hp]
  exact ((walkFrom_eq_ok_iff.1 hw).2.leads rfl (Or.inl rfl)).append (leads_plain hup hn)

theorem start (h : ByName t cwd p l) : t.entryAt? (start cwd p) = some .directory := by
  obtain ⟨xs, ys, d, cs, -, -, hw, -⟩ := h
  exact (walkFrom_eq_ok_iff.1 hw).1

/-- Only the directories above the place can be missing on the way. -/
theorem way (h : ByName t cwd p l) (hk : OnWay t cwd p k) (hn : t.entryAt? k = none) : k <+: l := by
  obtain ⟨xs, ys, d, cs, hp, -, hw, hup, rfl, hlinks⟩ := h
  obtain ⟨zs, hzs, hk⟩ := hk
  obtain ⟨hstart, hw⟩ := walkFrom_eq_ok_iff.1 hw
  rw [hp] at hzs
  rcases prefix_append_cases hzs with ⟨rest, hxs, hne⟩ | ⟨ys', hy, rfl⟩
  · -- the walk to `d` has come by this place, so something is there
    exfalso
    obtain ⟨k', m, links, h₁, -⟩ := hw.split hstart rfl hxs hne
    obtain rfl := (h₁.leads rfl (Or.inl rfl)).unique hk
    rw [Tree.entryAt?_eq_none_iff, h₁.get?_eq rfl] at hn
    simp at hn
  · obtain ⟨m, hm, hk⟩ := hk.split rfl
    obtain rfl := (hw.leads rfl (Or.inl rfl)).unique hm
    have hpre : plain ys' <+: plain ys := plain_of_prefix hy
    have hk' : Leads t d ys' (d ++ plain ys') := leads_plain (fun he => hup (hy.subset he)) fun k' hd hk' =>
      hlinks k' hd (hk'.trans ((List.prefix_append_right_inj d).2 hpre))
    rw [hk.unique hk']
    exact (List.prefix_append_right_inj d).2 hpre

/-- What is found is at the place. -/
theorem stat_eq (h : ByName t cwd p l) (hs : stat t cwd p followLast = .ok (r, n)) : r = l := by
  obtain ⟨xs, ys, d, cs, hp, hy, hw, hup, rfl, hlinks⟩ := h
  obtain ⟨hstart, hw⟩ := walkFrom_eq_ok_iff.1 hw
  obtain ⟨-, -, hs⟩ := find_eq_ok_iff.1 (stat_eq_ok_iff.1 hs)
  -- the walk comes by the directory `d`, and goes on from there by names
  obtain ⟨d', m, links, h₁, h₂⟩ := hs.split hstart rfl hp hy
  obtain rfl := (h₁.leads rfl (Or.inl rfl)).unique (hw.leads rfl (Or.inl rfl))
  exact h₂.eq_plain hup hlinks

/-- A directory at the place is found. -/
theorem stat_directory (h : ByName t cwd p l) (hc : checkPath p = .ok ()) (hd : t.entryAt? l = some .directory) :
    ∃ n, stat t cwd p followLast = .ok (l, n) := by
  obtain ⟨xs, ys, d, cs, hp, hy, hw, hup, rfl, -⟩ := h
  obtain ⟨hstart, hw⟩ := walkFrom_eq_ok_iff.1 hw
  obtain ⟨ds, hds⟩ := Tree.entryAt?_eq_directory_iff.1 hd
  refine ⟨.directory ds, stat_eq_ok_iff.2 (find_eq_ok_iff.2 ⟨hc, hstart, ?_⟩)⟩
  rw [hp]
  exact hw.append rfl hy fun _ => walks_plain hup hds hd

/-- Nor does the path change its place in a tree that has all that this one has, and no other links above the place. -/
theorem mono (h : ByName t cwd p l) (ht : t.Extends t') (hl : ∀ k, k <+: l → ∀ q,
    t'.entryAt? k = some (.link q) → t.entryAt? k = some (.link q)) : ByName t' cwd p l := by
  obtain ⟨xs, ys, d, cs, hp, hy, hw, hup, rfl, hlinks⟩ := h
  obtain ⟨hstart, hw⟩ := walkFrom_eq_ok_iff.1 hw
  obtain ⟨n', hw'⟩ := hw.extends ht rfl
  obtain ⟨cs', hcs'⟩ := Tree.entryAt?_eq_directory_iff.1
    (ht.directory (Tree.entryAt?_eq_directory_iff.2 ⟨cs, hw.get?_eq rfl⟩))
  obtain rfl := Option.some.inj ((hw'.get?_eq rfl).symm.trans hcs')
  exact ⟨xs, ys, d, cs', hp, hy, walkFrom_eq_ok_iff.2 ⟨ht.directory hstart, hw'⟩, hup, rfl, hlinks.agrees hl⟩

theorem agrees (h : ByName t cwd p l) (ht : t.Agrees t') : ByName t' cwd p l :=
  h.mono ht.extends fun k _ _ hq => (ht k).trans hq

/-- The names on the way are free of slashes, and of NUL bytes if the path is. -/
theorem spelled (h : ByName t cwd p l) (hp : 0 ∉ p.bytes) : ∀ a ∈ l, Path.slash ∉ a ∧ 0 ∉ a := by
  obtain ⟨xs, ys, d, cs, hseg, -, hw, -, rfl, -⟩ := h
  intro a ha
  rcases List.mem_append.1 ha with ha | ha
  · have hd := Tree.entryAt?_eq_directory_iff.2 ⟨cs, (walkFrom_eq_ok_iff.1 hw).2.get?_eq rfl⟩
    have hv := Tree.isValid_of_entryAt? hd a ha
    exact ⟨hv.2.2.2.1, hv.2.2.2.2.1⟩
  · have hs : a ∈ p.segments := by
      rw [hseg]
      exact List.mem_append_right _ (List.mem_of_mem_filter ha)
    refine ⟨fun hc => by simpa using Path.slash_not_mem hs _ hc, fun hc => hp (Path.mem_of_mem_segments hs hc)⟩

end ByName

end Files

end GradleBuild
