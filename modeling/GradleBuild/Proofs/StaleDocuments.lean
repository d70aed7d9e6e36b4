import GradleBuild.Proofs.Confinement
import GradleBuild.Proofs.Delivery

/-!
# What becomes of old documents

A build of the documentation removes one directory, and copies into another: what it removes is the documentation
among the deliverables, and what it copies goes next to the libraries.  So a document that an earlier build has
delivered, and that this one does not have any more, is gone if its place is in the directory that is removed.  Else it
stays.

* `Ships`: a build of the documentation that has delivered from one place to another apart.
* `Collecting.cleared`: when collecting begins, nothing but directories is left where something was removed.
* `documentation_keeps_unless_cleared`: what becomes of a document between two builds.
* `documentation_stale`: old documents that stay.
-/

namespace GradleBuild.Task

open Files (LeadsTo IsLeaf Undisturbed Delivers)

/-- A build of the documentation comes to a good end.  On the machine `n` it begins to collect, from `a` into `b`: these
places lie apart, nothing below `b` is read through a link, and no link diverts what goes below `b`. -/
structure Ships (p : Project) (s : Surroundings) (m n m' : Machine) (a b : Location) : Prop where
  run : documentation.run p s m = (.ok (), m')
  collecting : documentation.Collecting p s m n
  source : LeadsTo n.tree s.cwd p.layout.docs a
  target : LeadsTo n.tree s.cwd p.layout.java b
  apart : ¬ a <+: b ∧ ¬ b <+: a
  unread : ∀ r k, IsLeaf n.tree a r → LeadsTo n.tree s.cwd (p.layout.docs.below r) k → ¬ b <+: k
  straight : ∀ r k, IsLeaf n.tree a r → LeadsTo n.tree s.cwd (p.layout.java.below r) k → k = b ++ r
  noNul : n.tree.NoNul

variable {p : Project} {s s₁ s₂ : Surroundings} {m m₀ m₁ m₂ m₃ m' n n₁ n₂ : Machine} {a a₁ a₂ b k l r : Location}
  {x : Node} {e : Entry}

namespace Ships

private theorem undisturbed (h : Ships p s m n m' a b) :
    Undisturbed n.tree s.cwd p.layout.docs p.layout.java a where
  outside r l hr hl hp := by
    rw [h.straight r l hr hl] at hp
    exact not_prefix_of_apart h.apart hp (List.prefix_append b r)
  unread r r' l hr hr' hl hs := h.unread r' l hr' hs (h.straight r l hr hl ▸ List.prefix_append b r)
  apart r r' l hr hr' hl hl' :=
    List.append_cancel_left ((h.straight r l hr hl).symm.trans (h.straight r' l hr' hl'))

/-- All documents have been copied. -/
private theorem delivers (hdry : p.dry = false) (h : Ships p s m n m' a b) :
    Delivers n.tree s.cwd p.layout.docs p.layout.java a (fun _ => True) n.tree m'.tree := by
  obtain ⟨n', m₁, hreach, hcollect, htree⟩ := of_run_ok (congrArg Prod.fst h.run)
  obtain rfl := hreach.unique h.collecting
  rw [h.run] at htree
  obtain ⟨-, -, ⟨-, -, hne⟩ | ⟨-, hcopied, hok⟩⟩ := Step.collect_step hdry hcollect
  · exact absurd rfl hne
  obtain ⟨stats, hstats⟩ := hok rfl
  rw [Run.logged_tree] at hcopied hstats
  exact Files.copyDirectory_delivers h.undisturbed h.noNul h.source (Prod.ext hstats (htree.trans hcopied).symm)

/-- Below the deliverables the copy changes the places of documents, and makes directories. -/
private theorem unchanged_or_directory (hdry : p.dry = false) (h : Ships p s m n m' a b)
    (hr : ¬ IsLeaf n.tree a r) :
    m'.tree.entryAt? (b ++ r) = n.tree.entryAt? (b ++ r) ∨ m'.tree.entryAt? (b ++ r) = some .directory := by
  by_contra hnot
  rw [not_or] at hnot
  rcases (h.delivers hdry).only (b ++ r) hnot.1 with hd | ⟨r', -, hleaf, hl⟩
  · exact hnot.2 hd
  · obtain rfl := List.append_cancel_left (h.straight r' _ hleaf hl)
    exact hr hleaf

/-- A document is delivered to its own place, as it reads in its source. -/
private theorem delivered (hdry : p.dry = false) (h : Ships p s m n m' a b) (hr : IsLeaf n.tree a r) :
    ∃ k c x, LeadsTo n.tree s.cwd (p.layout.docs.below r) k ∧ n.tree.entryAt? k = some (.file c x) ∧
      m'.tree.entryAt? (b ++ r) = some (.file c x) := by
  have hdelivers := h.delivers hdry
  obtain ⟨k, c, x, l, hk, hfile, hstat⟩ := hdelivers.delivered r trivial hr
  have hl : LeadsTo n.tree s.cwd (p.layout.java.below r) l :=
    (Files.stat_leadsTo hstat (Or.inl rfl)).sameLinks hdelivers.sameLinks.symm
  obtain rfl := h.straight r l hr hl
  exact ⟨k, c, x, hk, hfile, Tree.entryAt?_eq_file_iff.2 (Files.stat_get? hstat)⟩

end Ships

/-- When collecting begins, nothing but directories is left where the documentation was found among the deliverables,
unless a child has brought it. -/
theorem Collecting.cleared (hdry : p.dry = false) (h : documentation.Collecting p s m n)
    (hstat : Files.stat m.tree s.cwd p.layout.javaDocs false = .ok (l, x)) (hk : l <+: k)
    (hgradle : ¬ documentation.ByGradle p s m k) (he : n.tree.entryAt? k = some e) : e = .directory := by
  cases h with
  | @step _ m₁ _ _ hreach hstep hrun =>
    obtain rfl : Step.gradle .javadoc = _ := Option.some.inj hstep
    obtain ⟨-, ⟨-, -, hne⟩ | ⟨program, call, hprogram, hcall, htree, -⟩⟩ := Step.gradle_step hdry hrun
    · exact absurd rfl hne
    -- the child leaves the entry as the removal has left it
    have hsame : n.tree.entryAt? k = m₁.tree.entryAt? k := by
      by_contra hne
      rw [htree] at hne
      exact hgradle ⟨1, .javadoc, m₁, program, call, hreach, hstep, hprogram, hcall, hne⟩
    cases hreach with
    | step hreach hstep hrun =>
      obtain rfl : Step.remove p.layout.javaDocs = _ := Option.some.inj hstep
      cases hreach
      obtain ⟨htree, -, -, hok⟩ := Step.remove_step hdry hrun
      obtain ⟨found, hfound⟩ := hok rfl
      have hremoval := Files.remove_spec s.cwd p.layout.javaDocs m.tree
      rw [Run.logged_tree, Run.logged_tree] at htree hfound
      rw [hfound, ← htree] at hremoval
      exact hremoval.cleared hstat hk (hsame ▸ he)

/-- Between two builds of the documentation, the first of which has delivered a document that the second does not have
any more, and while nothing else writes to the deliverables: if its place is at or below what the directory of the
documentation among the deliverables names when the second build begins, then the document is gone in the end; else it
stays as the first build has delivered it. -/
theorem documentation_keeps_unless_cleared (hdry : p.dry = false) (h₁ : Ships p s₁ m₀ n₁ m₁ a₁ b)
    (h₂ : Ships p s₂ m₂ n₂ m₃ a₂ b) (hbetween : ∀ k, b <+: k → m₂.tree.entryAt? k = m₁.tree.entryAt? k)
    (hgradle : ∀ k, b <+: k → ¬ documentation.ByGradle p s₂ m₂ k) (hr : IsLeaf n₁.tree a₁ r)
    (hold : ¬ IsLeaf n₂.tree a₂ r) :
    (documentation.AtOutput p s₂ m₂ (b ++ r) → ¬ IsLeaf m₃.tree b r) ∧
      (¬ documentation.AtOutput p s₂ m₂ (b ++ r) → ∃ k c x, LeadsTo n₁.tree s₁.cwd (p.layout.docs.below r) k ∧
        n₁.tree.entryAt? k = some (.file c x) ∧ m₃.tree.entryAt? (b ++ r) = some (.file c x)) := by
  have hbelow : b <+: b ++ r := List.prefix_append b r
  have hcopy := h₂.unchanged_or_directory hdry hold
  constructor
  · rintro ⟨q, hq, l, x, hstat, hl⟩ ⟨e, he, hne⟩
    obtain rfl : q = p.layout.javaDocs := List.mem_singleton.1 hq
    rcases hcopy with hsame | hdirectory
    · rw [hsame] at he
      exact hne (h₂.collecting.cleared hdry hstat hl (hgradle _ hbelow) he)
    · exact hne (Option.some.inj (he.symm.trans hdirectory))
  · intro hkept
    obtain ⟨k, c, x, hk, hfile, hdelivered⟩ := h₁.delivered hdry hr
    refine ⟨k, c, x, hk, hfile, ?_⟩
    -- up to the second copy the document stays where the first build has put it
    have hthere : n₂.tree.entryAt? (b ++ r) = some (.file c x) := by
      rw [← hdelivered, ← hbetween _ hbelow]
      by_contra hne
      rcases h₂.collecting.atOutput_or_byGradle hdry hne with h | h
      · exact hkept h
      · exact hgradle _ hbelow h
    rcases hcopy with hsame | hdirectory
    · exact hsame.trans hthere
    · obtain ⟨c', x', hfile'⟩ := (h₂.delivers hdry).kept.file hthere
      simp [hdirectory] at hfile'

/-! ### Old documents that are found again -/

/-- Where neither the tree nor a child brings links, the names alone say whether a build has delivered to a place
apart. -/
theorem exists_ships_of_noLinks (hdry : p.dry = false)
    (hchild : ∀ calls call tree, tree.NoLinks → (s.child calls call tree).tree.NoLinks) (hm : m.tree.NoLinks)
    (ha : Files.lexical (Files.start s.cwd p.layout.docs) p.layout.docs.segments = a)
    (hb : Files.lexical (Files.start s.cwd p.layout.java) p.layout.java.segments = b)
    (hapart : ¬ a <+: b ∧ ¬ b <+: a) (hrun : (documentation.run p s m).1 = .ok ()) :
    ∃ n, n.tree.NoLinks ∧ Ships p s m n (documentation.run p s m).2 a b := by
  obtain ⟨n, -, hreach, -, -⟩ := of_run_ok hrun
  have hn : n.tree.NoLinks := hreach.noLinks hdry hchild hm (Nat.le_refl _)
  have hsource : LeadsTo n.tree s.cwd p.layout.docs a := ha ▸ Files.leads_lexical hn _ _
  have htarget : LeadsTo n.tree s.cwd p.layout.java b := hb ▸ Files.leads_lexical hn _ _
  have hgoes : ∀ {q : Path} {c r k : Location}, LeadsTo n.tree s.cwd q c → IsLeaf n.tree a r →
      LeadsTo n.tree s.cwd (q.below r) k → k = c ++ r := by
    intro q c r k hq hr hk
    obtain ⟨e, he, -⟩ := hr
    have hvalid : ∀ name ∈ r, name.IsValid := fun name hname =>
      Tree.isValid_of_entryAt? he name (List.mem_append_right a hname)
    exact hk.unique (Files.leadsTo_below hq hvalid fun _ target _ _ => hn _ target)
  have hunread : ∀ r k, IsLeaf n.tree a r → LeadsTo n.tree s.cwd (p.layout.docs.below r) k → ¬ b <+: k := by
    intro r k hr hk hp
    rw [hgoes hsource hr hk] at hp
    exact not_prefix_of_apart hapart (List.prefix_append a r) hp
  have hships : Ships p s m n (documentation.run p s m).2 a b :=
    { run := Prod.ext hrun rfl
      collecting := hreach
      source := hsource
      target := htarget
      apart := hapart
      unread := hunread
      straight := fun r k hr hk => hgoes htarget hr hk
      noNul := hn.noNul }
  exact ⟨n, hn, hships⟩

/-- A machine whose children do nothing. -/
def still : Surroundings := ⟨[], [], fun _ _ tree => { tree }⟩

private theorem not_byGradle_still : ¬ documentation.ByGradle p still m k := by
  rintro ⟨_, _, _, _, _, -, -, -, -, hne⟩
  exact hne rfl

private theorem atOutput_of_found
    (hfound : (Files.stat m.tree s.cwd p.layout.javaDocs false).toOption.map Prod.fst = some l) (hk : l <+: k) :
    documentation.AtOutput p s m k := by
  rcases hstat : Files.stat m.tree s.cwd p.layout.javaDocs false with e | ⟨l', x⟩
  · simp [hstat, Except.toOption] at hfound
  · obtain rfl : l' = l := by simpa [hstat, Except.toOption] using hfound
    exact ⟨_, List.mem_singleton_self _, l', x, hstat, hk⟩

/-- A project with two documents. -/
def drafted : Tree := .ofEntries [([encode "p"], .directory),
  ([encode "p", encode "gradlew"], .file (encode "#!") true), ([encode "p", encode "build"], .directory),
  ([encode "p", encode "build", encode "docs"], .directory),
  ([encode "p", encode "build", encode "docs", encode "docs"], .directory),
  ([encode "p", encode "build", encode "docs", encode "docs", encode "old.html"], .file [1] false),
  ([encode "p", encode "build", encode "docs", encode "javadoc"], .directory),
  ([encode "p", encode "build", encode "docs", encode "javadoc", encode "old.html"], .file [2] false)]

/-- Where the documents are. -/
def docsPlace : Location := [encode "p", encode "build", encode "docs"]

/-- Where the deliverables go. -/
def javaPlace : Location := [encode "p", encode ".out", encode "deliverables", encode "java"]

/-- What a first build of the documentation leaves. -/
def delivered : Machine := (documentation.run (.plain (.ofText "/p")) still { tree := drafted }).2

/-- Then the documents are withdrawn. -/
def withdrawn : Machine :=
  let tree := delivered.tree.erase (docsPlace ++ [encode "docs"])
  { delivered with tree := tree.erase (docsPlace ++ [encode "javadoc"]) }

/-- What a second build leaves. -/
def delivered₂ : Machine := (documentation.run (.plain (.ofText "/p")) still withdrawn).2

private theorem ships_delivered : ∃ n, n.tree.NoLinks ∧
    Ships (.plain (.ofText "/p")) still { tree := drafted } n delivered docsPlace javaPlace :=
  exists_ships_of_noLinks rfl (fun _ _ _ h => h) (Tree.noLinks_ofEntries (by simp)) (by decide) (by decide)
    (by decide) (by decide +kernel)

private theorem noLinks_withdrawn : withdrawn.tree.NoLinks := by
  obtain ⟨n, hn, h⟩ := ships_delivered
  have hlinks : delivered.tree.NoLinks := fun k target hk => hn k target (((h.delivers rfl).sameLinks k target).2 hk)
  exact (hlinks.of_extends (Tree.erase_extends _ _)).of_extends (Tree.erase_extends _ _)

private theorem ships_delivered₂ : ∃ n, n.tree.NoLinks ∧
    Ships (.plain (.ofText "/p")) still withdrawn n delivered₂ docsPlace javaPlace :=
  exists_ships_of_noLinks rfl (fun _ _ _ h => h) noLinks_withdrawn (by decide) (by decide) (by decide)
    (by decide +kernel)

/-- Before it collects, a build on this machine removes nothing from the documents, and nothing is written there. -/
private theorem Ships.kept_docs (hm : m.tree.NoLinks)
    (h : Ships (.plain (.ofText "/p")) still m n m' docsPlace javaPlace) (hk : docsPlace <+: k) :
    n.tree.entryAt? k = m.tree.entryAt? k := by
  by_contra hne
  rcases h.collecting.atOutput_or_byGradle rfl hne with ⟨q, hq, l, x, hstat, hl⟩ | hgradle
  · obtain rfl : q = _ := List.mem_singleton.1 hq
    have hx (target : Path) : x ≠ .link target := by
      rintro rfl
      exact hm l target (Tree.entryAt?_eq_link_iff.2 (Files.stat_get? hstat))
    -- the removed directory is apart from the documents
    have hplace : l = javaPlace ++ [encode "docs"] := (Files.stat_leadsTo hstat (Or.inr hx)).eq_lexical hm
    rw [hplace] at hl
    exact not_prefix_of_apart (by decide) hk hl
  · exact not_byGradle_still hgradle

private theorem kept_between (hk : javaPlace <+: k) : withdrawn.tree.entryAt? k = delivered.tree.entryAt? k := by
  have hnot (name : Name) : ¬ docsPlace ++ [name] <+: k := by
    intro hp
    exact not_prefix_of_apart (by decide) hk ((List.prefix_append docsPlace [name]).trans hp)
  exact (Tree.entryAt?_erase (hnot _)).trans (Tree.entryAt?_erase (hnot _))

theorem documentation_keeps_unless_cleared_drafted : ∃ n₁ n₂,
    Ships (.plain (.ofText "/p")) still { tree := drafted } n₁ delivered docsPlace javaPlace ∧
    Ships (.plain (.ofText "/p")) still withdrawn n₂ delivered₂ docsPlace javaPlace ∧
    (∀ k, javaPlace <+: k → withdrawn.tree.entryAt? k = delivered.tree.entryAt? k) ∧
    (∀ k, javaPlace <+: k → ¬ documentation.ByGradle (.plain (.ofText "/p")) still withdrawn k) ∧
    IsLeaf n₁.tree docsPlace [encode "docs", encode "old.html"] ∧
    ¬ IsLeaf n₂.tree docsPlace [encode "docs", encode "old.html"] ∧
    documentation.AtOutput (.plain (.ofText "/p")) still withdrawn
      (javaPlace ++ [encode "docs", encode "old.html"]) ∧
    ¬ IsLeaf delivered₂.tree javaPlace [encode "docs", encode "old.html"] := by
  obtain ⟨n₁, -, h₁⟩ := ships_delivered
  obtain ⟨n₂, -, h₂⟩ := ships_delivered₂
  have hr : IsLeaf n₁.tree docsPlace [encode "docs", encode "old.html"] :=
    ⟨.file [1] false, (h₁.kept_docs (Tree.noLinks_ofEntries (by simp)) (List.prefix_append _ _)).trans
      (by decide +kernel), by simp⟩
  have hold : ¬ IsLeaf n₂.tree docsPlace [encode "docs", encode "old.html"] := by
    rintro ⟨e, he, -⟩
    rw [h₂.kept_docs noLinks_withdrawn (List.prefix_append _ _)] at he
    have hnone : withdrawn.tree.entryAt? (docsPlace ++ [encode "docs", encode "old.html"]) = none := by decide +kernel
    simp [hnone] at he
  have houtput : documentation.AtOutput (.plain (.ofText "/p")) still withdrawn
      (javaPlace ++ [encode "docs", encode "old.html"]) :=
    atOutput_of_found (l := javaPlace ++ [encode "docs"]) (by decide +kernel) (by decide)
  exact ⟨n₁, n₂, h₁, h₂, fun k hk => kept_between hk, fun k _ => not_byGradle_still, hr, hold, houtput,
    (documentation_keeps_unless_cleared rfl h₁ h₂ (fun k hk => kept_between hk) (fun k _ => not_byGradle_still) hr
      hold).1 houtput⟩

/-- A project where a single document is removed from the deliverables. -/
def narrow : Project :=
  let c : Config :=
    { paths := { projectRoot := some (.ofText "/p"), javaDocs := some (.ofText "javadoc/old.html") } }
  ⟨c, c.paths.layoutFrom (.ofText "/p"), false⟩

/-- Among the deliverables a link leads to the place of a document. -/
def linked : Tree := .ofEntries [([encode "p"], .directory), ([encode "p", encode "gradlew"], .file (encode "#!") true),
  ([encode "p", encode "build"], .directory), (docsPlace, .directory), (docsPlace ++ [encode "javadoc"], .directory),
  (docsPlace ++ [encode "javadoc", encode "old.html"], .file [1] false), ([encode "p", encode ".out"], .directory),
  ([encode "p", encode ".out", encode "deliverables"], .directory), (javaPlace, .directory),
  (javaPlace ++ [encode "new.html"], .link (.ofText "javadoc/old.html"))]

/-- After a first build another document takes the place of the old one. -/
def replaced : Machine :=
  let m := (documentation.run narrow still { tree := linked }).2
  let tree := m.tree.erase (docsPlace ++ [encode "javadoc"])
  { m with tree := tree.put (docsPlace ++ [encode "new.html"]) (.file [2] false) }

/-- What is removed and what is collected go different ways: without any settings, the documents of an earlier build
that are not below `docs` stay.  A document in the directory that is removed comes back where a link that was there
before diverts another one to its place. -/
theorem documentation_stale :
    (∃ n₁ n₂, Ships (.plain (.ofText "/p")) still { tree := drafted } n₁ delivered docsPlace javaPlace ∧
      Ships (.plain (.ofText "/p")) still withdrawn n₂ delivered₂ docsPlace javaPlace ∧
      (∀ k, javaPlace <+: k → withdrawn.tree.entryAt? k = delivered.tree.entryAt? k) ∧
      (∀ k, javaPlace <+: k → ¬ documentation.ByGradle (.plain (.ofText "/p")) still withdrawn k) ∧
      IsLeaf n₁.tree docsPlace [encode "javadoc", encode "old.html"] ∧
      ¬ IsLeaf drafted javaPlace [encode "javadoc", encode "old.html"] ∧
      ¬ IsLeaf n₂.tree docsPlace [encode "javadoc", encode "old.html"] ∧
      delivered₂.tree.entryAt? (javaPlace ++ [encode "javadoc", encode "old.html"]) = some (.file [2] false)) ∧
    (documentation.run narrow still { tree := linked }).1 = .ok () ∧
    (documentation.run narrow still replaced).1 = .ok () ∧
    linked.entryAt? (docsPlace ++ [encode "javadoc", encode "old.html"]) = some (.file [1] false) ∧
    linked.entryAt? (javaPlace ++ [encode "javadoc", encode "old.html"]) = none ∧
    replaced.tree.entryAt? (docsPlace ++ [encode "javadoc", encode "old.html"]) = none ∧
    documentation.AtOutput narrow still replaced (javaPlace ++ [encode "javadoc", encode "old.html"]) ∧
    (documentation.run narrow still replaced).2.tree.entryAt?
      (javaPlace ++ [encode "javadoc", encode "old.html"]) = some (.file [2] false) := by
  obtain ⟨n₁, -, h₁⟩ := ships_delivered
  obtain ⟨n₂, -, h₂⟩ := ships_delivered₂
  have hr : IsLeaf n₁.tree docsPlace [encode "javadoc", encode "old.html"] :=
    ⟨.file [2] false, (h₁.kept_docs (Tree.noLinks_ofEntries (by simp)) (List.prefix_append _ _)).trans
      (by decide +kernel), by simp⟩
  have hnew : ¬ IsLeaf drafted javaPlace [encode "javadoc", encode "old.html"] := by
    rintro ⟨e, he, -⟩
    have hnone : drafted.entryAt? (javaPlace ++ [encode "javadoc", encode "old.html"]) = none := by decide +kernel
    simp [hnone] at he
  have hold : ¬ IsLeaf n₂.tree docsPlace [encode "javadoc", encode "old.html"] := by
    rintro ⟨e, he, -⟩
    rw [h₂.kept_docs noLinks_withdrawn (List.prefix_append _ _)] at he
    have hnone : withdrawn.tree.entryAt? (docsPlace ++ [encode "javadoc", encode "old.html"]) = none := by
      decide +kernel
    simp [hnone] at he
  exact ⟨⟨n₁, n₂, h₁, h₂, fun k hk => kept_between hk, fun k _ => not_byGradle_still, hr, hnew, hold,
    by decide +kernel⟩, by decide +kernel, by decide +kernel, by decide +kernel, by decide +kernel, by decide +kernel,
    atOutput_of_found (by decide +kernel) (List.prefix_refl _), by decide +kernel⟩

end GradleBuild.Task
