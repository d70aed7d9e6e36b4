import GradleBuild.Config.Layout

/-!
# The tree of the directories

Each directory but the root is placed from its own entry and the directory above it, and from nothing else.  So what
holds of the root, and goes over from the directory above, holds of all directories (`Place.inductionAbove`), and a
changed entry moves its own directory and those below it, down to the next entry that is absolute (`MovesWith`).

* `get_below`: where a directory lies, given the one above it.
* `resolve_toConfig`: a layout that is written out as a configuration is resolved to itself.
* `resolve_local`: what an entry of the configuration does to the layout.
-/

namespace GradleBuild

variable {c c' : PathsConfig} {root root' path : Path} {p q r : Place} {l l' : Layout}

/-- What holds of the root, and of every directory if it holds of the one above it, holds of all directories. -/
@[elab_as_elim]
theorem Place.inductionAbove {P : Place → Prop} (root : P .projectRoot)
    (below : ∀ q r, q.above? = some r → P r → P q) (q : Place) : P q := by
  have hbuild : P .build := below _ _ rfl root
  have hout : P .out := below _ _ rfl root
  have hdeliverables : P .deliverables := below _ _ rfl hout
  have hjava : P .java := below _ _ rfl hdeliverables
  cases q with
  | projectRoot => exact root
  | build => exact hbuild
  | libs => exact below _ _ rfl hbuild
  | docs => exact below _ _ rfl hbuild
  | out => exact hout
  | deliverables => exact hdeliverables
  | java => exact hjava
  | javaDocs => exact below _ _ rfl hjava

/-- A layout is told by its directories. -/
theorem Layout.ext_get (h : ∀ q, l.get q = l'.get q) : l = l' := by
  obtain ⟨_, _, _, _, _, _, _, _⟩ := l
  obtain ⟨_, _, _, _, _, _, _, _⟩ := l'
  rw [Layout.mk.injEq]
  exact ⟨h .projectRoot, h .build, h .libs, h .docs, h .out, h .deliverables, h .java, h .javaDocs⟩

/-- The configuration that names every directory of a layout. -/
def Layout.toConfig (l : Layout) : PathsConfig where
  projectRoot := some l.projectRoot
  build := some l.build
  libs := some l.libs
  docs := some l.docs
  out := some l.out
  deliverables := some l.deliverables
  java := some l.java
  javaDocs := some l.javaDocs

@[simp] theorem Layout.get_toConfig (l : Layout) (q : Place) : l.toConfig.get q = some (l.get q) := by
  cases q <;> rfl

namespace PathsConfig

theorem resolve_eq_ok : c.resolve = .ok l ↔ ∃ root, c.projectRoot = some root ∧ l = c.layoutFrom root := by
  unfold resolve
  cases c.projectRoot with
  | none => simp
  | some root => simp [eq_comm]

/-- A directory lies where its entry leads from the directory above it. -/
theorem get_below (c : PathsConfig) (root : Path) (h : q.above? = some r) :
    (c.layoutFrom root).get q = place (c.get q) ((c.layoutFrom root).get r) q := by
  cases q <;> cases h <;> rfl

theorem place_of_isAbsolute (h : path.isAbsolute = true) (above : Path) (q : Place) :
    place (some path) above q = path := by
  unfold place Path.absoluteFrom
  exact if_pos h

theorem isAbsolute_place {above : Path} (h : above.isAbsolute = true) (configured : Option Path) (q : Place) :
    (place configured above q).isAbsolute = true := by
  cases configured with
  | none => exact Path.isAbsolute_join h _
  | some path => exact Path.isAbsolute_absoluteFrom h path

end PathsConfig

open PathsConfig (get_below place isAbsolute_place place_of_isAbsolute)

/-- Below an absolute root all directories are absolute. -/
theorem isAbsolute_layoutFrom (h : root.isAbsolute = true) (paths : PathsConfig) (q : Place) :
    ((paths.layoutFrom root).get q).isAbsolute = true := by
  induction q using Place.inductionAbove with
  | root => exact h
  | below q r hq ih =>
    rw [get_below paths root hq]
    exact isAbsolute_place ih _ q

namespace PathsConfig

/-- An absolute entry is taken as it is, whatever lies above it. -/
theorem get_of_isAbsolute (hroot : c.projectRoot = some root) (hget : c.get q = some path)
    (h : path.isAbsolute = true) : (c.layoutFrom root).get q = path := by
  cases hq : q.above? with
  | none =>
    obtain rfl : q = .projectRoot := by cases q <;> first | rfl | cases hq
    exact Option.some.inj (hroot.symm.trans hget)
  | some r => rw [get_below c root hq, hget, place_of_isAbsolute h]

/-- Without entries below the root the layout is the one that is built directly. -/
theorem layoutFrom_eq_below (h : ∀ q ≠ .projectRoot, c.get q = none) (root : Path) :
    c.layoutFrom root = Layout.below root := by
  have hnone : c = { projectRoot := c.projectRoot } := by
    obtain ⟨_, _, _, _, _, _, _, _⟩ := c
    simp only [PathsConfig.mk.injEq, true_and]
    exact ⟨h .build (by decide), h .libs (by decide), h .docs (by decide), h .out (by decide),
      h .deliverables (by decide), h .java (by decide), h .javaDocs (by decide)⟩
  rw [hnone]
  rfl

/-- A layout below an absolute root, written out as a configuration, is resolved to itself. -/
theorem resolve_toConfig (hl : c.resolve = .ok l) (h : l.projectRoot.isAbsolute = true) :
    l.toConfig.resolve = .ok l := by
  obtain ⟨root, -, rfl⟩ := resolve_eq_ok.1 hl
  have hroot : (c.layoutFrom root).toConfig.projectRoot = some root := rfl
  refine resolve_eq_ok.2 ⟨root, hroot, Layout.ext_get fun q => ?_⟩
  exact (get_of_isAbsolute hroot (Layout.get_toConfig _ q) (isAbsolute_layoutFrom h c q)).symm

/-- A directory moves with another one: it is that directory, or it lies below one that moves with it, and has no
absolute entry of its own. -/
inductive MovesWith (c : PathsConfig) (p : Place) : Place → Prop
  | itself : MovesWith c p p
  | under {q r : Place} (habove : q.above? = some r) (hr : MovesWith c p r)
      (hentry : ∀ path, c.get q = some path → path.isAbsolute = false) : MovesWith c p q

/-- Where two configurations differ in one entry, only what moves with it lies elsewhere. -/
theorem movesWith_of_get_ne (hroot : c.projectRoot = some root) (hroot' : c'.projectRoot = some root')
    (h : ∀ q ≠ p, c'.get q = c.get q) (hne : (c'.layoutFrom root').get q ≠ (c.layoutFrom root).get q) :
    c.MovesWith p q := by
  induction q using Place.inductionAbove with
  | root =>
    by_cases hp : Place.projectRoot = p
    · exact hp ▸ .itself
    · have hsame : c'.projectRoot = c.projectRoot := h .projectRoot hp
      rw [hroot, hroot'] at hsame
      exact absurd (Option.some.inj hsame) hne
  | below q r hq ih =>
    by_cases hp : q = p
    · exact hp ▸ .itself
    · -- both are placed by the same entry, so the directories above differ, and the entry is not absolute
      rw [get_below c root hq, get_below c' root' hq, h q hp] at hne
      refine .under hq (ih fun hsame => hne (by rw [hsame])) fun path hget => ?_
      rw [Bool.eq_false_iff]
      intro habsolute
      rw [hget, place_of_isAbsolute habsolute, place_of_isAbsolute habsolute] at hne
      exact hne rfl

/-- A configuration with a root is resolved, to the layout that is built directly if it has no other entry.  An entry
that is changed moves nothing but its own directory and those that move with it, an absolute entry is taken as it is,
and below an absolute root the layout itself, written out as a configuration, is resolved to the same. -/
theorem resolve_local (hroot : c.projectRoot = some root) : ∃ l, c.resolve = .ok l ∧
    ((∀ q ≠ .projectRoot, c.get q = none) → l = Layout.below root) ∧
    (∀ (c' : PathsConfig) (l' : Layout) (p : Place), c'.resolve = .ok l' → (∀ q ≠ p, c'.get q = c.get q) →
      ∀ q, l'.get q ≠ l.get q → c.MovesWith p q) ∧
    (∀ q path, c.get q = some path → path.isAbsolute = true → l.get q = path) ∧
    (root.isAbsolute = true → l.toConfig.resolve = .ok l) := by
  have hresolve : c.resolve = .ok (c.layoutFrom root) := resolve_eq_ok.2 ⟨root, hroot, rfl⟩
  refine ⟨c.layoutFrom root, hresolve, fun hnone => layoutFrom_eq_below hnone root, ?_, ?_, ?_⟩
  · intro c' l' p hl' hsame q hne
    obtain ⟨root', hroot', rfl⟩ := resolve_eq_ok.1 hl'
    exact movesWith_of_get_ne hroot hroot' hsame hne
  · intro q path hget habsolute
    exact get_of_isAbsolute hroot hget habsolute
  · intro habsolute
    exact resolve_toConfig hresolve habsolute

/-- A project with another build directory, whose libraries lie elsewhere. -/
def rebuilt : PathsConfig where
  projectRoot := some (.ofText "/p/")
  build := some (.ofText "work")
  libs := some (.ofText "/srv/libs")

theorem resolve_local_rebuilt : rebuilt.projectRoot = some (.ofText "/p/") ∧ ∃ l, rebuilt.resolve = .ok l ∧
    l.get .libs = .ofText "/srv/libs" ∧ l.toConfig.resolve = .ok l ∧
    ∀ (c' : PathsConfig) (l' : Layout), c'.resolve = .ok l' → (∀ q ≠ .build, c'.get q = rebuilt.get q) →
      l'.get .libs = l.get .libs := by
  obtain ⟨l, hl, -, hmoves, habsolute, hagain⟩ := resolve_local (c := rebuilt) rfl
  have hlibs : ¬ rebuilt.MovesWith .build .libs := by
    intro h
    cases h with
    | under habove hr hentry => exact absurd (hentry _ rfl) (by decide)
  refine ⟨rfl, l, hl, habsolute .libs _ rfl (by decide), hagain (by decide), fun c' l' hl' hsame => ?_⟩
  exact Classical.not_not.1 fun hne => hlibs (hmoves c' l' .build hl' hsame .libs hne)

end PathsConfig

end GradleBuild
