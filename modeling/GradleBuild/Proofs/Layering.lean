import GradleBuild.Proofs.Overrides

/-!
# The order of the layers

For each setting the layers are asked in order, the highest first: the dedicated option, the overrides, the environment,
the files of the command line, the project's own file, and what is built in (`Inputs.given`).  The first that gives a
value decides, and within a layer the last value does.  An empty table gives nothing.

* `merged_ok`: for each setting the values of all layers are put over each other, the lowest first.
* `lastOf_values`: the last of these that gives anything is what the highest layer gives.
* `load_layered`: a configuration that is loaded has each setting as if this value alone had been given.
-/

namespace GradleBuild.Config

variable {k j : Setting} {t : Tree} {cwd : Location} {l : Loader} {top top' v : Value} {entry key value : String}
  {sources : List Source} {environment : Environment}

/-! ### The layers of a run -/

/-- What a run finds to configure itself from. -/
structure Inputs where
  tree : Tree
  cwd : Location
  environment : Environment
  options : Options
  /-- The directory the run starts from. -/
  dir : Path

/-- What a source holds, if it can be read. -/
def contents (t : Tree) (cwd : Location) (s : Source) : Fields := (Loader.collect t cwd s).toOption.getD []

/-- The key and the value that a variable gives, if it gives one. -/
def assignment? (v : String × Bytes) : Option (String × Value) := (ofVariable environmentPrefix v.1 v.2).toOption.join

namespace Inputs

def load (i : Inputs) : Except Cause LoadedConfig := Config.load i.tree i.cwd i.environment i.options i.dir

def root (i : Inputs) : Path := lookupRoot i.tree i.cwd i.options i.dir

/-- The project's own file. -/
def projectSource (i : Inputs) : Source := .file (i.root.join (.ofText projectFile)) false

/-- A file of the command line. -/
def fileSource (i : Inputs) (p : Path) : Source := .file (i.dir.absoluteFrom p) true

/-- What the dedicated option for a setting gives. -/
def fromOption (i : Inputs) : Setting → Option Value
  | .dry => if i.options.dry then some (.text "true") else none
  | .outputLogLevel => i.options.logLevel.map fun n => .text (toString n)
  | .fileLogLevel => i.options.fileLogLevel.map fun n => .text (toString n)
  | .logFile => i.options.logFile.map fun p => .text (trim p.display)
  | .directory .projectRoot => i.options.projectRoot.map fun p => .text (i.dir.absoluteFrom p).display
  | _ => none

/-- What the last override for a setting gives. -/
def fromOverrides (i : Inputs) (k : Setting) : Option Value := (i.options.settings.filterMap (ofEntry k)).getLast?

/-- What the last variable for a setting gives. -/
def fromEnvironment (i : Inputs) (k : Setting) : Option Value :=
  ((i.environment.filterMap assignment?).filterMap fun (key, v) => if key = k.text then some v else none).getLast?

/-- What a source gives for a setting. -/
def fromSource (i : Inputs) (k : Setting) (s : Source) : Option Value :=
  lastOf (valuesFor k (flatten (contents i.tree i.cwd s)))

/-- What the last file of the command line that gives the setting gives for it. -/
def fromFiles (i : Inputs) (k : Setting) : Option Value :=
  (i.options.configs.filterMap fun p => i.fromSource k (i.fileSource p)).getLast?

def builtIn (i : Inputs) : Setting → Option Value
  | .directory .projectRoot => some (.text i.root.display)
  | _ => none

/-- What the highest layer that gives a setting gives for it. -/
def given (i : Inputs) (k : Setting) : Option Value :=
  (i.fromOption k).or <| (i.fromOverrides k).or <| (i.fromEnvironment k).or <| (i.fromFiles k).or <|
    (i.fromSource k i.projectSource).or (i.builtIn k)

/-- No layer sets anything but settings. -/
structure OnlySettings (i : Inputs) : Prop where
  sources : ∀ s ∈ i.projectSource :: i.options.configs.map i.fileSource, Config.OnlySettings (contents i.tree i.cwd s)
  environment : ∀ a ∈ i.environment.filterMap assignment?, ∃ k : Setting, a.1 = k.text
  overrides : ∀ a ∈ i.options.settings.filterMap fun e => (Loader.splitOverride e).toOption, ∃ k : Setting, a.1 = k.text

instance (i : Inputs) : Decidable i.OnlySettings :=
  decidable_of_iff (_ ∧ _ ∧ _) ⟨fun ⟨hs, he, ho⟩ => ⟨hs, he, ho⟩, fun h => ⟨h.sources, h.environment, h.overrides⟩⟩

end Inputs

/-! ### Each layer -/

private theorem lastOf_flatMap {α : Type} (k : Setting) (g : α → List (Key × Value)) (xs : List α) :
    lastOf (valuesFor k (xs.flatMap g)) = (xs.filterMap fun x => lastOf (valuesFor k (g x))).getLast? := by
  induction xs with
  | nil => rfl
  | cons x xs ih =>
    rw [List.flatMap_cons, valuesFor_append, lastOf_append, ih]
    rw [List.filterMap_cons]
    cases lastOf (valuesFor k (g x)) with
    | none => rw [Option.or_none]
    | some v =>
      rw [List.getLast?_cons]
      cases (xs.filterMap fun x => lastOf (valuesFor k (g x))).getLast? <;> rfl

private theorem lastOf_eq_getLast? {vs : List Value} (h : ∀ v ∈ vs, v.givesNothing = false) :
    lastOf vs = vs.getLast? := by
  unfold lastOf
  rw [List.filter_eq_self.2 fun v hv => by simp [h v hv]]

/-- The sources one after another. -/
private theorem at?_sources (hs : Sectioned top)
    (honly : ∀ s ∈ sources, OnlySettings (contents t cwd s))
    (h : sources.foldlM (fun top s => do return Loader.merge (← Loader.collect t cwd s) top) top = .ok top') :
    Sectioned top' ∧ ∀ k : Setting, k.at? top' =
      (valuesFor k (sources.flatMap fun s => flatten (contents t cwd s))).foldl layer (k.at? top) := by
  induction sources generalizing top with
  | nil =>
    obtain rfl := Except.ok.inj h
    exact ⟨hs, fun _ => rfl⟩
  | cons s sources ih =>
    obtain ⟨top₁, h₁, hrest⟩ := bind_eq_ok h
    obtain ⟨fields, hfields, h₁⟩ := bind_eq_ok h₁
    obtain rfl := Except.ok.inj h₁
    have hcontents : contents t cwd s = fields := by simp [contents, hfields, Except.toOption]
    rw [← hcontents] at hrest
    obtain ⟨hs₁, hat₁⟩ := at?_merge (honly s (by simp)) hs
    obtain ⟨hs', hat⟩ := ih hs₁ (fun s hs => honly s (List.mem_cons_of_mem _ hs)) hrest
    refine ⟨hs', fun k => ?_⟩
    rw [hat k, hat₁ k, List.flatMap_cons, valuesFor_append, List.foldl_append]

private theorem mapM_assignments {values : List (Option (String × Value))}
    (h : environment.mapM (fun (name, value) => ofVariable environmentPrefix name value) = .ok values) :
    values.filterMap id = environment.filterMap assignment? := by
  induction environment generalizing values with
  | nil =>
    obtain rfl := Except.ok.inj h
    rfl
  | cons v environment ih =>
    obtain ⟨name, bytes⟩ := v
    rw [List.mapM_cons] at h
    obtain ⟨value, hvalue, h⟩ := bind_eq_ok h
    obtain ⟨rest, hrest, h⟩ := bind_eq_ok h
    obtain rfl := Except.ok.inj h
    replace hvalue : ofVariable environmentPrefix name bytes = .ok value := hvalue
    have hfirst : assignment? (name, bytes) = value := by
      unfold assignment?
      rw [hvalue]
      rfl
    rw [List.filterMap_cons, List.filterMap_cons, hfirst, ih hrest]
    rfl

theorem ofEnvironment_ok {pairs : List (String × Value)}
    (h : ofEnvironment environmentPrefix environment = .ok pairs) : pairs = environment.filterMap assignment? := by
  obtain ⟨values, hvalues, h⟩ := bind_eq_ok h
  obtain rfl := Except.ok.inj h
  exact mapM_assignments hvalues

private theorem guess_gives (key text : String) : (guess key text).givesNothing = false := by
  unfold guess
  dsimp only
  repeat' split
  all_goals rfl

/-- What a variable gives is what its text is taken for. -/
theorem guess_of_assignment? {x : String × Bytes} (h : assignment? x = some (key, v)) : ∃ text, v = guess key text := by
  unfold assignment? ofVariable at h
  split at h
  · simp [Except.toOption] at h
  · split at h
    · simp [Except.toOption] at h
    · simp only [Except.toOption, Option.join_some, Option.some.injEq, Prod.mk.injEq] at h
      obtain ⟨rfl, rfl⟩ := h
      exact ⟨_, rfl⟩

private theorem assignment?_gives {x : String × Bytes} (h : assignment? x = some (key, v)) :
    v.givesNothing = false := by
  obtain ⟨text, rfl⟩ := guess_of_assignment? h
  exact guess_gives key text

theorem readOrLiteral_text (k : Setting) : Key.readOrLiteral k.text = k.key := by
  rw [Key.readOrLiteral, read?_text]
  rfl

/-- The variables that give values to settings. -/
private theorem at?_environment {pairs : List (String × Value)} (hs : Sectioned top)
    (honly : ∀ a ∈ pairs, ∃ k : Setting, a.1 = k.text) :
    Sectioned (Loader.merge pairs top) ∧ ∀ k : Setting, k.at? (Loader.merge pairs top) =
      (pairs.filterMap fun (key, v) => if key = k.text then some v else none).foldl layer (k.at? top) := by
  have hmerge : Loader.merge pairs top =
      Loader.assignAll (pairs.map fun (key, v) => (Key.readOrLiteral key, v)) top := by
    unfold Loader.merge Loader.assignAll
    rw [List.foldl_map]
  have hsettings : OfSettings (pairs.map fun (key, v) => (Key.readOrLiteral key, v)) := by
    intro a ha
    obtain ⟨⟨key, v⟩, hx, rfl⟩ := List.mem_map.1 ha
    obtain ⟨k, hk⟩ := honly _ hx
    obtain rfl : key = k.text := hk
    exact ⟨k, readOrLiteral_text k⟩
  rw [hmerge]
  obtain ⟨hs', hat⟩ := at?_assignAll hsettings hs
  refine ⟨hs', fun k => ?_⟩
  rw [hat k]
  congr 1
  unfold valuesFor
  rw [List.filterMap_map]
  apply List.filterMap_congr
  intro a ha
  obtain ⟨key, v⟩ := a
  obtain ⟨j, hj⟩ := honly _ ha
  obtain rfl : key = j.text := hj
  by_cases hk : j = k
  · simp [hk, readOrLiteral_text]
  · have hkey : j.key ≠ k.key := fun he => hk (Setting.key_injective he)
    have htext : j.text ≠ k.text := fun he => hk (text_injective he)
    simp [readOrLiteral_text, hkey, htext]

/-! ### The loader of a run -/

private theorem getLast?_toList {α : Type} (x : Option α) : x.toList.getLast? = x := by
  cases x <;> rfl

/-- The overrides of the options come behind all others. -/
private theorem overrides_last (i : Inputs) (h : k ≠ .directory .projectRoot) :
    (i.options.overrides.filterMap (ofEntry k)).getLast? = (i.fromOption k).or (i.fromOverrides k) := by
  rw [filterMap_overrides]
  unfold Inputs.fromOverrides
  cases k with
  | directory p => cases p <;> simp [Inputs.fromOption] at h ⊢
  | dry => by_cases hd : i.options.dry <;> simp [Inputs.fromOption, hd]
  | outputLogLevel | fileLogLevel | logFile | wrapper | console | arguments =>
    simp [Inputs.fromOption, List.getLast?_append, getLast?_toList]

private theorem overrides_root (i : Inputs) :
    (i.options.overrides.filterMap (ofEntry (.directory .projectRoot))).getLast? =
      i.fromOverrides (.directory .projectRoot) := by
  rw [filterMap_overrides]
  simp [Inputs.fromOverrides]

theorem addFiles (l : Loader) (dir : Path) (configs : List Path) :
    let l' := configs.foldl (fun l p => l.addFile (dir.absoluteFrom p)) l
    l'.defaults = l.defaults ∧ l'.sources = l.sources ++ configs.map (fun p => .file (dir.absoluteFrom p) true) ∧
      l'.overrides = l.overrides := by
  induction configs generalizing l with
  | nil => exact ⟨rfl, by simp, rfl⟩
  | cons p configs ih =>
    obtain ⟨hd, hs, ho⟩ := ih (l.addFile (dir.absoluteFrom p))
    exact ⟨hd, by simpa [Loader.addFile] using hs, ho⟩

/-- The layers below the overrides. -/
def Inputs.below (i : Inputs) : Loader :=
  (i.options.configs.foldl (fun l p => l.addFile (i.dir.absoluteFrom p)) <|
    Loader.addOptionalFile { defaults := [((Setting.directory .projectRoot).key, .text i.root.display)] } i.tree i.cwd
      (i.root.join (.ofText projectFile))).withEnvironment environmentPrefix

theorem read?_rootKey :
    Key.read? ("paths." ++ Place.projectRoot.key) = some (Setting.directory .projectRoot).key := by decide

theorem loaderFor_eq (i : Inputs) : loaderFor i.tree i.cwd i.options i.dir = (do
    let l ← i.below.applyOverrides i.options.overrides
    match i.options.projectRoot with
    | some _ => l.set ("paths." ++ Place.projectRoot.key) (.text i.root.display)
    | none => return l) := by
  unfold loaderFor Loader.setDefault
  dsimp only
  rw [read?_rootKey]
  rfl

/-- The layers of a run. -/
private theorem loaderFor_ok {i : Inputs} (hi : i.OnlySettings) (h : loaderFor i.tree i.cwd i.options i.dir = .ok l) :
    l.defaults = [((Setting.directory .projectRoot).key, .text i.root.display)] ∧
      l.sources = i.projectSource :: i.options.configs.map i.fileSource ∧
      l.environmentPrefix = some environmentPrefix ∧
      Overrides (fun k => (i.fromOption k).or (i.fromOverrides k)) l.overrides := by
  rw [loaderFor_eq] at h
  obtain ⟨l₁, h₁, h⟩ := bind_eq_ok h
  obtain ⟨hd, hs, ho⟩ := addFiles (Loader.addOptionalFile
    { defaults := [((Setting.directory .projectRoot).key, .text i.root.display)] } i.tree i.cwd
    (i.root.join (.ofText projectFile))) i.dir i.options.configs
  have hnone : Overrides (fun _ => none) i.below.overrides := by
    rw [show i.below.overrides = [] from ho]
    exact ⟨fun _ ha => absurd ha List.not_mem_nil, fun _ => rfl⟩
  obtain ⟨hover, heq⟩ := applyOverrides_ok hnone h₁ fun e he key x h => by
    rcases keys_overrides he h with he | hk
    · exact hi.overrides (key, x) (List.mem_filterMap.2 ⟨e, he, by rw [h]; rfl⟩)
    · exact hk
  have hbelow : l₁.defaults = [((Setting.directory .projectRoot).key, .text i.root.display)] ∧
      l₁.sources = i.projectSource :: i.options.configs.map i.fileSource ∧
      l₁.environmentPrefix = some environmentPrefix := by
    rw [heq]
    exact ⟨hd, hs, rfl⟩
  -- the option for the root is set last of all
  cases hroot : i.options.projectRoot with
  | none =>
    rw [hroot] at h
    obtain rfl := Except.ok.inj h
    refine ⟨hbelow.1, hbelow.2.1, hbelow.2.2, hover.congr fun k => ?_⟩
    rw [Option.or_none]
    by_cases hk : k = .directory .projectRoot
    · rw [hk, overrides_root]
      simp [Inputs.fromOption, hroot]
    · exact overrides_last i hk
  | some p =>
    rw [hroot] at h
    simp only [Loader.set, read?_rootKey] at h
    obtain rfl := Except.ok.inj h
    refine ⟨hbelow.1, hbelow.2.1, hbelow.2.2, (hover.assign _ _).congr fun k => ?_⟩
    by_cases hk : k = .directory .projectRoot
    · rw [hk, if_pos rfl]
      simp [Inputs.fromOption, Inputs.root, lookupRoot, hroot]
    · rw [if_neg hk, Option.or_none]
      exact overrides_last i hk

/-! ### All layers -/

/-- What the values of the overrides are given by. -/
private def Inputs.fromTop (i : Inputs) (k : Setting) : Option Value := (i.fromOption k).or (i.fromOverrides k)

/-- The values that are put over each other for a setting, the lowest first. -/
private def Inputs.values (i : Inputs) (k : Setting) : List Value :=
  valuesFor k [((Setting.directory .projectRoot).key, .text i.root.display)]
    ++ valuesFor k ((i.projectSource :: i.options.configs.map i.fileSource).flatMap
      fun s => flatten (contents i.tree i.cwd s))
    ++ ((i.environment.filterMap assignment?).filterMap fun (key, v) => if key = k.text then some v else none)
    ++ (i.fromTop k).toList

private theorem merged_ok {i : Inputs} (hi : i.OnlySettings) (hl : loaderFor i.tree i.cwd i.options i.dir = .ok l)
    (h : l.merged i.tree i.cwd i.environment = .ok top) :
    Sectioned top ∧ ∀ k : Setting, k.at? top = (i.values k).foldl layer none := by
  obtain ⟨hdefaults, hsources, henvironment, hover⟩ := loaderFor_ok hi hl
  unfold Loader.merged at h
  obtain ⟨top₁, h₁, h⟩ := bind_eq_ok h
  rw [henvironment] at h
  obtain ⟨pairs, hpairs, h⟩ := bind_eq_ok h
  obtain rfl := Except.ok.inj h
  obtain rfl := ofEnvironment_ok hpairs
  rw [hdefaults, hsources] at h₁
  have hempty : Sectioned (.table none []) := ⟨none, [], rfl, fun _ _ h => by cases h⟩
  have hdefault : OfSettings [((Setting.directory .projectRoot).key, Value.text i.root.display)] :=
    fun a ha => ⟨.directory .projectRoot, by rw [List.mem_singleton.1 ha]⟩
  -- one layer after another, the lowest first
  obtain ⟨hs₀, hat₀⟩ := at?_assignAll hdefault hempty
  obtain ⟨hs₁, hat₁⟩ := at?_sources hs₀ hi.sources h₁
  obtain ⟨hs₂, hat₂⟩ := at?_environment hs₁ hi.environment
  obtain ⟨hs₃, hat₃⟩ := at?_assignAll hover.ofSettings hs₂
  refine ⟨hs₃, fun k => ?_⟩
  have hat : k.at? (.table none []) = none := rfl
  unfold Inputs.values
  rw [hat₃, hat₂, hat₁, hat₀, hat, hover.values k, List.foldl_append, List.foldl_append, List.foldl_append]
  rfl

private theorem ofEntry_gives (h : ofEntry k entry = some v) : v.givesNothing = false := by
  unfold ofEntry at h
  split at h
  · split at h
    · rw [← Option.some.inj h, Loader.overrideValue]
      split <;> rfl
    · cases h
  · cases h

private theorem fromOption_gives {i : Inputs} (h : i.fromOption k = some v) : v.givesNothing = false := by
  cases k with
  | directory p =>
    cases p with
    | projectRoot =>
      obtain ⟨_, -, rfl⟩ := Option.map_eq_some_iff.1 h
      rfl
    | _ => cases h
  | dry =>
    simp only [Inputs.fromOption] at h
    split at h
    · rw [← Option.some.inj h]
      rfl
    · cases h
  | outputLogLevel | fileLogLevel | logFile =>
    obtain ⟨_, -, rfl⟩ := Option.map_eq_some_iff.1 h
    rfl
  | wrapper | console | arguments => cases h

private theorem fromTop_gives {i : Inputs} (h : i.fromTop k = some v) : v.givesNothing = false := by
  rcases Option.or_eq_some_iff.1 h with h | ⟨-, h⟩
  · exact fromOption_gives h
  · obtain ⟨entry, -, he⟩ := List.mem_filterMap.1 (List.mem_of_getLast? h)
    exact ofEntry_gives he

/-- The last of the values is what the highest layer gives. -/
private theorem lastOf_values (i : Inputs) (k : Setting) : lastOf (i.values k) = i.given k := by
  have htop : lastOf (i.fromTop k).toList = i.fromTop k := by
    rw [lastOf_eq_getLast? fun v hv => fromTop_gives (Option.mem_toList.1 hv), getLast?_toList]
  have henvironment : lastOf ((i.environment.filterMap assignment?).filterMap
      fun (key, v) => if key = k.text then some v else none) = i.fromEnvironment k := by
    apply lastOf_eq_getLast?
    intro v hv
    obtain ⟨⟨key, w⟩, ha, hw⟩ := List.mem_filterMap.1 hv
    obtain ⟨x, -, hx⟩ := List.mem_filterMap.1 ha
    dsimp only at hw
    split at hw
    · exact Option.some.inj hw ▸ assignment?_gives hx
    · cases hw
  have hsources : lastOf (valuesFor k ((i.projectSource :: i.options.configs.map i.fileSource).flatMap
      fun s => flatten (contents i.tree i.cwd s))) = (i.fromFiles k).or (i.fromSource k i.projectSource) := by
    rw [List.flatMap_cons, valuesFor_append, lastOf_append, List.flatMap_map, lastOf_flatMap]
    rfl
  have hdefault :
      lastOf (valuesFor k [((Setting.directory .projectRoot).key, .text i.root.display)]) = i.builtIn k := by
    cases k with
    | directory p => cases p <;> rfl
    | dry | outputLogLevel | fileLogLevel | logFile | wrapper | console | arguments => rfl
  unfold Inputs.values Inputs.given
  rw [lastOf_append, lastOf_append, lastOf_append, htop, henvironment, hsources, hdefault]
  simp only [Inputs.fromTop, Option.or_assoc]

/-! ### Each setting is decided by one layer -/

/-- A setting is as if this value alone had been given, or built in if none is. -/
def Decided (k : Setting) (v : Option Value) (c : Config) : Prop :=
  match v with
  | some v => ofValue (k.key.set v (.table none [])) = .ok (k.only (k.get c))
  | none => k.get c = k.builtIn

/-- The configuration with the root of the project made absolute. -/
def rooted (dir : Path) (c : Config) : Config :=
  { c with paths.projectRoot := c.paths.projectRoot.map dir.absoluteFrom }

/-- One more source, which gives nothing but a value for one setting. -/
inductive Inputs.Adds (i : Inputs) : Setting → Inputs → Prop
  | dry : Adds i .dry { i with options.dry := true }
  | logLevel (n : Nat) : Adds i .outputLogLevel { i with options.logLevel := some n }
  | fileLogLevel (n : Nat) : Adds i .fileLogLevel { i with options.fileLogLevel := some n }
  | logFile (p : Path) : Adds i .logFile { i with options.logFile := some p }
  /-- The project's own file is one that gives the same for all other settings. -/
  | projectRoot (p : Path) (hs : ∀ k ≠ .directory .projectRoot,
        i.fromSource k (.file ((i.dir.absoluteFrom p).join (.ofText projectFile)) false) =
          i.fromSource k i.projectSource) :
      Adds i (.directory .projectRoot) { i with options.projectRoot := some p }
  | override {j : Setting} {before after : List String} {entry value : String}
      (hi : i.options.settings = before ++ after) (he : Loader.splitOverride entry = .ok (j.text, value)) :
      Adds i j { i with options.settings := before ++ entry :: after }
  | assignment {j : Setting} {before after : Environment} {x : String × Bytes} {v : Value}
      (hi : i.environment = before ++ after) (hx : assignment? x = some (j.text, v)) :
      Adds i j { i with environment := before ++ x :: after }
  | file {j : Setting} {before after : List Path} {p : Path} (hi : i.options.configs = before ++ after)
      (hp : ∀ k ≠ j, i.fromSource k (i.fileSource p) = none) :
      Adds i j { i with options.configs := before ++ p :: after }
  /-- Files are written so that they give the same for all other settings. -/
  | written {j : Setting} {t : Tree} (hroot : lookupRoot t i.cwd i.options i.dir = i.root)
      (hs : ∀ s ∈ i.projectSource :: i.options.configs.map i.fileSource, ∀ k ≠ j,
        ({ i with tree := t } : Inputs).fromSource k s = i.fromSource k s) : Adds i j { i with tree := t }

private theorem given_congr {i i' : Inputs} (ho : i'.fromOption k = i.fromOption k)
    (hs : i'.fromOverrides k = i.fromOverrides k) (he : i'.fromEnvironment k = i.fromEnvironment k)
    (hf : i'.fromFiles k = i.fromFiles k)
    (hp : i'.fromSource k i'.projectSource = i.fromSource k i.projectSource) (hb : i'.builtIn k = i.builtIn k) :
    i'.given k = i.given k := by
  unfold Inputs.given
  rw [ho, hs, he, hf, hp, hb]

private theorem Inputs.Adds.given {i i' : Inputs} (h : i.Adds j i') (hk : k ≠ j) : i'.given k = i.given k := by
  cases h with
  | dry | logLevel | fileLogLevel | logFile =>
    refine given_congr ?_ rfl rfl rfl rfl rfl
    cases k with
    | directory p => cases p <;> rfl
    | _ => first | rfl | exact absurd rfl hk
  | projectRoot p hs =>
    refine given_congr ?_ rfl rfl rfl (hs k hk) ?_
    all_goals
      cases k with
      | directory p => cases p <;> first | rfl | exact absurd rfl hk
      | _ => rfl
  | @override _ before after entry value hi he =>
    refine given_congr rfl ?_ rfl rfl rfl rfl
    have hentry : ofEntry k entry = none := by
      unfold ofEntry
      rw [he]
      exact if_neg fun h => hk (text_injective h).symm
    unfold Inputs.fromOverrides
    rw [hi, List.filterMap_append, List.filterMap_append, List.filterMap_cons_none hentry]
  | assignment hi hx =>
    refine given_congr rfl rfl ?_ rfl rfl rfl
    unfold Inputs.fromEnvironment
    rw [hi, List.filterMap_append, List.filterMap_append, List.filterMap_cons_some hx, List.filterMap_append,
      List.filterMap_append, List.filterMap_cons_none]
    exact if_neg fun h => hk (text_injective h).symm
  | @file _ before after p hi hp =>
    refine given_congr rfl rfl rfl ?_ rfl rfl
    unfold Inputs.fromFiles
    show ((before ++ p :: after).filterMap fun p => i.fromSource k (i.fileSource p)).getLast? = _
    rw [hi, List.filterMap_append, List.filterMap_append, List.filterMap_cons, hp k hk]
  | @written _ t hroot hs =>
    have hroot : Inputs.root { i with tree := t } = i.root := hroot
    have hproject : Inputs.projectSource { i with tree := t } = i.projectSource := by
      unfold Inputs.projectSource
      rw [hroot]
    refine given_congr rfl rfl rfl ?_ ?_ ?_
    · refine congrArg List.getLast? (List.filterMap_congr fun p hp => ?_)
      exact hs _ (List.mem_cons_of_mem _ (List.mem_map_of_mem hp)) k hk
    · rw [hproject]
      exact hs _ List.mem_cons_self k hk
    · unfold Inputs.builtIn
      rw [hroot]

private theorem Decided.unique {c c' : Config} {v : Option Value} (h : Decided k v c) (h' : Decided k v c') :
    k.get c' = k.get c := by
  cases v with
  | none => exact Eq.trans h' (Eq.symm h)
  | some v =>
    have := Except.ok.inj (Eq.trans (Eq.symm h') h)
    rw [← k.get_only (k.get c'), this, k.get_only]

/-- Making the root absolute changes that directory only, and in the same way for the same root. -/
private theorem get_rooted {c c' : Config} (dir : Path) (h : k.get c' = k.get c) :
    k.get (rooted dir c') = k.get (rooted dir c) := by
  cases k with
  | directory p =>
    cases p with
    | projectRoot => exact congrArg (Option.map dir.absoluteFrom) h
    | _ => exact h
  | _ => exact h

private theorem load_decided {i : Inputs} {loaded : LoadedConfig} (hi : i.OnlySettings) (h : i.load = .ok loaded) :
    ∃ c, loaded.config = rooted i.dir c ∧ ∀ k, Decided k (i.given k) c := by
  obtain ⟨l, hl, h⟩ := bind_eq_ok h
  obtain ⟨c, hc, h⟩ := bind_eq_ok h
  obtain rfl := Except.ok.inj h
  refine ⟨c, rfl, fun k => ?_⟩
  unfold Loader.build at hc
  cases hdec : l.decoded i.tree i.cwd i.environment with
  | error e =>
    rw [hdec] at hc
    cases hc
  | ok c' =>
    rw [hdec] at hc
    obtain ⟨_, -, hc⟩ := bind_eq_ok hc
    obtain rfl := Except.ok.inj hc
    obtain ⟨top, htop, hdec⟩ := bind_eq_ok hdec
    obtain ⟨hs, hat⟩ := merged_ok hi hl htop
    have htaken := ofValue_ok hs (mapError_eq_ok.1 hdec) k
    rw [hat k] at htaken
    have hlast := taken_last htaken
    rw [lastOf_values] at hlast
    unfold Decided
    cases hg : i.given k with
    | none =>
      rw [hg] at hlast
      exact hlast
    | some v =>
      rw [hg] at hlast
      exact ofValue_alone hlast

/-- A configuration that is loaded has each setting as if the value of the highest layer that gives it had been given
alone, so that it is the same whenever that value is the same, and a source for one setting changes no other. -/
theorem load_layered (i : Inputs) (loaded : LoadedConfig) (hi : i.OnlySettings) (h : i.load = .ok loaded) :
    (∃ c, loaded.config = rooted i.dir c ∧ ∀ k, Decided k (i.given k) c) ∧
      ∀ (i' : Inputs) (loaded' : LoadedConfig), i'.OnlySettings → i'.load = .ok loaded' →
        (i'.dir = i.dir → ∀ k, i'.given k = i.given k → k.get loaded'.config = k.get loaded.config) ∧
        ∀ j, i.Adds j i' → ∀ k ≠ j, k.get loaded'.config = k.get loaded.config := by
  obtain ⟨c, hc, hdec⟩ := load_decided hi h
  refine ⟨⟨c, hc, hdec⟩, fun i' loaded' hi' h' => ?_⟩
  -- both runs decide each setting from what is given for it
  obtain ⟨c', hc', hdec'⟩ := load_decided hi' h'
  have hsame : i'.dir = i.dir → ∀ k, i'.given k = i.given k → k.get loaded'.config = k.get loaded.config := by
    intro hdir k hk
    rw [hc, hc', hdir]
    refine get_rooted i.dir ((hdec k).unique ?_)
    rw [← hk]
    exact hdec' k
  refine ⟨hsame, fun j hadds k hk => hsame ?_ k (hadds.given hk)⟩
  cases hadds <;> rfl

/-- A project with values for the same settings in several layers. -/
def Inputs.sample : Inputs where
  tree := .ofEntries [([encode "p"], .directory),
    ([encode "p", encode "scp-build.toml"], .file (encode "[gradle]\nconsole='rich'\nargs=['a']") false),
    ([encode "p", encode "ci.toml"], .file (encode "[gradle]\nargs=['b']") false)]
  cwd := [encode "p"]
  environment := [("SCP_BUILD_GRADLE__ARGS", encode "c")]
  options := { configs := [.ofText "ci.toml"], logLevel := some 4, settings := [" gradle/args = d", "gradle.args=e f"] }
  dir := .ofText "/p"

/-- What is loaded there. -/
def Inputs.loadedSample (dry : Bool) : LoadedConfig where
  config :=
    { globals := { dry, outputLogLevel := .debug }
      paths := { projectRoot := some (.ofText "/p") }
      gradle := { console := .rich, args := ["e", "f"] } }
  files := [.ofText "/p/scp-build.toml", .ofText "/p/ci.toml"]

theorem load_layered_sample :
    (∃ c, (Inputs.loadedSample false).config = rooted Inputs.sample.dir c ∧
      ∀ k, Decided k (Inputs.sample.given k) c) ∧
    ∀ k ≠ Setting.dry, k.get (Inputs.loadedSample true).config = k.get (Inputs.loadedSample false).config := by
  obtain ⟨hdecided, hsame⟩ := load_layered .sample (Inputs.loadedSample false) (by decide +kernel) (by decide +kernel)
  have hdry := hsame { Inputs.sample with options.dry := true } (Inputs.loadedSample true) (by decide +kernel)
    (by decide +kernel)
  exact ⟨hdecided, hdry.2 .dry .dry⟩

end GradleBuild.Config
