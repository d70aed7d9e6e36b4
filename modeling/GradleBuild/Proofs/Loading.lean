import GradleBuild.Proofs.Layering

/-!
# Loading as assignments

Every layer of a run comes down to assignments of values to keys, whatever it holds.  Those of the overrides come last,
so what the other layers make of theirs is the same for any overrides.

* `merge_eq`: the fields of a source as assignments.
* `applyOverrides_eq_ok`, `loaderFor_eq_ok`: the loader of a run whose overrides can all be read.
* `merged_eq`, `base_eq`: the overrides over what the other layers make, and the variables over what the files make.
* `Inputs.base_gathered`, `base_layers`: the layers below the overrides one after another.
* `merged_eq_assignments`, `build_eq_ok`: the layers of any loader as assignments, and what it builds of them.
* `load_eq`, `load_eq_ok`: what is loaded, and what must hold for that.
-/

namespace GradleBuild.Config

variable {i : Inputs} {loaded : LoadedConfig} {k : Key} {v : Value} {l l' : Loader} {entry : String}
  {entries : List String} {a : Key × Value} {environment : Environment} {pairs overrides : List (Key × Value)}

/-! ### Assignments -/

/-- What the fields of a source assign. -/
def assigned (fields : Fields) : List (Key × Value) := fields.map fun (name, v) => (Key.readOrLiteral name, v)

theorem merge_eq (fields : Fields) (top : Value) :
    Loader.merge fields top = Loader.assignAll (assigned fields) top := by
  unfold Loader.merge Loader.assignAll assigned
  rw [List.foldl_map]

theorem assigned_append (fields fields' : Fields) :
    assigned (fields ++ fields') = assigned fields ++ assigned fields' := List.map_append

theorem assignAll_append (pairs pairs' : List (Key × Value)) (top : Value) :
    Loader.assignAll (pairs ++ pairs') top = Loader.assignAll pairs' (Loader.assignAll pairs top) := List.foldl_append

/-- What an override assigns, if it can be read. -/
def override? (entry : String) : Option (Key × Value) :=
  match Loader.splitOverride entry with
  | .ok (key, value) => (Key.read? key).map fun k => (k, Loader.overrideValue key value)
  | .error _ => none

theorem exists_overrideValue (h : override? entry = some a) : ∃ key value, a.2 = Loader.overrideValue key value := by
  unfold override? at h
  split at h
  · obtain ⟨k, -, rfl⟩ := Option.map_eq_some_iff.1 h
    exact ⟨_, _, rfl⟩
  · cases h

/-- An override for a setting assigns its value, however it is written. -/
theorem override?_spelled {before after : String} {separator : Char} (hb : isAllBlank before = true)
    (hs : separator ∈ ['.', '/']) (ha : isAllBlank after = true) (k : Setting) (value : String) :
    override? (k.spelled before separator after value) = some (k.key, Loader.overrideValue k.text (trim value)) := by
  unfold override?
  rw [splitOverride_spelled hb hs ha]
  simp only [read?_text, Option.map_some]

/-- The name of the variable for a setting. -/
def Setting.variableName (k : Setting) : String :=
  environmentPrefix ++ "_" ++ String.ofList ((k.title ++ "__" ++ k.name).toList.map Char.toUpper)

/-- A variable for a setting gives what its text is taken for. -/
theorem ofVariable_setting (k : Setting) (s : String) : ofVariable environmentPrefix k.variableName (encode s) =
    .ok (some (k.text, guess k.text s)) := by
  have hall : ∀ k ∈ Setting.all, (dropStart? (lowercase (environmentPrefix ++ "_")).toList
      (lowercase k.variableName).toList).map (fun rest => String.ofList (dotted rest)) = some k.text := by
    decide +kernel
  obtain ⟨rest, hrest, htext⟩ := Option.map_eq_some_iff.1 (hall k k.mem_all)
  unfold ofVariable
  simp only [hrest, decode?_encode, htext]

theorem overlay_guess (key s : String) (old : Value) : Key.overlay (guess key s) old = guess key s := by
  unfold guess
  dsimp only
  repeat' split
  all_goals simp only [Key.overlay]

theorem ofEnvironment_insert {start : String} {before after : Environment} {x : String × Bytes}
    {y : String × Value} {pairs : List (String × Value)} (h : ofEnvironment start (before ++ after) = .ok pairs)
    (hx : ofVariable start x.1 x.2 = .ok (some y)) :
    ∃ front back, pairs = front ++ back ∧ ofEnvironment start (before ++ x :: after) = .ok (front ++ y :: back) := by
  unfold ofEnvironment at h
  obtain ⟨values, hvalues, h⟩ := bind_eq_ok h
  obtain rfl := Except.ok.inj h
  rw [List.mapM_append] at hvalues
  obtain ⟨front, hfront, hvalues⟩ := bind_eq_ok hvalues
  obtain ⟨back, hback, hvalues⟩ := bind_eq_ok hvalues
  obtain rfl := Except.ok.inj hvalues
  refine ⟨front.filterMap id, back.filterMap id, List.filterMap_append, ?_⟩
  unfold ofEnvironment
  rw [List.mapM_append, hfront, List.mapM_cons, hback]
  simp [hx, bind, Except.bind, pure, Except.pure]

/-- Assignments one after another, each in the place of an earlier one to the same key. -/
def assignEach (pairs overrides : List (Key × Value)) : List (Key × Value) :=
  pairs.foldl (fun overrides (k, v) => Loader.assign k v overrides) overrides

theorem mem_assign (h : a ∈ Loader.assign k v pairs) : a = (k, v) ∨ a ∈ pairs := by
  induction pairs with
  | nil => exact Or.inl (List.mem_singleton.1 h)
  | cons b rest ih =>
    obtain ⟨j, w⟩ := b
    by_cases hj : j = k
    · rw [Loader.assign, if_pos hj] at h
      rcases List.mem_cons.1 h with rfl | h
      · exact Or.inl (by rw [hj])
      · exact Or.inr (List.mem_cons_of_mem _ h)
    · rw [Loader.assign, if_neg hj] at h
      rcases List.mem_cons.1 h with rfl | h
      · exact Or.inr List.mem_cons_self
      · exact (ih h).imp_right (List.mem_cons_of_mem _)

theorem mem_assignEach (h : a ∈ assignEach pairs overrides) : a ∈ pairs ∨ a ∈ overrides := by
  induction pairs generalizing overrides with
  | nil => exact Or.inr h
  | cons b pairs ih =>
    rcases ih h with h | h
    · exact Or.inl (List.mem_cons_of_mem _ h)
    · rcases mem_assign h with rfl | h
      · exact Or.inl List.mem_cons_self
      · exact Or.inr h

/-- No key is lost by an assignment, and its own is there then. -/
theorem key_mem_assign (v : Value) (h : a.1 = k ∨ a.1 ∈ overrides.map Prod.fst) :
    a.1 ∈ (Loader.assign k v overrides).map Prod.fst := by
  induction overrides with
  | nil =>
    rcases h with h | h
    · exact List.mem_singleton.2 h
    · cases h
  | cons b rest ih =>
    obtain ⟨j, w⟩ := b
    by_cases hj : j = k
    · rw [Loader.assign, if_pos hj]
      rcases h with h | h
      · rw [h, ← hj]
        exact List.mem_cons_self
      · exact h
    · rw [Loader.assign, if_neg hj]
      rcases h with h | h
      · exact List.mem_cons_of_mem _ (ih (Or.inl h))
      · rcases List.mem_cons.1 h with h | h
        · rw [h]
          exact List.mem_cons_self
        · exact List.mem_cons_of_mem _ (ih (Or.inr h))

theorem key_mem_assignEach (h : a ∈ pairs ∨ a.1 ∈ overrides.map Prod.fst) :
    a.1 ∈ (assignEach pairs overrides).map Prod.fst := by
  induction pairs generalizing overrides with
  | nil => exact h.resolve_left List.not_mem_nil
  | cons b pairs ih =>
    refine ih ?_
    rcases h with h | h
    · rcases List.mem_cons.1 h with rfl | h
      · exact Or.inr (key_mem_assign _ (Or.inl rfl))
      · exact Or.inl h
    · exact Or.inr (key_mem_assign _ (Or.inr h))

/-! ### The loader -/

private theorem applyOverride_eq_ok : l.applyOverride entry = .ok l' ↔
    ∃ a, override? entry = some a ∧ l' = { l with overrides := Loader.assign a.1 a.2 l.overrides } := by
  unfold Loader.applyOverride override?
  cases hsplit : Loader.splitOverride entry with
  | error e =>
    constructor
    · rintro ⟨⟩
    · rintro ⟨_, ⟨⟩, -⟩
  | ok x =>
    obtain ⟨key, value⟩ := x
    show l.set key (Loader.overrideValue key value) = .ok l' ↔ _
    unfold Loader.set
    dsimp only
    cases hkey : Key.read? key with
    | none =>
      constructor
      · rintro ⟨⟩
      · rintro ⟨_, ⟨⟩, -⟩
    | some k =>
      constructor
      · intro h
        exact ⟨_, rfl, (Except.ok.inj h).symm⟩
      · rintro ⟨_, ha, rfl⟩
        obtain rfl := Option.some.inj ha
        rfl

/-- Overrides are applied if all can be read, and then each assigns its value. -/
theorem applyOverrides_eq_ok : l.applyOverrides entries = .ok l' ↔ (∀ e ∈ entries, (override? e).isSome = true) ∧
    l' = { l with overrides := assignEach (entries.filterMap override?) l.overrides } := by
  induction entries generalizing l with
  | nil =>
    constructor
    · intro h
      exact ⟨fun _ he => absurd he List.not_mem_nil, (Except.ok.inj h).symm⟩
    · rintro ⟨-, rfl⟩
      rfl
  | cons e entries ih =>
    constructor
    · intro h
      obtain ⟨l₁, h₁, hrest⟩ := bind_eq_ok h
      obtain ⟨a, ha, rfl⟩ := applyOverride_eq_ok.1 h₁
      obtain ⟨hread, rfl⟩ := ih.1 hrest
      refine ⟨fun e' he' => ?_, ?_⟩
      · rcases List.mem_cons.1 he' with rfl | he'
        · rw [ha]
          rfl
        · exact hread e' he'
      · rw [List.filterMap_cons_some ha]
        rfl
    · rintro ⟨hread, hl⟩
      obtain ⟨a, ha⟩ := Option.isSome_iff_exists.1 (hread e (by simp))
      rw [List.filterMap_cons_some ha] at hl
      show (l.applyOverride e >>= fun l => l.applyOverrides entries) = _
      rw [applyOverride_eq_ok.2 ⟨a, ha, rfl⟩]
      show Loader.applyOverrides { l with overrides := Loader.assign a.1 a.2 l.overrides } entries = _
      exact ih.2 ⟨fun e' he' => hread e' (List.mem_cons_of_mem _ he'), hl⟩

/-- Whether all overrides of a run can be read. -/
def Inputs.Readable (i : Inputs) : Prop := ∀ e ∈ i.options.overrides, (override? e).isSome = true

/-- The overrides of the loader of a run. -/
def Inputs.overriding (i : Inputs) : List (Key × Value) :=
  let overrides := assignEach (i.options.overrides.filterMap override?) []
  match i.options.projectRoot with
  | some _ => Loader.assign (Setting.directory .projectRoot).key (.text i.root.display) overrides
  | none => overrides

theorem overriding_of_none (h : i.options.projectRoot = none) :
    i.overriding = assignEach (i.options.overrides.filterMap override?) [] := by
  unfold Inputs.overriding
  rw [h]

theorem overriding_of_some {p : Path} (h : i.options.projectRoot = some p) :
    i.overriding = Loader.assign (Setting.directory .projectRoot).key (.text i.root.display)
      (assignEach (i.options.overrides.filterMap override?) []) := by
  unfold Inputs.overriding
  rw [h]

theorem mem_overriding (h : a ∈ i.overriding) : a ∈ i.options.overrides.filterMap override? ∨
    a = ((Setting.directory .projectRoot).key, .text i.root.display) := by
  have heach {a : Key × Value} (h : a ∈ assignEach (i.options.overrides.filterMap override?) []) :
      a ∈ i.options.overrides.filterMap override? :=
    (mem_assignEach h).resolve_right List.not_mem_nil
  cases hroot : i.options.projectRoot with
  | none =>
    rw [overriding_of_none hroot] at h
    exact Or.inl (heach h)
  | some p =>
    rw [overriding_of_some hroot] at h
    exact (mem_assign h).symm.imp_left heach

theorem below_eq (i : Inputs) : i.below = {
    defaults := [((Setting.directory .projectRoot).key, .text i.root.display)]
    sources := i.projectSource :: i.options.configs.map i.fileSource
    environmentPrefix := some environmentPrefix
    overrides := []
    files := i.below.files } := by
  obtain ⟨hd, hs, ho⟩ := addFiles (Loader.addOptionalFile
    { defaults := [((Setting.directory .projectRoot).key, .text i.root.display)] } i.tree i.cwd
    (i.root.join (.ofText projectFile))) i.dir i.options.configs
  unfold Inputs.below Loader.withEnvironment
  rw [hd, hs, ho]
  rfl

/-- A run has a loader if its overrides can be read. -/
theorem loaderFor_eq_ok : loaderFor i.tree i.cwd i.options i.dir = .ok l ↔
    i.Readable ∧ l = { i.below with overrides := i.overriding } := by
  have hnone : i.below.overrides = [] := by rw [below_eq]
  rw [loaderFor_eq]
  constructor
  · intro h
    obtain ⟨l₁, h₁, h⟩ := bind_eq_ok h
    obtain ⟨hread, rfl⟩ := applyOverrides_eq_ok.1 h₁
    refine ⟨hread, ?_⟩
    rw [hnone] at h
    cases hroot : i.options.projectRoot with
    | none =>
      rw [hroot] at h
      rw [overriding_of_none hroot]
      exact (Except.ok.inj h).symm
    | some p =>
      rw [hroot] at h
      simp only [Loader.set, read?_rootKey] at h
      rw [overriding_of_some hroot]
      exact (Except.ok.inj h).symm
  · rintro ⟨hread, rfl⟩
    rw [applyOverrides_eq_ok.2 ⟨hread, rfl⟩, hnone]
    cases hroot : i.options.projectRoot with
    | none =>
      rw [overriding_of_none hroot]
      rfl
    | some p =>
      rw [overriding_of_some hroot]
      show Loader.set { i.below with overrides := assignEach (i.options.overrides.filterMap override?) [] }
        ("paths." ++ Place.projectRoot.key) (.text i.root.display) = _
      simp only [Loader.set, read?_rootKey]

/-! ### Building -/

/-- What the environment gives, if it is a source. -/
def Loader.fromEnvironment (l : Loader) (environment : Environment) : Except Problem Fields :=
  match l.environmentPrefix with
  | some start => ofEnvironment start environment
  | none => pure []

/-- What all layers of a loader assign, the lowest first. -/
def Loader.assignments (l : Loader) (t : Tree) (cwd : Location) (environment : Environment) :
    Except Problem (List (Key × Value)) := do
  let contents ← l.sources.mapM (Loader.collect t cwd)
  let values ← l.fromEnvironment environment
  return l.defaults ++ assigned contents.flatten ++ assigned values ++ l.overrides

private theorem foldlM_sources (t : Tree) (cwd : Location) (sources : List Source) (top : Value) :
    sources.foldlM (fun top s => do return Loader.merge (← Loader.collect t cwd s) top) top =
      (sources.mapM (Loader.collect t cwd)).map fun contents =>
        Loader.assignAll (assigned contents.flatten) top := by
  induction sources generalizing top with
  | nil => rfl
  | cons s sources ih =>
    rw [List.foldlM_cons, List.mapM_cons]
    cases Loader.collect t cwd s with
    | error e => rfl
    | ok fields =>
      show sources.foldlM _ (Loader.merge fields top) = _
      rw [ih, merge_eq]
      cases sources.mapM (Loader.collect t cwd) with
      | error e => rfl
      | ok contents =>
        show Except.ok (Loader.assignAll (assigned contents.flatten) (Loader.assignAll (assigned fields) top)) =
          .ok (Loader.assignAll (assigned (fields ++ contents.flatten)) top)
        rw [assigned_append, assignAll_append]

/-- The layers in one are their assignments one after another. -/
theorem merged_eq_assignments (l : Loader) (t : Tree) (cwd : Location) (environment : Environment) :
    l.merged t cwd environment =
      (l.assignments t cwd environment).map fun pairs => Loader.assignAll pairs (.table none []) := by
  unfold Loader.merged Loader.assignments Loader.fromEnvironment
  dsimp only
  rw [foldlM_sources]
  cases l.sources.mapM (Loader.collect t cwd) with
  | error e => rfl
  | ok contents =>
    cases l.environmentPrefix with
    | none =>
      show Except.ok _ = Except.ok (Loader.assignAll (l.defaults ++ assigned contents.flatten ++ [] ++ l.overrides) _)
      rw [List.append_nil, assignAll_append, assignAll_append]
    | some start =>
      dsimp only
      cases ofEnvironment start environment with
      | error e => rfl
      | ok pairs =>
        show Except.ok _ =
          Except.ok (Loader.assignAll (l.defaults ++ assigned contents.flatten ++ assigned pairs ++ l.overrides) _)
        rw [assignAll_append, assignAll_append, assignAll_append, ← merge_eq]

theorem assignments_eq_ok {t : Tree} {cwd : Location} :
    l.assignments t cwd environment = .ok pairs ↔ ∃ contents values,
      l.sources.mapM (Loader.collect t cwd) = .ok contents ∧ l.fromEnvironment environment = .ok values ∧
      pairs = l.defaults ++ assigned contents.flatten ++ assigned values ++ l.overrides := by
  constructor
  · intro h
    obtain ⟨contents, hcontents, h⟩ := bind_eq_ok h
    obtain ⟨values, hvalues, h⟩ := bind_eq_ok h
    exact ⟨contents, values, hcontents, hvalues, (Except.ok.inj h).symm⟩
  · rintro ⟨contents, values, hcontents, hvalues, rfl⟩
    unfold Loader.assignments
    rw [hcontents, hvalues]
    rfl

theorem build_eq_ok {t : Tree} {cwd : Location} {environment : Environment} {c : Config} :
    l.build t cwd environment = .ok c ↔ ∃ pairs, l.assignments t cwd environment = .ok pairs ∧
      ofValue (Loader.assignAll pairs (.table none [])) = .ok c ∧ c.validate = .ok () := by
  unfold Loader.build Loader.decoded
  rw [merged_eq_assignments]
  cases hpairs : l.assignments t cwd environment with
  | error e =>
    constructor
    · rintro ⟨⟩
    · rintro ⟨_, ⟨⟩, -⟩
  | ok pairs =>
    simp only [Except.map, bind, Except.bind]
    cases hc : ofValue (Loader.assignAll pairs (.table none [])) with
    | error e =>
      constructor
      · rintro ⟨⟩
      · rintro ⟨_, ⟨⟩, hvalue, -⟩
        rw [hc] at hvalue
        cases hvalue
    | ok c' =>
      constructor
      · intro h
        obtain ⟨_, hvalid, h⟩ := bind_eq_ok h
        obtain rfl := Except.ok.inj h
        exact ⟨pairs, rfl, hc, hvalid⟩
      · rintro ⟨_, ⟨⟩, hvalue, hvalid⟩
        rw [hc] at hvalue
        obtain rfl := Except.ok.inj hvalue
        show (c'.validate >>= fun _ => .ok c') = _
        rw [hvalid]
        rfl

/-! ### Loading -/

/-- The overrides of a loader go over what its other layers make. -/
theorem merged_eq (l : Loader) (overrides : List (Key × Value)) (t : Tree) (cwd : Location)
    (environment : Environment) : { l with overrides }.merged t cwd environment =
      ({ l with overrides := [] }.merged t cwd environment).map (Loader.assignAll overrides) := by
  unfold Loader.merged
  dsimp only
  cases l.sources.foldlM (fun top s => do return Loader.merge (← Loader.collect t cwd s) top)
      (Loader.assignAll l.defaults (.table none [])) with
  | error => rfl
  | ok top =>
    cases l.environmentPrefix with
    | none => rfl
    | some start =>
      cases hpairs : ofEnvironment start environment <;> simp [hpairs, bind, Except.bind, Except.map, pure, Except.pure,
        Loader.assignAll]

/-- What the layers below the overrides make. -/
def Inputs.base (i : Inputs) : Except Problem Value := i.below.merged i.tree i.cwd i.environment

/-- What the sources below the overrides assign, the lowest first, as far as they can be read: the project's own file,
the files of the command line and the environment. -/
def Inputs.lowerLayers (i : Inputs) : List (List (Key × Value)) :=
  (i.projectSource :: i.options.configs.map i.fileSource).map (fun s => assigned (contents i.tree i.cwd s))
    ++ [assigned (i.environment.filterMap assignment?)]

/-- Sources that can be read give their contents. -/
theorem collect_contents {t : Tree} {cwd : Location} {sources : List Source} {found : List Fields}
    (h : sources.mapM (Loader.collect t cwd) = .ok found) : found = sources.map (contents t cwd) := by
  induction sources generalizing found with
  | nil => exact (Except.ok.inj h).symm
  | cons s sources ih =>
    rw [List.mapM_cons] at h
    obtain ⟨fields, hfields, h⟩ := bind_eq_ok h
    obtain ⟨rest, hrest, h⟩ := bind_eq_ok h
    obtain rfl := Except.ok.inj h
    have hcontents : contents t cwd s = fields := by simp [contents, hfields, Except.toOption]
    rw [List.map_cons, hcontents, ih hrest]

/-- What the maps of a run hold, the lowest first: the project's own file, the files of the command line and the
environment. -/
def Inputs.gathered (i : Inputs) : Except Problem (List Fields) := do
  let found ← (i.projectSource :: i.options.configs.map i.fileSource).mapM (Loader.collect i.tree i.cwd)
  let values ← ofEnvironment environmentPrefix i.environment
  return found ++ [values]

/-- The lookup root as a default, which all layers go over. -/
def Inputs.defaults (i : Inputs) : Value :=
  Loader.assignAll [((Setting.directory .projectRoot).key, .text i.root.display)] (.table none [])

theorem Inputs.lowerLayers_gathered {found : List Fields} (h : i.gathered = .ok found) :
    found.map assigned = i.lowerLayers := by
  obtain ⟨found, hfound, h⟩ := bind_eq_ok h
  obtain ⟨values, hvalues, h⟩ := bind_eq_ok h
  obtain rfl := Except.ok.inj h
  obtain rfl := collect_contents hfound
  obtain rfl := ofEnvironment_ok hvalues
  unfold lowerLayers
  rw [List.map_append, List.map_map]
  rfl

/-- The layers below the overrides, one after another in the order in which they were filled. -/
theorem Inputs.base_gathered (i : Inputs) : i.base = i.gathered.map fun found =>
    Loader.assignAll (found.map assigned).flatten i.defaults := by
  have hflatten (found : List Fields) : assigned found.flatten = (found.map assigned).flatten := List.map_flatten
  unfold Inputs.base gathered
  rw [merged_eq_assignments, below_eq]
  unfold Loader.assignments Loader.fromEnvironment
  dsimp only
  cases (i.projectSource :: i.options.configs.map i.fileSource).mapM (Loader.collect i.tree i.cwd) with
  | error => rfl
  | ok found =>
    dsimp only [bind, Except.bind]
    cases ofEnvironment environmentPrefix i.environment with
    | error => rfl
    | ok values =>
      show Except.ok (Loader.assignAll (_ ++ assigned found.flatten ++ assigned values ++ []) _) =
        .ok (Loader.assignAll ((found ++ [values]).map assigned).flatten _)
      rw [hflatten, List.map_append, List.flatten_append, List.map_singleton, List.flatten_singleton, List.append_nil,
        List.append_assoc, assignAll_append]
      rfl

/-- The layers below the overrides go over the default for the root, one after another. -/
theorem base_layers {base : Value} (h : i.base = .ok base) : base = Loader.assignAll
    (((Setting.directory .projectRoot).key, .text i.root.display) :: i.lowerLayers.flatten) (.table none []) := by
  rw [i.base_gathered] at h
  cases hfound : i.gathered with
  | error =>
    rw [hfound] at h
    cases h
  | ok found =>
    rw [hfound] at h
    obtain rfl := Except.ok.inj h
    show Loader.assignAll (found.map assigned).flatten i.defaults = _
    rw [Inputs.lowerLayers_gathered hfound]
    rfl

/-- What the files of a run make of the lookup root. -/
def Inputs.ofFiles (i : Inputs) : Except Problem Value :=
  (i.projectSource :: i.options.configs.map i.fileSource).foldlM
    (fun top s => do return Loader.merge (← Loader.collect i.tree i.cwd s) top)
    (Loader.assignAll [((Setting.directory .projectRoot).key, .text i.root.display)] (.table none []))

/-- The variables go over what the files make. -/
theorem base_eq (i : Inputs) : i.base = (do
    let top ← i.ofFiles
    let pairs ← ofEnvironment environmentPrefix i.environment
    return Loader.merge pairs top) := by
  unfold Inputs.base Loader.merged
  rw [below_eq]
  rfl

private theorem merged_overriding (i : Inputs) :
    { i.below with overrides := i.overriding }.merged i.tree i.cwd i.environment =
      i.base.map (Loader.assignAll i.overriding) := by
  have hnone : { i.below with overrides := [] } = i.below := by rw [below_eq]
  rw [merged_eq, hnone]
  rfl

/-- What a run with overrides that can be read loads. -/
theorem load_eq (h : i.Readable) : i.load =
    match i.base >>= fun base => (ofValue (Loader.assignAll i.overriding base)).mapError .value with
    | .error problem =>
      .error (.unreadableConfig (String.intercalate ", " (i.below.files.map Path.display)) problem.message)
    | .ok c => do
      c.validate
      return ⟨rooted i.dir c, i.below.files⟩ := by
  have hdecoded : { i.below with overrides := i.overriding }.decoded i.tree i.cwd i.environment =
      i.base >>= fun base => (ofValue (Loader.assignAll i.overriding base)).mapError .value := by
    unfold Loader.decoded
    rw [merged_overriding]
    cases i.base <;> rfl
  unfold Inputs.load Config.load
  rw [loaderFor_eq_ok.2 ⟨h, rfl⟩]
  show (Loader.build { i.below with overrides := i.overriding } _ _ _ >>= _) = _
  unfold Loader.build
  rw [hdecoded]
  cases i.base >>= fun base => (ofValue (Loader.assignAll i.overriding base)).mapError .value with
  | error => rfl
  | ok c => cases hvalid : c.validate <;> simp [hvalid, bind, Except.bind, pure, Except.pure, rooted]

/-- What must hold for a configuration to be loaded. -/
theorem load_eq_ok (h : i.load = .ok loaded) : i.Readable ∧ ∃ base c, i.base = .ok base ∧
    ofValue (Loader.assignAll i.overriding base) = .ok c ∧ c.validate = .ok () ∧
    loaded = ⟨rooted i.dir c, i.below.files⟩ := by
  obtain ⟨l, hl, -⟩ := bind_eq_ok h
  obtain ⟨hread, -⟩ := loaderFor_eq_ok.1 hl
  refine ⟨hread, ?_⟩
  rw [load_eq hread] at h
  cases hbase : i.base >>= fun base => (ofValue (Loader.assignAll i.overriding base)).mapError .value with
  | error =>
    rw [hbase] at h
    cases h
  | ok c =>
    rw [hbase] at h
    obtain ⟨base, hb, hvalue⟩ := bind_eq_ok hbase
    obtain ⟨_, hvalid, hl⟩ := bind_eq_ok h
    exact ⟨base, c, hb, mapError_eq_ok.1 hvalue, hvalid, (Except.ok.inj hl).symm⟩

end GradleBuild.Config
