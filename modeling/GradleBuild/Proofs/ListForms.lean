import GradleBuild.Proofs.OneSetting

/-!
# The two forms of a list

The arguments for Gradle are a list.  An override gives them as its words; a variable gives them as the parts of its
text between single spaces, unless the text looks like a truth value or a number.

* `load_listForms`: what is loaded with either form, and when both give the same.
* `load_listForms_differ`: a number is a list of one word for an override, and no list for a variable.
-/

namespace GradleBuild.Config

open Key (overlay)

variable {i : Inputs} {loaded : LoadedConfig} {c : Config} {k : Key} {v base base' : Value} {s : String}
  {a : Key × Value}

/-! ### Assignments that reach the arguments -/

/-- Whether an assignment to a key may reach the arguments. -/
def reachesArguments (k : Key) : Bool :=
  k.name == "gradle" && match k.steps with
    | .child name :: _ => name == "args"
    | _ => true

private theorem touches_of_not_reaches (h : reachesArguments k = false) (w : Value) :
    touches .arguments k w = false := by
  obtain ⟨title, steps⟩ := k
  unfold reachesArguments at h
  unfold touches
  by_cases ht : title = "gradle"
  · rw [ht, beq_self_eq_true, Bool.true_and] at h
    match steps with
    | [] | .index _ :: _ => cases h
    | .child name :: steps =>
      rw [Bool.and_eq_false_iff]
      exact Or.inr h
  · simp [Setting.title, ht]

/-! ### The two forms -/

/-- One more override, which gives the arguments as a text; it comes behind the first `n` others. -/
def Inputs.withOverride (i : Inputs) (n : Nat) (s : String) : Inputs :=
  let settings := i.options.settings
  { i with options.settings := settings.take n ++ ("gradle.args=" ++ s) :: settings.drop n }

/-- One more variable, which does the same. -/
def Inputs.withVariable (i : Inputs) (n : Nat) (s : String) : Inputs :=
  { i with environment := i.environment.take n ++ ("SCP_BUILD_GRADLE__ARGS", encode s) :: i.environment.drop n }

/-- No variable and no override reaches the arguments. -/
structure Inputs.LeavesArguments (i : Inputs) : Prop where
  fromVariables : ∀ a ∈ assigned (i.environment.filterMap assignment?), reachesArguments a.1 = false
  fromOverrides : ∀ a ∈ i.options.overrides.filterMap override?, reachesArguments a.1 = false

/-- What stands between single spaces. -/
def spaced (s : String) : List String := (pieces (· == ' ') s.toList).map String.ofList

/-- Whether a text is taken for a truth value or a number. -/
def looksScalar (s : String) : Bool :=
  lowercase s = "true" || lowercase s = "false" || (readInt64? s).isSome || (Binary64.read? s).isSome

/-- What is loaded, but for the arguments. -/
def withArguments (l : LoadedConfig) (args : List String) : LoadedConfig :=
  { l with config.gradle.args := args }

private theorem override?_arguments (s : String) : override? ("gradle.args=" ++ s) =
    some (Setting.arguments.key, .list none ((words s).map .text)) := by
  have hspelled : "gradle.args=" ++ s = Setting.arguments.spelled "" '.' "" s := by
    have hkey : "gradle.args=" = "" ++ ("gradle" ++ String.singleton '.' ++ "args") ++ "" ++ "=" := by decide
    rw [hkey]
    rfl
  have hlist : listKeys.contains Setting.arguments.text = true := by decide
  rw [hspelled, override?_spelled (by decide) (by decide) (by decide)]
  simp only [Loader.overrideValue, hlist, if_true, words_trim]

private theorem guess_arguments (s : String) : (looksScalar s = true ∧ ∃ x, guess "gradle.args" s =
      .scalar (some environmentOrigin) x) ∨
    looksScalar s = false ∧ guess "gradle.args" s = .list (some environmentOrigin)
      ((spaced s).map fun w => .scalar (some environmentOrigin) (.text w)) := by
  have hlist : listKeys.contains "gradle.args" = true := by decide
  unfold guess looksScalar
  dsimp only
  by_cases htrue : lowercase s = "true"
  · exact Or.inl ⟨by simp [htrue], _, if_pos htrue⟩
  by_cases hfalse : lowercase s = "false"
  · exact Or.inl ⟨by simp [hfalse], _, by rw [if_neg htrue, if_pos hfalse]⟩
  rw [if_neg htrue, if_neg hfalse]
  cases hint : readInt64? s with
  | some n => exact Or.inl ⟨by simp, _, rfl⟩
  | none =>
    cases hfloat : Binary64.read? s with
    | some x => exact Or.inl ⟨by simp, _, rfl⟩
    | none =>
      refine Or.inr ⟨by simp [htrue, hfalse], ?_⟩
      simp only [hlist, if_true, spaced, List.map_map]
      rfl

private theorem ofVariable_arguments (s : String) :
    ofVariable environmentPrefix "SCP_BUILD_GRADLE__ARGS" (encode s) =
      .ok (some ("gradle.args", guess "gradle.args" s)) := ofVariable_setting .arguments s

private theorem wantTexts_from (o : Option String) (ws : List String) (n : Nat) :
    ((ws.map fun w => Value.scalar o (.text w)).zipIdx n).mapM (fun (v, i) => inStep (.index i) (wantText v)) =
      .ok ws := by
  induction ws generalizing n with
  | nil => rfl
  | cons w ws ih =>
    rw [List.map_cons, List.zipIdx_cons, List.mapM_cons, ih (n + 1)]
    rfl

/-- A list of texts is taken as it is. -/
theorem wantTexts_list (o o' : Option String) (ws : List String) :
    wantTexts (.list o (ws.map fun w => .scalar o' (.text w))) = .ok ws := wantTexts_from o' ws 0

/-! ### Runs with one more source -/

private theorem exists_overrides (i : Inputs) (n : Nat) (s : String) : ∃ before after,
    i.options.overrides = before ++ after ∧
      (i.withOverride n s).options.overrides = before ++ ("gradle.args=" ++ s) :: after := by
  refine ⟨i.options.settings.take n, i.options.settings.drop n ++ { i.options with settings := [] }.overrides, ?_, ?_⟩
  · rw [← List.append_assoc, List.take_append_drop]
    simp [Options.overrides]
  · simp [Options.overrides, Inputs.withOverride]
    rfl

private theorem readable_withOverride (i : Inputs) (n : Nat) (s : String) :
    (i.withOverride n s).Readable ↔ i.Readable := by
  obtain ⟨before, after, he, he'⟩ := exists_overrides i n s
  unfold Inputs.Readable
  rw [he, he']
  simp only [List.mem_append, List.mem_cons]
  constructor
  · intro h e hmem
    exact h e (hmem.imp_right Or.inr)
  · rintro h e (hmem | rfl | hmem)
    · exact h e (Or.inl hmem)
    · rw [override?_arguments]
      rfl
    · exact h e (Or.inr hmem)

private theorem untouched_overriding (hi : i.LeavesArguments) (h : a ∈ i.overriding) :
    touches .arguments a.1 a.2 = false := by
  rcases mem_overriding h with h | rfl
  · exact touches_of_not_reaches (hi.fromOverrides a h) a.2
  · rfl

/-- One more override for the arguments is one more assignment of the loader. -/
private theorem inserted_withOverride (hi : i.LeavesArguments) (n : Nat) (s : String) :
    Inserted (Setting.arguments.key, .list none ((words s).map .text)) i.overriding
      (i.withOverride n s).overriding := by
  obtain ⟨before, after, he, he'⟩ := exists_overrides i n s
  exact inserted_overriding he he' (override?_arguments s) rfl (by decide) fun _ ha =>
    ne_key_of_touches (untouched_overriding hi ha)

/-- What the layers make with one more variable for the arguments. -/
private theorem base_withVariable (hi : i.LeavesArguments) (h : i.base = .ok base) (n : Nat) (s : String) :
    ∃ base', (i.withVariable n s).base = .ok base' ∧ Given .arguments (guess "gradle.args" s) base base' := by
  rw [base_eq] at h ⊢
  obtain ⟨top, htop, h⟩ := bind_eq_ok h
  obtain ⟨pairs, hpairs, h⟩ := bind_eq_ok h
  obtain rfl := Except.ok.inj h
  have hreach : ∀ a ∈ assigned pairs, reachesArguments a.1 = false := by
    rw [ofEnvironment_ok hpairs]
    exact hi.fromVariables
  rw [← List.take_append_drop n i.environment] at hpairs
  obtain ⟨front, back, rfl, hpairs'⟩ :=
    ofEnvironment_insert (x := ("SCP_BUILD_GRADLE__ARGS", encode s)) hpairs (ofVariable_arguments s)
  have hfiles : (i.withVariable n s).ofFiles = .ok top := htop
  refine ⟨Loader.merge (front ++ ("gradle.args", guess "gradle.args" s) :: back) top, ?_, ?_⟩
  · rw [hfiles]
    show (ofEnvironment environmentPrefix
      (i.environment.take n ++ ("SCP_BUILD_GRADLE__ARGS", encode s) :: i.environment.drop n) >>= _) = _
    rw [hpairs']
    rfl
  -- the variables before it make the same as without it, and those after it do not reach the arguments
  · have hkey : Key.readOrLiteral "gradle.args" = Setting.arguments.key := by decide
    have hcons : assigned (("gradle.args", guess "gradle.args" s) :: back) =
        (Setting.arguments.key, guess "gradle.args" s) :: assigned back := by
      rw [← hkey]
      rfl
    rw [assigned_append] at hreach
    rw [merge_eq, merge_eq, assigned_append, assigned_append, hcons, assignAll_append, assignAll_append]
    exact (given_set (overlay_guess _ s) .arguments _).assignAll fun a ha =>
      touches_of_not_reaches (hreach a (List.mem_append_right _ ha)) a.2

/-! ### Loading with either form -/

private theorem validate_arguments (h : c.validate = .ok ()) (args : List String) :
    { c with gradle.args := args }.validate =
      if args.any isAllBlank then .error (.invalidValue "gradle" "args" "arguments must not be empty") else .ok () := by
  unfold validate at h ⊢
  split at h
  · cases h
  rename_i hwrapper
  split at h
  · cases h
  split at h
  · cases h
  rename_i hplaces
  rw [if_neg hwrapper]
  split
  · rfl
  · have hplaces' : (GradleBuild.Place.all.find? fun p =>
        ({ c with gradle.args := args }.paths.get p).any Path.isEmpty) = none := hplaces
    rw [hplaces']

/-- With some arguments, the sources of a run make a valid configuration. -/
structure Inputs.Makes (i : Inputs) (base : Value) (c : Config) : Prop where
  readable : i.Readable
  base_ok : i.base = .ok base
  decoded : ∃ v top, Given .arguments v (Loader.assignAll i.overriding base) top ∧ ofValue top = .ok c
  valid : c.validate = .ok ()

/-- What a run loads that differs in the arguments only. -/
private theorem Inputs.Makes.load {i' : Inputs} (h : i.Makes base c) (hread : i'.Readable)
    (hbase : i'.base = .ok base')
    (hgives : Given .arguments v (Loader.assignAll i.overriding base) (Loader.assignAll i'.overriding base')) :
    i'.load = match wantTexts v with
      | .error problem => .error (.unreadableConfig (String.intercalate ", " (i'.below.files.map Path.display))
          (Problem.value { problem with steps := .child "gradle" :: .child "args" :: problem.steps }).message)
      | .ok args =>
        if args.any isAllBlank then .error (.invalidValue "gradle" "args" "arguments must not be empty")
        else .ok (withArguments ⟨rooted i'.dir c, i'.below.files⟩ args) := by
  obtain ⟨_, top, htop, hc⟩ := h.decoded
  have hdecoded : (i'.base >>= fun base => (ofValue (Loader.assignAll i'.overriding base)).mapError .value) =
      ((inStep (.child "gradle") (inStep (.child "args") (wantTexts v))).map fun args =>
        { c with gradle.args := args }).mapError Problem.value := by
    have hvalue := ofValue_agree (htop.agree.symm.trans hgives.agree) (tabled_of_at? htop.own) hgives.own hc
    rw [hbase]
    show (ofValue (Loader.assignAll i'.overriding base')).mapError Problem.value = _
    rw [hvalue]
    rfl
  rw [load_eq hread, hdecoded]
  cases wantTexts v with
  | error problem => rfl
  | ok args =>
    show ({ c with gradle.args := args }.validate >>= _) = _
    rw [validate_arguments h.valid]
    dsimp only
    split <;> rfl

/-- The values of a run with one more override for the arguments. -/
private theorem gives_withOverride (hi : i.LeavesArguments) (n : Nat) (s : String) (base : Value) :
    Given .arguments (.list none ((words s).map .text)) (Loader.assignAll i.overriding base)
      (Loader.assignAll (i.withOverride n s).overriding base) := by
  refine (inserted_withOverride hi n s).given (fun old => ?_) (fun _ ha => untouched_overriding hi ha) base
  rw [overlay]

private theorem makes_of_load (hi : i.LeavesArguments) {n : Nat} (h : (i.withOverride n s).load = .ok loaded) :
    ∃ base c, i.Makes base c ∧ loaded = ⟨rooted i.dir c, i.below.files⟩ := by
  obtain ⟨hread, base, c, hbase, hc, hvalid, hloaded⟩ := load_eq_ok h
  have hread' := (readable_withOverride i n s).1 hread
  exact ⟨base, c, ⟨hread', hbase, ⟨_, _, gives_withOverride hi n s base, hc⟩, hvalid⟩, hloaded⟩

private theorem Inputs.Makes.load_withOverride (h : i.Makes base c) (hi : i.LeavesArguments) (n : Nat) (s : String) :
    (i.withOverride n s).load = .ok (withArguments ⟨rooted i.dir c, i.below.files⟩ (words s)) := by
  have hwords : wantTexts (.list none ((words s).map .text)) = .ok (words s) := wantTexts_list none none (words s)
  rw [h.load ((readable_withOverride i n s).2 h.readable) h.base_ok (gives_withOverride hi n s base), hwords]
  dsimp only
  rw [any_isAllBlank_words]
  rfl

/-- What is wrong with a text that is no list. -/
def notAList (s : String) : Problem :=
  .value ⟨[.child "gradle", .child "args"], .unexpected (scalarShape (guess "gradle.args" s)) "a sequence" none⟩

private theorem Inputs.Makes.load_withVariable (h : i.Makes base c) (hi : i.LeavesArguments) (n : Nat) (s : String) :
    (i.withVariable n s).load =
      if looksScalar s then
        .error (.unreadableConfig (String.intercalate ", " (i.below.files.map Path.display)) (notAList s).message)
      else if (spaced s).any isAllBlank then
        .error (.invalidValue "gradle" "args" "arguments must not be empty")
      else .ok (withArguments ⟨rooted i.dir c, i.below.files⟩ (spaced s)) := by
  obtain ⟨base', hbase', hgives⟩ := base_withVariable hi h.base_ok n s
  have hread : (i.withVariable n s).Readable := h.readable
  rw [h.load hread hbase' (hgives.assignAll fun _ ha => untouched_overriding hi ha)]
  -- the text is guessed at before it is decoded
  rcases guess_arguments s with ⟨hscalar, x, hguess⟩ | ⟨hscalar, hguess⟩
  · rw [if_pos hscalar, notAList, hguess]
    rfl
  · rw [if_neg (by simp [hscalar]), hguess, wantTexts_list]
    rfl

/-- With the other sources in order, an override gives its words as the arguments, whatever the text.  A variable gives
what stands between single spaces, unless it looks like a truth value or a number or some of this is blank.  So both
give the same just for a text of words with single spaces between them that is not taken for another kind of value. -/
theorem load_listForms (i : Inputs) (loaded : LoadedConfig) (m n p : Nat) (s : String) (hi : i.LeavesArguments)
    (h : (i.withOverride m "").load = .ok loaded) :
    (i.withOverride n s).load = .ok (withArguments loaded (words s)) ∧
      ((i.withVariable p s).load =
        if looksScalar s then
          .error (.unreadableConfig (String.intercalate ", " (loaded.files.map Path.display)) (notAList s).message)
        else if (spaced s).any isAllBlank then
          .error (.invalidValue "gradle" "args" "arguments must not be empty")
        else .ok (withArguments loaded (spaced s))) ∧
      ((i.withVariable p s).load = (i.withOverride n s).load ↔ looksScalar s = false ∧ spaced s = words s) := by
  obtain ⟨base, c, hmakes, rfl⟩ := makes_of_load hi h
  have hoverride := hmakes.load_withOverride hi n s
  have hvariable := hmakes.load_withVariable hi p s
  refine ⟨hoverride, hvariable, ?_⟩
  rw [hoverride, hvariable]
  constructor
  · intro heq
    split at heq
    · cases heq
    · rename_i hscalar
      split at heq
      · cases heq
      · have hargs := congrArg (fun l : LoadedConfig => l.config.gradle.args) (Except.ok.inj heq)
        exact ⟨by simpa using hscalar, hargs⟩
  · rintro ⟨hscalar, hspaced⟩
    rw [if_neg (by simp [hscalar]), hspaced, any_isAllBlank_words]
    rfl

/-- A project without anything to configure it from. -/
def Inputs.bare : Inputs where
  tree := .ofEntries [([encode "p"], .directory)]
  cwd := [encode "p"]
  environment := []
  options := {}
  dir := .ofText "/p"

/-- What is loaded there with some arguments. -/
def Inputs.loadedBare (args : List String) : LoadedConfig where
  config := { paths := { projectRoot := some (.ofText "/p") }, gradle := { args } }
  files := []

theorem load_listForms_plain : Inputs.bare.LeavesArguments ∧
    (Inputs.bare.withOverride 0 "").load = .ok (Inputs.loadedBare []) ∧
    (Inputs.bare.withVariable 0 "--info -q").load = (Inputs.bare.withOverride 0 "--info -q").load := by
  have hleaves : Inputs.bare.LeavesArguments :=
    ⟨fun _ h => absurd h List.not_mem_nil, fun _ h => absurd h List.not_mem_nil⟩
  have hload : (Inputs.bare.withOverride 0 "").load = .ok (Inputs.loadedBare []) := by decide +kernel
  obtain ⟨-, -, hagree⟩ := load_listForms .bare (Inputs.loadedBare []) 0 0 0 "--info -q" hleaves hload
  exact ⟨hleaves, hload, hagree.2 (by decide +kernel)⟩

/-- A number is a list of one word for an override, and no list for a variable. -/
theorem load_listForms_differ : (Inputs.bare.withOverride 0 "8").load = .ok (Inputs.loadedBare ["8"]) ∧
    ∀ loaded, (Inputs.bare.withVariable 0 "8").load ≠ .ok loaded := by
  have hnone : (Inputs.bare.withVariable 0 "8").load.toOption = none := by decide +kernel
  refine ⟨by decide +kernel, fun loaded h => ?_⟩
  rw [h] at hnone
  cases hnone

end GradleBuild.Config
