import GradleBuild.Proofs.ListForms
import GradleBuild.Proofs.TomlTexts

/-!
# The channels of a path

A setting that is a path can be given by a TOML text, by an override and by a variable.  The first two hand its text on
as it is.  A variable is first taken for a truth value, an integer or a number if it looks like one, and the path is
then the text of that (`reread`).

* `build_given_iff`: what is built with one more value for a setting that nothing else touches.
* `build_channels`: what is built with one more source for such a path.
* `build_channels_differ`: a variable loses the zeros in front of a number.
-/

namespace GradleBuild.Config

open Key (changeField overlay)

variable {k : Setting} {s : String} {l l' : Loader} {t t' : Tree} {cwd cwd' : Location}
  {environment environment' : Environment} {c : Config} {v w : Value} {key : Key} {a : Key × Value}
  {pairs pairs' overrides : List (Key × Value)}

/-! ### Settings that are paths -/

/-- Whether a setting is a path. -/
def Setting.isPath : Setting → Bool
  | logFile | directory _ | wrapper => true
  | dry | outputLogLevel | fileLogLevel | console | arguments => false

/-- The configuration with a path for such a setting. -/
def Setting.putPath (k : Setting) (p : Path) (c : Config) : Config :=
  match k with
  | logFile => { c with globals.logFile := some p }
  | directory q => { c with paths := c.paths.set (some p) q }
  | wrapper => { c with gradle.wrapper := some p }
  | dry | outputLogLevel | fileLogLevel | console | arguments => c

theorem putPath_injective (hk : k.isPath = true) {p q : Path} (h : k.putPath p c = k.putPath q c) : p = q := by
  cases k with
  | logFile => exact Option.some.inj (congrArg (fun c => c.globals.logFile) h)
  | directory d =>
    have hget (p : Path) : ((Setting.directory d).putPath p c).paths.get d = some p := by cases d <;> rfl
    exact Option.some.inj ((hget p).symm.trans ((congrArg (fun c => c.paths.get d) h).trans (hget q)))
  | wrapper => exact Option.some.inj (congrArg (fun c => c.gradle.wrapper) h)
  | dry | outputLogLevel | fileLogLevel | console | arguments => cases hk

/-- A path that is not empty is valid. -/
theorem validate_putPath (h : c.validate = .ok ()) {p : Path} (hp : p.isEmpty = false) (k : Setting) :
    (k.putPath p c).validate = .ok () := by
  obtain ⟨hwrapper, hargs, hplaces⟩ := validate_eq_ok.1 h
  rw [validate_eq_ok]
  cases k with
  | wrapper => exact ⟨by simpa [Setting.putPath] using hp, hargs, hplaces⟩
  | directory d =>
    refine ⟨hwrapper, hargs, fun q => ?_⟩
    by_cases hq : q = d
    · have hget : ((Setting.directory d).putPath p c).paths.get q = some p := by
        rw [hq]
        cases d <;> rfl
      simpa [hget] using hp
    · have hget : ((Setting.directory d).putPath p c).paths.get q = c.paths.get q := by
        revert hq
        cases d <;> cases q <;> simp [Setting.putPath, PathsConfig.set, PathsConfig.get]
      rw [hget]
      exact hplaces q
  | dry | outputLogLevel | fileLogLevel | logFile | console | arguments => exact ⟨hwrapper, hargs, hplaces⟩

/-- A text is a path as it is. -/
private theorem want_text (hk : k.isPath = true) (o : Option String) (s : String) (c : Config) :
    ∃ x, k.want (.scalar o (.text s)) = .ok x ∧ k.put x c = k.putPath (.ofText s) c := by
  cases k with
  | logFile | directory | wrapper => exact ⟨some (.ofText s), rfl, rfl⟩
  | dry | outputLogLevel | fileLogLevel | console | arguments => cases hk

private theorem not_list (hk : k.isPath = true) : listKeys.contains k.text = false := by
  have hall : ∀ k ∈ Setting.all, k.isPath = true → listKeys.contains k.text = false := by decide
  exact hall k k.mem_all hk

/-! ### What a variable makes of a text -/

/-- The text of what the text of a variable is taken for. -/
def reread (s : String) : String :=
  if lowercase s = "true" then "true"
  else if lowercase s = "false" then "false"
  else
    match readInt64? s with
    | some n => toString n
    | none =>
      match Binary64.read? s with
      | some x => x.text
      | none => s

theorem reread_eq_self (h : looksScalar s = false) : reread s = s := by
  simp only [looksScalar, Bool.or_eq_false_iff, decide_eq_false_iff_not, Option.isSome_eq_false_iff,
    Option.isNone_iff_eq_none] at h
  obtain ⟨⟨⟨htrue, hfalse⟩, hint⟩, hfloat⟩ := h
  unfold reread
  rw [if_neg htrue, if_neg hfalse, hint, hfloat]

private theorem toString_ne_empty (n : Nat) : toString n ≠ "" := by
  intro h
  have hdigits : Nat.toDigits 10 n = [] := by rw [← Nat.toList_repr, ← Nat.toString_eq_repr, h]; rfl
  exact Nat.toDigits_ne_nil hdigits

private theorem text_ne_empty (x : Binary64) : x.text ≠ "" := by
  cases x with
  | nan => decide
  | infinite negative => cases negative <;> decide
  | finite negative m e =>
    have hpositional : Binary64.positional (Binary64.shortest m e).1 (Binary64.shortest m e).2 ≠ [] := by
      unfold Binary64.positional
      dsimp only
      split
      · split
        · exact Nat.toDigits_ne_nil
        · simp [Nat.toDigits_ne_nil]
      · simp
    intro h
    have hlist := congrArg String.toList h
    simp only [Binary64.text, String.toList_ofList] at hlist
    exact hpositional (List.append_eq_nil_iff.1 hlist).2

theorem reread_ne_empty (hs : s ≠ "") : reread s ≠ "" := by
  unfold reread
  split
  · decide
  split
  · decide
  split
  · rename_i n _
    cases n with
    | ofNat n => exact toString_ne_empty n
    | negSucc n =>
      have hsign : toString (Int.negSucc n) = "-" ++ toString (n + 1) := rfl
      rw [hsign]
      intro h
      simpa using congrArg String.toList h
  split
  · exact text_ne_empty _
  · exact hs

/-- The text of a variable is taken for a scalar, and that serves as a text again. -/
private theorem guess_scalar {key : String} (h : listKeys.contains key = false) (s : String) : ∃ x,
    guess key s = .scalar (some environmentOrigin) x ∧ x ≠ .null ∧
      wantText (.scalar (some environmentOrigin) x) = .ok (reread s) := by
  unfold guess reread
  dsimp only
  by_cases htrue : lowercase s = "true"
  · exact ⟨.bool true, by rw [if_pos htrue], by simp, by rw [if_pos htrue]; rfl⟩
  by_cases hfalse : lowercase s = "false"
  · exact ⟨.bool false, by rw [if_neg htrue, if_pos hfalse], by simp, by rw [if_neg htrue, if_pos hfalse]; rfl⟩
  simp only [if_neg htrue, if_neg hfalse, h, Bool.false_eq_true, if_false]
  cases readInt64? s with
  | some n => exact ⟨.integer n, rfl, by simp, rfl⟩
  | none =>
    cases Binary64.read? s with
    | some x => exact ⟨.float x, rfl, by simp, rfl⟩
    | none => exact ⟨.text s, rfl, by simp, rfl⟩

private theorem want_guess (hk : k.isPath = true) (s : String) (c : Config) :
    ∃ x, k.want (guess k.text s) = .ok x ∧ k.put x c = k.putPath (.ofText (reread s)) c := by
  obtain ⟨y, hguess, hnull, htext⟩ := guess_scalar (not_list hk) s
  have hwant : wantOption wantPath (.scalar (some environmentOrigin) y) = .ok (some (.ofText (reread s))) := by
    unfold wantOption
    split
    · rename_i heq
      exact absurd (Value.scalar.inj heq).2 hnull
    · unfold wantPath
      rw [htext]
      rfl
  rw [hguess]
  cases k with
  | logFile | directory | wrapper => exact ⟨some (.ofText (reread s)), hwant, rfl⟩
  | dry | outputLogLevel | fileLogLevel | console | arguments => cases hk

/-! ### One more source -/

/-- Whether no layer of a loader touches a setting. -/
def Loader.leaves (l : Loader) (k : Setting) (t : Tree) (cwd : Location) (environment : Environment) : Bool :=
  match l.assignments t cwd environment with
  | .ok pairs => pairs.all fun a => !touches k a.1 a.2
  | .error _ => true

theorem leaves_ok (hfree : l.leaves k t cwd environment = true)
    (hpairs : l.assignments t cwd environment = .ok pairs) : ∀ a ∈ pairs, touches k a.1 a.2 = false := by
  unfold Loader.leaves at hfree
  rw [hpairs] at hfree
  simpa using hfree

/-- What is built with one more value for a setting that nothing else touches, if anything. -/
theorem build_given_iff {c' : Config} (hc : l.build t cwd environment = .ok c)
    (hfree : l.leaves k t cwd environment = true) (hpairs : l.assignments t cwd environment = .ok pairs)
    (hpairs' : l'.assignments t' cwd' environment' = .ok pairs')
    (hgiven : Given k w (Loader.assignAll pairs (.table none [])) (Loader.assignAll pairs' (.table none []))) :
    l'.build t' cwd' environment' = .ok c' ↔ ∃ x, k.want w = .ok x ∧ c' = k.put x c ∧ c'.validate = .ok () := by
  obtain ⟨_, has, hvalue, -⟩ := build_eq_ok.1 hc
  obtain rfl := Except.ok.inj (hpairs.symm.trans has)
  have hempty : Absent k (.table none []) := ⟨rfl, ⟨none, [], rfl⟩, fun s hs => by cases hs⟩
  have hdecoded := ofValue_agree hgiven.agree (hempty.assignAll (leaves_ok hfree hpairs)).tabled hgiven.own hvalue
  rw [build_eq_ok]
  constructor
  · rintro ⟨_, has', hvalue', hvalid⟩
    obtain rfl := Except.ok.inj (hpairs'.symm.trans has')
    rw [hdecoded] at hvalue'
    cases hwant : k.want w with
    | error e =>
      rw [hwant] at hvalue'
      cases hvalue'
    | ok x =>
      rw [hwant] at hvalue'
      exact ⟨x, rfl, (Except.ok.inj hvalue').symm, hvalid⟩
  · rintro ⟨x, hwant, rfl, hvalid⟩
    refine ⟨pairs', hpairs', ?_, hvalid⟩
    rw [hdecoded, hwant]
    rfl

/-- What is built with one more value for a setting that nothing else touches. -/
theorem build_given {x : k.Kind} (hc : l.build t cwd environment = .ok c)
    (hfree : l.leaves k t cwd environment = true)
    (hl' : ∀ pairs, l.assignments t cwd environment = .ok pairs → ∃ as, l'.assignments t cwd environment' = .ok as ∧
      Given k w (Loader.assignAll pairs (.table none [])) (Loader.assignAll as (.table none [])))
    (hwant : k.want w = .ok x) (hvalid : (k.put x c).validate = .ok ()) :
    l'.build t cwd environment' = .ok (k.put x c) := by
  obtain ⟨pairs, hpairs, -⟩ := build_eq_ok.1 hc
  obtain ⟨as, has, hgiven⟩ := hl' pairs hpairs
  exact (build_given_iff hc hfree hpairs has hgiven).2 ⟨x, hwant, rfl, hvalid⟩

/-! ### A TOML text -/

/-- The fields of a TOML text with one more for a setting: in a section that is there, in a section of its own, or
under the whole key. -/
inductive Extended (k : Setting) (v : Value) : Fields → Fields → Prop
  | within (o : Option String) (before after front back : Fields) :
      Extended k v (before ++ (k.title, .table o (front ++ back)) :: after)
        (before ++ (k.title, .table o (front ++ (k.name, v) :: back)) :: after)
  | alone (o : Option String) (before after : Fields) :
      Extended k v (before ++ after) (before ++ (k.title, .table o [(k.name, v)]) :: after)
  | dotted (before after : Fields) : Extended k v (before ++ after) (before ++ (k.text, v) :: after)

/-- A table is set part by part. -/
private theorem set_append (title : String) (o : Option String) (front back : Fields) (top : Value) :
    (Key.mk title []).set (.table o (front ++ back)) top =
      (Key.mk title []).set (.table o back) ((Key.mk title []).set (.table o front) top) := by
  induction front generalizing top with
  | nil =>
    show _ = changeField (overlay (.table o back)) title (changeField (overlay (.table o [])) title top)
    rw [changeField_changeField]
    rfl
  | cons f front ih =>
    obtain ⟨name, x⟩ := f
    rw [List.cons_append, set_table, set_table, ih]

/-- A section with one field is set like the key of the field. -/
private theorem set_section (k : Setting) (o : Option String) (v top : Value) :
    (Key.mk k.title []).set (.table o [(k.name, v)]) top = k.key.set v top := by
  rw [set_table]
  show changeField (overlay (.table o [])) k.title (changeField (changeField (overlay v) k.name) k.title top) = _
  rw [changeField_changeField]
  rfl

private theorem assigned_section (k : Setting) (v : Value) (fields : Fields) :
    assigned ((k.title, v) :: fields) = (⟨k.title, []⟩, v) :: assigned fields := by
  rw [← readOrLiteral_section k.title_mem]
  rfl

/-- The parts of a table touch no more than the table. -/
private theorem touches_append {o : Option String} {front back : Fields}
    (h : touches k ⟨k.title, []⟩ (.table o (front ++ back)) = false) :
    touches k ⟨k.title, []⟩ (.table o front) = false ∧ touches k ⟨k.title, []⟩ (.table o back) = false := by
  simpa [touches] using h

/-- One more field gives a setting its value if the other fields do not touch it. -/
private theorem Extended.given {fields fields' : Fields} (h : Extended k v fields fields')
    (hv : ∀ old, overlay v old = v) (hfree : ∀ a ∈ assigned fields, touches k a.1 a.2 = false) (top : Value) :
    Given k v (Loader.assignAll (assigned fields) top) (Loader.assignAll (assigned fields') top) := by
  cases h with
  | within o before after front back =>
    rw [assigned_append, assigned_section] at hfree ⊢
    rw [assigned_append, assigned_section, assignAll_append, assignAll_append]
    obtain ⟨-, hback⟩ := touches_append (hfree _ (List.mem_append_right _ List.mem_cons_self))
    have hafter : ∀ a ∈ assigned after, touches k a.1 a.2 = false := fun a ha =>
      hfree a (List.mem_append_right _ (List.mem_cons_of_mem _ ha))
    show Given k v (Loader.assignAll (assigned after) ((Key.mk k.title []).set _ _))
      (Loader.assignAll (assigned after) ((Key.mk k.title []).set _ _))
    rw [set_append, set_append k.title o front ((k.name, v) :: back), ← List.singleton_append, set_append, set_section]
    exact ((given_set hv k _).set hback).assignAll hafter
  | alone o before after =>
    rw [assigned_append] at hfree ⊢
    rw [assigned_append, assigned_section, assignAll_append, assignAll_append]
    show Given k v _ (Loader.assignAll (assigned after) ((Key.mk k.title []).set _ _))
    rw [set_section]
    exact (given_set hv k _).assignAll fun a ha => hfree a (List.mem_append_right _ ha)
  | dotted before after =>
    rw [assigned_append] at hfree ⊢
    rw [assigned_append, assignAll_append, assignAll_append]
    show Given k v _ (Loader.assignAll (assigned after) ((Key.readOrLiteral k.text).set v _))
    rw [readOrLiteral_text]
    exact (given_set hv k _).assignAll fun a ha => hfree a (List.mem_append_right _ ha)

/-- Sources with one more field among theirs. -/
theorem assignments_sources {sources : List Source} {contents contents' : List Fields} (files : List Path)
    (hcontents : l.sources.mapM (Loader.collect t cwd) = .ok contents)
    (hcontents' : sources.mapM (Loader.collect t' cwd') = .ok contents')
    (h : Extended k w contents.flatten contents'.flatten) (hw : ∀ old, overlay w old = w)
    (hfree : l.leaves k t cwd environment = true) (hpairs : l.assignments t cwd environment = .ok pairs) :
    ∃ as, { l with sources, files }.assignments t' cwd' environment = .ok as ∧
      Given k w (Loader.assignAll pairs (.table none [])) (Loader.assignAll as (.table none [])) := by
  have huntouched := leaves_ok hfree hpairs
  obtain ⟨_, values, hc, hvalues, rfl⟩ := assignments_eq_ok.1 hpairs
  obtain rfl := Except.ok.inj (hcontents.symm.trans hc)
  refine ⟨_, assignments_eq_ok.2 ⟨contents', values, hcontents', hvalues, rfl⟩, ?_⟩
  simp only [assignAll_append]
  refine ((h.given hw (fun a ha => huntouched a ?_) _).assignAll fun a ha => huntouched a ?_).assignAll
    fun a ha => huntouched a ?_
  · simp [ha]
  · simp [ha]
  · simp [ha]

/-! ### An override -/

private theorem assignments_override {l₀ : Loader} {before after : List String} {entry : String}
    (hl : l₀.applyOverrides (before ++ after) = .ok l) (hentry : override? entry = some (k.key, v))
    (hv : ∀ old, overlay v old = v) (hfree : l.leaves k t cwd environment = true) :
    ∃ l', l₀.applyOverrides (before ++ entry :: after) = .ok l' ∧
      ∀ pairs, l.assignments t cwd environment = .ok pairs → ∃ as, l'.assignments t cwd environment = .ok as ∧
        Given k v (Loader.assignAll pairs (.table none [])) (Loader.assignAll as (.table none [])) := by
  obtain ⟨hread, rfl⟩ := applyOverrides_eq_ok.1 hl
  have hread' : ∀ e ∈ before ++ entry :: after, (override? e).isSome = true := by
    intro e he
    rcases List.mem_append.1 he with he | he
    · exact hread e (List.mem_append_left _ he)
    · rcases List.mem_cons.1 he with rfl | he
      · rw [hentry]
        rfl
      · exact hread e (List.mem_append_right _ he)
  refine ⟨_, applyOverrides_eq_ok.2 ⟨hread', rfl⟩, fun pairs hpairs => ?_⟩
  have huntouched := leaves_ok hfree hpairs
  obtain ⟨contents, values, hcontents, hvalues, rfl⟩ := assignments_eq_ok.1 hpairs
  -- no override has the key yet, so the new one comes somewhere among them
  have hnone : ∀ b ∈ assignEach (before.filterMap override? ++ after.filterMap override?) l₀.overrides,
      b.1 ≠ k.key := by
    intro b hb
    rw [← List.filterMap_append] at hb
    exact ne_key_of_touches (huntouched b (List.mem_append_right _ hb))
  have hinserted := inserted_override (v := v) hnone
  rw [← List.filterMap_append, ← List.filterMap_cons_some hentry, ← List.filterMap_append] at hinserted
  exact ⟨_, assignments_eq_ok.2 ⟨contents, values, hcontents, hvalues, rfl⟩,
    (hinserted.append_left _).given hv huntouched _⟩

/-! ### A variable -/

theorem assignments_variable {before after : Environment} (s : String)
    (hstart : l.environmentPrefix = some environmentPrefix)
    (hfree : l.leaves k t cwd (before ++ after) = true)
    (hpairs : l.assignments t cwd (before ++ after) = .ok pairs) :
    ∃ as, l.assignments t cwd (before ++ (k.variableName, encode s) :: after) = .ok as ∧
      Given k (guess k.text s) (Loader.assignAll pairs (.table none [])) (Loader.assignAll as (.table none [])) := by
  have huntouched := leaves_ok hfree hpairs
  obtain ⟨contents, values, hcontents, hvalues, rfl⟩ := assignments_eq_ok.1 hpairs
  have henvironment (environment : Environment) :
      l.fromEnvironment environment = ofEnvironment environmentPrefix environment := by
    unfold Loader.fromEnvironment
    rw [hstart]
  rw [henvironment] at hvalues
  obtain ⟨front, back, rfl, hvalues'⟩ := ofEnvironment_insert (x := (k.variableName, encode s)) hvalues
    (ofVariable_setting k s)
  have hcons : assigned ((k.text, guess k.text s) :: back) = (k.key, guess k.text s) :: assigned back := by
    rw [← readOrLiteral_text]
    rfl
  rw [← henvironment] at hvalues'
  refine ⟨_, assignments_eq_ok.2 ⟨contents, _, hcontents, hvalues', rfl⟩, ?_⟩
  refine Inserted.given ?_ (overlay_guess k.text s) huntouched _
  rw [assigned_append, assigned_append, hcons]
  simp only [List.append_assoc, List.cons_append]
  exact (((Inserted.here _).append_left _).append_left _).append_left _

/-! ### All channels -/

theorem isBare_title (k : Setting) : Toml.IsBare k.title := by
  have hall : ∀ k ∈ Setting.all, k.title ≠ "" ∧ k.title.toList.all Toml.isBareKeyChar = true := by decide +kernel
  obtain ⟨hne, hbare⟩ := hall k k.mem_all
  exact ⟨hne, List.all_eq_true.1 hbare⟩

theorem isBare_name (k : Setting) : Toml.IsBare k.name := by
  have hall : ∀ k ∈ Setting.all, k.name ≠ "" ∧ k.name.toList.all Toml.isBareKeyChar = true := by decide +kernel
  obtain ⟨hne, hbare⟩ := hall k k.mem_all
  exact ⟨hne, List.all_eq_true.1 hbare⟩

private theorem collect_settingText (k : Setting) (hs : s ≠ "") (t : Tree) (cwd : Location) :
    Loader.collect t cwd (.text (String.ofList (Toml.settingText k.title k.name s))) =
      .ok [(k.title, .table none [(k.name, .text s)])] := by
  show Loader.readToml none _ = _
  unfold Loader.readToml
  rw [Toml.read_written (isBare_title k) (isBare_name k) hs]
  rfl

/-- A path that nothing else touches is built from a TOML text or an override as it was written, and nothing else
changes.  From a variable it is built as `reread` has it, which is the same unless the text looks like a truth value or
a number. -/
theorem build_channels (hk : k.isPath = true) (hs : s ≠ "") (htrim : trim s = s)
    (hc : l.build t cwd environment = .ok c) (hfree : l.leaves k t cwd environment = true) :
    (∀ sources contents contents' files o, l.sources.mapM (Loader.collect t cwd) = .ok contents →
      sources.mapM (Loader.collect t cwd) = .ok contents' →
      Extended k (.scalar o (.text s)) contents.flatten contents'.flatten →
      { l with sources, files }.build t cwd environment = .ok (k.putPath (.ofText s) c)) ∧
    Loader.collect t cwd (.text (String.ofList (Toml.settingText k.title k.name s))) =
      .ok [(k.title, .table none [(k.name, .text s)])] ∧
    (∀ l₀ before after, Loader.applyOverrides l₀ (before ++ after) = .ok l →
      ∃ l', l₀.applyOverrides (before ++ (k.text ++ "=" ++ s) :: after) = .ok l' ∧
        l'.build t cwd environment = .ok (k.putPath (.ofText s) c)) ∧
    (∀ before after, l.environmentPrefix = some environmentPrefix → environment = before ++ after →
      l.build t cwd (before ++ (k.variableName, encode s) :: after) = .ok (k.putPath (.ofText (reread s)) c)) ∧
    (k.putPath (.ofText (reread s)) c = k.putPath (.ofText s) c ↔ reread s = s) ∧
    (looksScalar s = false → reread s = s) := by
  obtain ⟨-, -, -, hvalid⟩ := build_eq_ok.1 hc
  have hvalidText := validate_putPath hvalid (Path.isEmpty_ofText hs) k
  have hvalidReread := validate_putPath hvalid (Path.isEmpty_ofText (reread_ne_empty hs)) k
  refine ⟨?_, ?_, ?_, ?_, ?_, reread_eq_self⟩
  · intro sources contents contents' files o hcontents hcontents' hextended
    obtain ⟨x, hwant, hput⟩ := want_text hk o s c
    rw [← hput] at hvalidText ⊢
    refine build_given hc hfree (fun pairs hpairs => ?_) hwant hvalidText
    exact assignments_sources files hcontents hcontents' hextended (fun _ => by rw [overlay]) hfree hpairs
  · exact collect_settingText k hs t cwd
  · intro l₀ before after hl
    have hentry : override? (k.text ++ "=" ++ s) = some (k.key, .text s) := by
      have hspelled : k.text ++ "=" ++ s = k.spelled "" '.' "" s := by simp [Setting.text, Setting.spelled]
      rw [hspelled, override?_spelled (by decide) (by decide) (by decide), htrim, Loader.overrideValue, not_list hk]
      rfl
    obtain ⟨l', hl', hgiven⟩ := assignments_override hl hentry (fun _ => by rw [Value.text, overlay]) hfree
    obtain ⟨x, hwant, hput⟩ := want_text hk none s c
    rw [← hput] at hvalidText ⊢
    exact ⟨l', hl', build_given hc hfree hgiven hwant hvalidText⟩
  · rintro before after hstart rfl
    obtain ⟨x, hwant, hput⟩ := want_guess hk s c
    rw [← hput] at hvalidReread ⊢
    exact build_given hc hfree (fun pairs hpairs => assignments_variable s hstart hfree hpairs) hwant hvalidReread
  · constructor
    · intro h
      exact Path.ofText_injective (putPath_injective hk h)
    · intro h
      rw [h]

/-- A loader with a TOML text, the environment and an override. -/
def Loader.styled : Loader where
  sources := [.text "[gradle]\nconsole = \"plain\"\n"]
  environmentPrefix := some Config.environmentPrefix
  overrides := [(Setting.dry.key, .text "yes")]

/-- What it builds. -/
def Loader.builtStyled : Config where
  globals := { dry := true }
  gradle := { console := .plain }

theorem build_channels_plain :
    Loader.styled.leaves (.directory .out) Tree.empty [] [] = true ∧
    Loader.styled.build Tree.empty [] [] = .ok Loader.builtStyled ∧
    Loader.styled.build Tree.empty [] [("SCP_BUILD_PATHS__OUT_DIR", encode "/tmp/out")] =
      .ok ((Setting.directory .out).putPath (.ofText "/tmp/out") Loader.builtStyled) := by
  have hfree : Loader.styled.leaves (.directory .out) Tree.empty [] [] = true := by decide +kernel
  have hbuild : Loader.styled.build Tree.empty [] [] = .ok Loader.builtStyled := by decide +kernel
  obtain ⟨-, -, -, hvariable, -, hsame⟩ :=
    build_channels (k := .directory .out) rfl (s := "/tmp/out") (by decide) (by decide +kernel) hbuild hfree
  have hname : (Setting.directory .out).variableName = "SCP_BUILD_PATHS__OUT_DIR" := by decide +kernel
  refine ⟨hfree, hbuild, ?_⟩
  rw [← hname, ← hsame (by decide +kernel)]
  exact hvariable [] [] rfl rfl

/-- A variable loses the zeros in front of a number, an override keeps them. -/
theorem build_channels_differ :
    (Loader.withEnvironment {} environmentPrefix).build Tree.empty [] [("SCP_BUILD_PATHS__OUT_DIR", encode "007")] =
      .ok ((Setting.directory .out).putPath (.ofText "7") {}) ∧
    (Loader.applyOverrides {} ["paths.out_dir=007"] >>= fun l => l.build Tree.empty [] []) =
      .ok ((Setting.directory .out).putPath (.ofText "007") {}) := ⟨by decide +kernel, by decide +kernel⟩

end GradleBuild.Config
