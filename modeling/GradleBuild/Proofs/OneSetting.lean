import GradleBuild.Proofs.Loading

/-!
# One more value for a setting

Where nothing else touches a setting, one more assignment to its key gives it a value and leaves all other settings as
they are, wherever it comes among the other assignments.

* `touches`: whether an assignment may change what is under the key of a setting.
* `Given.assignAll`, `Absent.assignAll`: assignments that do not touch the setting.
* `inserted_overriding`: one more override of a run as one more assignment.
* `ofValue_agree`: what is decoded with another value for one setting.
-/

namespace GradleBuild.Config

open Key (fieldsOrNone changeField changeAt overlay)

variable {c : Config} {key : Key} {k : Setting} {v w base top : Value} {name other : String} {o : Option String}
  {fields : Fields} {change f g : Value → Value} {a : Key × Value}
  {pairs pairs' overrides overrides' : List (Key × Value)}

/-! ### Changes that spare a name -/

/-- A change that makes a table, leaves what is under a name, and does the same to all else whatever is under it. -/
structure Spares (name : String) (change : Value → Value) : Prop where
  own : ∀ old, (change old).child? name = old.child? name
  rest : ∀ old old', (∀ n ≠ name, old'.child? n = old.child? n) →
    ∀ n ≠ name, (change old').child? n = (change old).child? n
  table : ∀ old, ∃ o fields, change old = .table o fields

private theorem Spares.comp (hf : Spares name f) (hg : Spares name g) : Spares name fun old => f (g old) where
  own _ := (hf.own _).trans (hg.own _)
  rest _ _ h := hf.rest _ _ (hg.rest _ _ h)
  table _ := hf.table _

private theorem spares_changeField (hn : other ≠ name) (change : Value → Value) :
    Spares name (changeField change other) where
  own _ := child?_changeField_of_ne hn.symm _ _
  rest _ _ h n hne := by
    by_cases heq : n = other
    · subst heq
      rw [child?_changeField_self, child?_changeField_self, h n hne]
    · rw [child?_changeField_of_ne heq, child?_changeField_of_ne heq, h n hne]
  table _ := ⟨_, _, rfl⟩

private theorem spares_overlay (o : Option String) (h : ∀ f ∈ fields, f.1 ≠ name) :
    Spares name (overlay (.table o fields)) := by
  induction fields with
  | nil => exact ⟨fun _ => rfl, fun _ _ h => h, fun _ => ⟨_, _, rfl⟩⟩
  | cons f fields ih =>
    -- the first field is changed, then the others go over it
    have hrest := ih fun f hf => h f (List.mem_cons_of_mem _ hf)
    exact hrest.comp (spares_changeField (h f List.mem_cons_self) (overlay f.2))

/-! ### Assignments that do not touch a setting -/

/-- Whether an assignment may change what is under the key of a setting. -/
def touches (k : Setting) (key : Key) (v : Value) : Bool :=
  key.name == k.title && match key.steps, v with
    | [], .table _ fields => fields.any (·.1 == k.name)
    | [], _ => true
    | .child name :: _, _ => name == k.name
    | .index _ :: _, _ => true

private theorem spares_of_touches (h : touches k key v = false) (ht : k.title = key.name) :
    Spares k.name (changeAt (overlay v) key.steps) := by
  obtain ⟨title, steps⟩ := key
  obtain rfl : k.title = title := ht
  unfold touches at h
  rw [beq_self_eq_true, Bool.true_and] at h
  match steps with
  | [] =>
    cases v with
    | table o fields =>
      have hall : ∀ f ∈ fields, (f.1 == k.name) = false := by simpa using h
      exact spares_overlay o fun f hf => by simpa using hall f hf
    | scalar | list => cases h
  | .child name :: steps => exact spares_changeField (by simpa using h) _
  | .index n :: steps => cases h

theorem touches_key (k : Setting) (v : Value) : touches k k.key v = true := by
  simp [touches, Setting.key]

theorem ne_key_of_touches (h : touches k key v = false) : key ≠ k.key := by
  rintro rfl
  rw [touches_key] at h
  cases h

/-- Two values that may differ in what is under the key of a setting, and in nothing else. -/
structure AgreeBut (k : Setting) (base top : Value) : Prop where
  siblings : ∀ name ≠ k.name,
    ((top.child? k.title).getD .null).child? name = ((base.child? k.title).getD .null).child? name
  sections : ∀ title ≠ k.title, top.child? title = base.child? title

/-- A setting has a value, and all else is as in `base`. -/
structure Given (k : Setting) (v base top : Value) : Prop where
  own : k.at? top = some v
  agree : AgreeBut k base top

/-- A table in which the section of a setting, if there is one, is a table. -/
structure Tabled (k : Setting) (base : Value) : Prop where
  table : ∃ o fields, base = .table o fields
  ownTable : ∀ s, base.child? k.title = some s → ∃ o fields, s = .table o fields

/-- A setting has no value, and its section could take one. -/
structure Absent (k : Setting) (base : Value) : Prop where
  own : k.at? base = none
  tabled : Tabled k base

theorem AgreeBut.symm (h : AgreeBut k base top) : AgreeBut k top base where
  siblings name hn := (h.siblings name hn).symm
  sections title ht := (h.sections title ht).symm

theorem AgreeBut.trans {top' : Value} (h : AgreeBut k base top) (h' : AgreeBut k top top') : AgreeBut k base top' where
  siblings name hn := (h'.siblings name hn).trans (h.siblings name hn)
  sections title ht := (h'.sections title ht).trans (h.sections title ht)

theorem tabled_of_at? (h : k.at? top = some v) : Tabled k top := by
  obtain ⟨s, hs, hv⟩ := Option.bind_eq_some_iff.1 h
  obtain ⟨o, fields, rfl, hlookup⟩ := exists_table_of_child? hs
  obtain ⟨o', fs, rfl, -⟩ := exists_table_of_child? hv
  refine ⟨⟨o, fields, rfl⟩, fun s hs' => ⟨o', fs, ?_⟩⟩
  rw [hs] at hs'
  exact (Option.some.inj hs').symm

theorem given_set (hv : ∀ old, overlay v old = v) (k : Setting) (base : Value) :
    Given k v base (k.key.set v base) := by
  have hset : k.key.set v base = changeField (changeField (overlay v) k.name) k.title base := rfl
  refine ⟨?_, fun name hn => ?_, fun title ht => ?_⟩
  · rw [at?_set_self, layer, hv]
  · rw [hset, child?_changeField_self, Option.getD_some]
    exact child?_changeField_of_ne hn _ _
  · exact child?_changeField_of_ne ht _ _

private theorem at?_set_of_touches (hk : touches k key w = false) (base : Value) :
    k.at? (key.set w base) = k.at? base := by
  have hset : key.set w base = changeField (changeAt (overlay w) key.steps) key.name base := rfl
  rw [hset]
  unfold Setting.at?
  by_cases ht : k.title = key.name
  · rw [← ht, child?_changeField_self, Option.bind_some, (spares_of_touches hk ht).own, child?_getD]
  · rw [child?_changeField_of_ne ht]

theorem AgreeBut.set (h : AgreeBut k base top) (hk : touches k key w = false) :
    AgreeBut k (key.set w base) (key.set w top) := by
  have hset (x : Value) : key.set w x = changeField (changeAt (overlay w) key.steps) key.name x := rfl
  rw [hset, hset]
  by_cases ht : k.title = key.name
  · rw [← ht]
    refine ⟨fun name hn => ?_, fun title hne => ?_⟩
    · rw [child?_changeField_self, child?_changeField_self]
      exact (spares_of_touches hk ht).rest _ _ h.siblings name hn
    · rw [child?_changeField_of_ne hne, child?_changeField_of_ne hne, h.sections title hne]
  · refine ⟨fun name hn => ?_, fun title hne => ?_⟩
    · rw [child?_changeField_of_ne ht, child?_changeField_of_ne ht, h.siblings name hn]
    · by_cases heq : title = key.name
      · rw [heq, child?_changeField_self, child?_changeField_self, h.sections key.name (Ne.symm ht)]
      · rw [child?_changeField_of_ne heq, child?_changeField_of_ne heq, h.sections title hne]

theorem Given.set (h : Given k v base top) (hk : touches k key w = false) :
    Given k v (key.set w base) (key.set w top) where
  own := (at?_set_of_touches hk top).trans h.own
  agree := h.agree.set hk

theorem Given.assignAll (h : Given k v base top) (hk : ∀ a ∈ pairs, touches k a.1 a.2 = false) :
    Given k v (Loader.assignAll pairs base) (Loader.assignAll pairs top) := by
  induction pairs generalizing base top with
  | nil => exact h
  | cons a pairs ih =>
    exact ih (h.set (hk a List.mem_cons_self)) fun a ha => hk a (List.mem_cons_of_mem _ ha)

theorem Absent.set (h : Absent k base) (hk : touches k key w = false) : Absent k (key.set w base) := by
  have hset : key.set w base = changeField (changeAt (overlay w) key.steps) key.name base := rfl
  refine ⟨(at?_set_of_touches hk base).trans h.own, ⟨_, _, hset⟩, fun s hs => ?_⟩
  rw [hset] at hs
  by_cases ht : k.title = key.name
  · rw [← ht, child?_changeField_self] at hs
    rw [← Option.some.inj hs]
    exact (spares_of_touches hk ht).table _
  · rw [child?_changeField_of_ne ht] at hs
    exact h.tabled.ownTable s hs

theorem Absent.assignAll (h : Absent k base) (hk : ∀ a ∈ pairs, touches k a.1 a.2 = false) :
    Absent k (Loader.assignAll pairs base) := by
  induction pairs generalizing base with
  | nil => exact h
  | cons a pairs ih =>
    exact ih (h.set (hk a List.mem_cons_self)) fun a ha => hk a (List.mem_cons_of_mem _ ha)

/-! ### One more assignment -/

/-- One more assignment somewhere in a list. -/
inductive Inserted (a : Key × Value) : List (Key × Value) → List (Key × Value) → Prop
  | here (pairs : List (Key × Value)) : Inserted a pairs (a :: pairs)
  | later (b : Key × Value) {pairs pairs' : List (Key × Value)} (h : Inserted a pairs pairs') :
      Inserted a (b :: pairs) (b :: pairs')

theorem Inserted.assign (h : Inserted a overrides overrides') (hk : a.1 ≠ key) (v : Value) :
    Inserted a (Loader.assign key v overrides) (Loader.assign key v overrides') := by
  induction h with
  | here pairs =>
    rw [Loader.assign, if_neg hk]
    exact .here _
  | later b h ih =>
    obtain ⟨j, w⟩ := b
    by_cases hj : j = key
    · rw [Loader.assign, if_pos hj, Loader.assign, if_pos hj]
      exact .later _ h
    · rw [Loader.assign, if_neg hj, Loader.assign, if_neg hj]
      exact .later _ ih

theorem Inserted.assignEach (h : Inserted a overrides overrides') (hk : ∀ b ∈ pairs, a.1 ≠ b.1) :
    Inserted a (assignEach pairs overrides) (assignEach pairs overrides') := by
  induction pairs generalizing overrides overrides' with
  | nil => exact h
  | cons b pairs ih =>
    exact ih (h.assign (hk b (by simp)) b.2) fun b hb => hk b (List.mem_cons_of_mem _ hb)

theorem inserted_assign (h : ∀ b ∈ overrides, b.1 ≠ key) (v : Value) :
    Inserted (key, v) overrides (Loader.assign key v overrides) := by
  induction overrides with
  | nil => exact .here []
  | cons b rest ih =>
    obtain ⟨j, w⟩ := b
    have hj : j ≠ key := h (j, w) (by simp)
    rw [Loader.assign, if_neg hj]
    exact .later _ (ih fun b hb => h b (List.mem_cons_of_mem _ hb))

theorem Inserted.append_left (h : Inserted a pairs pairs') (front : List (Key × Value)) :
    Inserted a (front ++ pairs) (front ++ pairs') := by
  induction front with
  | nil => exact h
  | cons b front ih => exact .later b ih

/-- One more override for a key that no other override has. -/
theorem inserted_override {before after : List (Key × Value)}
    (h : ∀ b ∈ assignEach (before ++ after) overrides, b.1 ≠ key) :
    Inserted (key, v) (assignEach (before ++ after) overrides)
      (assignEach (before ++ (key, v) :: after) overrides) := by
  have happend (pairs pairs' overrides : List (Key × Value)) :
      assignEach (pairs ++ pairs') overrides = assignEach pairs' (assignEach pairs overrides) := List.foldl_append
  rw [happend] at h
  have hkeys : key ∉ (assignEach after (assignEach before overrides)).map Prod.fst := by
    intro hmem
    obtain ⟨b, hb, hkey⟩ := List.mem_map.1 hmem
    exact h b hb hkey
  have hbefore : ∀ b ∈ assignEach before overrides, b.1 ≠ key := fun b hb hkey =>
    hkeys (hkey ▸ key_mem_assignEach (Or.inr (List.mem_map_of_mem hb)))
  have hafter : ∀ b ∈ after, key ≠ b.1 := fun b hb hkey => hkeys (hkey ▸ key_mem_assignEach (Or.inl hb))
  rw [happend, happend]
  exact (inserted_assign hbefore v).assignEach hafter

/-- The lookup root depends on the option for it alone. -/
theorem root_withOptions {i : Inputs} {options : Options} (h : options.projectRoot = i.options.projectRoot) :
    { i with options }.root = i.root := by
  unfold Inputs.root lookupRoot
  rw [h]

/-- One more override, for a key that no other has, is one more assignment of a run. -/
theorem inserted_overriding {i : Inputs} {options : Options} {entry : String} {before after : List String}
    (he : i.options.overrides = before ++ after) (he' : options.overrides = before ++ entry :: after)
    (hentry : override? entry = some (key, v)) (hroot : options.projectRoot = i.options.projectRoot)
    (hkey : key ≠ (Setting.directory .projectRoot).key) (hfree : ∀ a ∈ i.overriding, a.1 ≠ key) :
    Inserted (key, v) i.overriding { i with options }.overriding := by
  have hentries : (before ++ entry :: after).filterMap override? =
      before.filterMap override? ++ (key, v) :: after.filterMap override? := by
    rw [List.filterMap_append, List.filterMap_cons_some hentry]
  have hinserted (hnone : ∀ b ∈ assignEach (i.options.overrides.filterMap override?) [], b.1 ≠ key) :
      Inserted (key, v) (assignEach (i.options.overrides.filterMap override?) [])
        (assignEach (options.overrides.filterMap override?) []) := by
    rw [he, List.filterMap_append] at hnone ⊢
    rw [he', hentries]
    exact inserted_override hnone
  cases hp : i.options.projectRoot with
  | none =>
    rw [overriding_of_none hp] at hfree ⊢
    rw [overriding_of_none (i := { i with options }) (hroot.trans hp)]
    exact hinserted hfree
  | some p =>
    rw [overriding_of_some hp] at hfree ⊢
    rw [overriding_of_some (i := { i with options }) (hroot.trans hp), root_withOptions hroot]
    refine (hinserted fun b hb hbk => ?_).assign hkey _
    -- a key that is there stays there when the root is set
    obtain ⟨a, ha, hak⟩ := List.mem_map.1
      (key_mem_assign (k := (Setting.directory .projectRoot).key) (.text i.root.display)
        (Or.inr (List.mem_map_of_mem (f := Prod.fst) hb)))
    exact hfree a ha (hak.trans hbk)

/-- Among assignments that do not touch a setting, one more to its key gives it a value. -/
theorem Inserted.given (h : Inserted (k.key, v) pairs pairs') (hv : ∀ old, overlay v old = v)
    (hk : ∀ b ∈ pairs, touches k b.1 b.2 = false) (base : Value) :
    Given k v (Loader.assignAll pairs base) (Loader.assignAll pairs' base) := by
  induction h generalizing base with
  | here pairs => exact (given_set hv k base).assignAll hk
  | later b h ih => exact ih (fun b hb => hk b (List.mem_cons_of_mem _ hb)) _

/-! ### Decoding -/

/-- The configuration with another value for a setting. -/
def Setting.put : (k : Setting) → k.Kind → Config → Config
  | dry, x, c => { c with globals.dry := x }
  | outputLogLevel, x, c => { c with globals.outputLogLevel := x }
  | fileLogLevel, x, c => { c with globals.fileLogLevel := x }
  | logFile, x, c => { c with globals.logFile := x }
  | directory p, x, c => { c with paths := c.paths.set x p }
  | wrapper, x, c => { c with gradle.wrapper := x }
  | console, x, c => { c with gradle.console := x }
  | arguments, x, c => { c with gradle.args := x }

/-- A section that is not there is as good as an empty table. -/
private theorem taken_table {α : Type} {want : Value → Decoded α} {d x : α} {given : Option Value}
    (hempty : want (.table none []) = .ok d) (hs : ∀ s, given = some s → ∃ o fields, s = .table o fields)
    (h : Taken want d given x) : ∃ o, want (.table o (fieldsOrNone (given.getD .null)).2) = .ok x := by
  cases hgiven : given with
  | none =>
    subst hgiven
    obtain rfl : x = d := h
    exact ⟨none, hempty⟩
  | some s =>
    obtain ⟨o, fields, rfl⟩ := hs s hgiven
    exact ⟨o, h.of_some hgiven⟩

section Fields

variable {fs fs' : Fields} {keys : List String}

private theorem field_own {α : Type} (name : String) (h : fs.lookup name = some v) (d : α) (want : Value → Decoded α) :
    field (fs.map fun (name, v) => (name, .child name, v)) name d want = inStep (.child name) (want v) := by
  rw [field_map, h]

private theorem sectionFields_own (hknown : Known keys fs) (hown : name ∈ keys)
    (hrest : ∀ other ≠ name, fs'.lookup other = fs.lookup other) (title : String) (o' : Option String) :
    sectionFields title keys (.table o' fs') = .ok (fs'.map fun (name, v) => (name, .child name, v)) := by
  refine sectionFields_eq_ok.2 ⟨fun other ho => ?_, rfl⟩
  by_cases heq : other = name
  · exact heq ▸ hown
  · rw [hrest other heq] at ho
    exact hknown other ho

/-- With another value for one of its settings, a section is decoded as before but for this value. -/
private theorem wantGlobal_own (ht : k.title = "global") (hc : wantGlobal (.table o fs) = .ok c.globals)
    (hname : fs'.lookup k.name = some v) (hrest : ∀ name ≠ k.name, fs'.lookup name = fs.lookup name)
    (o' : Option String) :
    wantGlobal (.table o' fs') = (inStep (.child k.name) (k.want v)).map fun x => (k.put x c).globals := by
  obtain ⟨hknown, hdry, houtput, hfile, hlog⟩ := wantGlobal_eq_ok.1 hc
  have hkeys : ∀ k ∈ Setting.all, k.title = "global" → k.name ∈ globalKeys := by decide
  have hfields := sectionFields_own hknown (hkeys k k.mem_all ht) hrest "struct GlobalConfig" o'
  cases k with
  | dry =>
    have hown := field_own "dry" hname false wantBool
    rw [← hrest "output_log_level" (by decide)] at houtput
    rw [← hrest "file_log_level" (by decide)] at hfile
    rw [← hrest "log_file" (by decide)] at hlog
    simp only [wantGlobal, hfields, hown, field_eq_ok.2 houtput, field_eq_ok.2 hfile, field_eq_ok.2 hlog, Setting.want,
      Setting.name, bind, Except.bind, pure, Except.pure]
    cases wantBool v <;> rfl
  | outputLogLevel =>
    have hown := field_own "output_log_level" hname .info wantLevel
    rw [← hrest "dry" (by decide)] at hdry
    rw [← hrest "file_log_level" (by decide)] at hfile
    rw [← hrest "log_file" (by decide)] at hlog
    simp only [wantGlobal, hfields, hown, field_eq_ok.2 hdry, field_eq_ok.2 hfile, field_eq_ok.2 hlog, Setting.want,
      Setting.name, bind, Except.bind, pure, Except.pure]
    cases wantLevel v <;> rfl
  | fileLogLevel =>
    have hown := field_own "file_log_level" hname none (wantOption wantLevel)
    rw [← hrest "dry" (by decide)] at hdry
    rw [← hrest "output_log_level" (by decide)] at houtput
    rw [← hrest "log_file" (by decide)] at hlog
    simp only [wantGlobal, hfields, hown, field_eq_ok.2 hdry, field_eq_ok.2 houtput, field_eq_ok.2 hlog, Setting.want,
      Setting.name, bind, Except.bind, pure, Except.pure]
    cases wantOption wantLevel v <;> rfl
  | logFile =>
    have hown := field_own "log_file" hname none (wantOption wantPath)
    rw [← hrest "dry" (by decide)] at hdry
    rw [← hrest "output_log_level" (by decide)] at houtput
    rw [← hrest "file_log_level" (by decide)] at hfile
    simp only [wantGlobal, hfields, hown, field_eq_ok.2 hdry, field_eq_ok.2 houtput, field_eq_ok.2 hfile, Setting.want,
      Setting.name, bind, Except.bind, pure, Except.pure]
    cases wantOption wantPath v <;> rfl
  | directory | wrapper | console | arguments => simp [Setting.title] at ht

private theorem wantPaths_own {p : Place} (hc : wantPaths (.table o fs) = .ok c.paths)
    (hname : fs'.lookup p.key = some v) (hrest : ∀ name ≠ p.key, fs'.lookup name = fs.lookup name)
    (o' : Option String) : wantPaths (.table o' fs') =
      (inStep (.child p.key) ((Setting.directory p).want v)).map fun x => ((Setting.directory p).put x c).paths := by
  obtain ⟨hknown, hplaces⟩ := wantPaths_eq_ok.1 hc
  have hkeys : ∀ p ∈ GradleBuild.Place.all, p.key ∈ pathKeys := by decide
  have hinjective : ∀ p ∈ GradleBuild.Place.all, ∀ q ∈ GradleBuild.Place.all, q ≠ p → q.key ≠ p.key := by decide
  have hall (p : Place) : p ∈ GradleBuild.Place.all := by cases p <;> decide
  have hfields := sectionFields_own hknown (hkeys p (hall p)) hrest "struct PathsConfig" o'
  have hfield (q : Place) : field (fs'.map fun (name, v) => (name, .child name, v)) q.key none (wantOption wantPath) =
      if q = p then inStep (.child p.key) (wantOption wantPath v) else .ok (c.paths.get q) := by
    by_cases hq : q = p
    · rw [if_pos hq, hq]
      exact field_own p.key hname none (wantOption wantPath)
    · rw [if_neg hq]
      refine field_eq_ok.2 ?_
      rw [hrest q.key (hinjective p (hall p) q (hall q) hq)]
      exact hplaces q
  simp only [wantPaths, hfields, hfield, Setting.want, bind, Except.bind, pure, Except.pure]
  cases p <;>
    · simp only [reduceCtorEq, if_true, if_false]
      cases wantOption wantPath v <;> rfl

private theorem wantGradle_own (ht : k.title = "gradle") (hc : wantGradle (.table o fs) = .ok c.gradle)
    (hname : fs'.lookup k.name = some v) (hrest : ∀ name ≠ k.name, fs'.lookup name = fs.lookup name)
    (o' : Option String) :
    wantGradle (.table o' fs') = (inStep (.child k.name) (k.want v)).map fun x => (k.put x c).gradle := by
  obtain ⟨hknown, hwrapper, hconsole, hargs⟩ := wantGradle_eq_ok.1 hc
  have hkeys : ∀ k ∈ Setting.all, k.title = "gradle" → k.name ∈ gradleKeys := by decide
  have hfields := sectionFields_own hknown (hkeys k k.mem_all ht) hrest "struct GradleConfig" o'
  cases k with
  | wrapper =>
    have hown := field_own "wrapper" hname none (wantOption wantPath)
    rw [← hrest "console" (by decide)] at hconsole
    rw [← hrest "args" (by decide)] at hargs
    simp only [wantGradle, hfields, hown, field_eq_ok.2 hconsole, field_eq_ok.2 hargs, Setting.want, Setting.name, bind,
      Except.bind, pure, Except.pure]
    cases wantOption wantPath v <;> rfl
  | console =>
    have hown := field_own "console" hname .plain wantConsoleMode
    rw [← hrest "wrapper" (by decide)] at hwrapper
    rw [← hrest "args" (by decide)] at hargs
    simp only [wantGradle, hfields, hown, field_eq_ok.2 hwrapper, field_eq_ok.2 hargs, Setting.want, Setting.name, bind,
      Except.bind, pure, Except.pure]
    cases wantConsoleMode v <;> rfl
  | arguments =>
    have hown := field_own "args" hname [] wantTexts
    rw [← hrest "wrapper" (by decide)] at hwrapper
    rw [← hrest "console" (by decide)] at hconsole
    simp only [wantGradle, hfields, hown, field_eq_ok.2 hwrapper, field_eq_ok.2 hconsole, Setting.want, Setting.name,
      bind, Except.bind, pure, Except.pure]
    cases wantTexts v <;> rfl
  | dry | outputLogLevel | fileLogLevel | logFile | directory => simp [Setting.title] at ht

end Fields

/-- With another value for a setting a configuration is decoded as before but for this value. -/
theorem ofValue_agree (h : AgreeBut k base top) (htabled : Tabled k base) (hown : k.at? top = some v)
    (hc : ofValue base = .ok c) : ofValue top =
      (inStep (.child k.title) (inStep (.child k.name) (k.want v))).map fun x => k.put x c := by
  obtain ⟨s, hs, hv⟩ := Option.bind_eq_some_iff.1 hown
  obtain ⟨o', fields', rfl, hsection⟩ := exists_table_of_child? hs
  obtain ⟨o₁, fs', rfl, hname⟩ := exists_table_of_child? hv
  obtain ⟨o, fields, rfl⟩ := htabled.table
  obtain ⟨hknown, hglobal, hpaths, hgradle⟩ := ofValue_eq_ok.1 hc
  have hother : ∀ title ≠ k.title, fields'.lookup title = fields.lookup title := h.sections
  have hfields := sectionFields_own hknown k.title_mem hother "struct Config" o'
  -- the section of the setting, empty if there is none
  have hrest : ∀ name ≠ k.name,
      fs'.lookup name = (fieldsOrNone ((fields.lookup k.title).getD .null)).2.lookup name := by
    intro name hn
    have hsibling := h.siblings name hn
    rw [hs] at hsibling
    exact hsibling
  cases k with
  | dry | outputLogLevel | fileLogLevel | logFile =>
    rw [← hother "paths" (by decide)] at hpaths
    rw [← hother "gradle" (by decide)] at hgradle
    have hempty : wantGlobal (.table none []) = .ok {} := rfl
    obtain ⟨o₀, hold⟩ := taken_table hempty htabled.ownTable hglobal
    have hfield := field_own "global" hsection {} wantGlobal
    rw [wantGlobal_own rfl hold hname hrest o₁] at hfield
    simp only [ofValue, hfields, hfield, field_eq_ok.2 hpaths, field_eq_ok.2 hgradle, bind, Except.bind, pure,
      Except.pure]
    cases Setting.want _ v <;> rfl
  | directory p =>
    rw [← hother "global" (by simp [Setting.title])] at hglobal
    rw [← hother "gradle" (by simp [Setting.title])] at hgradle
    have hempty : wantPaths (.table none []) = .ok {} := rfl
    obtain ⟨o₀, hold⟩ := taken_table hempty htabled.ownTable hpaths
    have hfield := field_own "paths" hsection {} wantPaths
    rw [wantPaths_own hold hname hrest o₁] at hfield
    simp only [ofValue, hfields, hfield, field_eq_ok.2 hglobal, field_eq_ok.2 hgradle, bind, Except.bind, pure,
      Except.pure]
    cases Setting.want _ v <;> rfl
  | wrapper | console | arguments =>
    rw [← hother "global" (by decide)] at hglobal
    rw [← hother "paths" (by decide)] at hpaths
    have hempty : wantGradle (.table none []) = .ok {} := rfl
    obtain ⟨o₀, hold⟩ := taken_table hempty htabled.ownTable hgradle
    have hfield := field_own "gradle" hsection {} wantGradle
    rw [wantGradle_own rfl hold hname hrest o₁] at hfield
    simp only [ofValue, hfields, hfield, field_eq_ok.2 hglobal, field_eq_ok.2 hpaths, bind, Except.bind, pure,
      Except.pure]
    cases Setting.want _ v <;> rfl

end GradleBuild.Config
