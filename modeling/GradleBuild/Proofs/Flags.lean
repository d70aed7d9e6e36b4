import GradleBuild.Proofs.Loading

/-!
# Dedicated options

A dedicated option is handed to the configuration as the last override for its setting, in the form of a text
(`flags`).  It is in force whatever the other sources say, unless another override replaces the section of its setting
as a whole.

Paths do not survive this as they are: the text of a path has U+FFFD for what is not well-formed, and an override
loses the blanks at its ends.

* `flag_mem_overriding`: an option is among the overrides that are set in the end, each key once.
* `Stands.assignAll`: the value for a setting stands among assignments to other keys.
* `projectRoot_of_option`: the option for the root.
* `load_flags`: what the options of a run make of its configuration, and which paths arrive unchanged.
* `load_flags_trimmed`: a blank at the end of a path is lost.
-/

namespace GradleBuild.Config

open Key (changeField changeAt overlay)

variable {i : Inputs} {loaded : LoadedConfig} {c : Config} {key : Key} {k : Setting} {v w top base : Value} {n : Nat}
  {s : String} {a : Key × Value} {pairs overrides : List (Key × Value)} {p : Path}

/-! ### Options as overrides -/

/-- The dedicated options that become overrides, each with the setting it is for and the text of its value. -/
def flags (o : Options) : List (Setting × String) :=
  o.logLevel.toList.map (fun n => (.outputLogLevel, toString n))
    ++ o.fileLogLevel.toList.map (fun n => (.fileLogLevel, toString n))
    ++ o.logFile.toList.map (fun p => (.logFile, p.display))
    ++ (if o.dry then [(.dry, "true")] else [])

/-- The override of a dedicated option. -/
def flagEntry (f : Setting × String) : String := f.1.spelled "" '/' "" f.2

theorem overrides_flags (o : Options) : o.overrides = o.settings ++ (flags o).map flagEntry := by
  rw [overrides_eq, flags]
  simp only [List.map_append, List.map_map, List.append_assoc]
  cases o.dry <;> rfl

theorem splitOverride_flag (f : Setting × String) :
    Loader.splitOverride (flagEntry f) = .ok (f.1.text, trim f.2) :=
  splitOverride_spelled (by decide) (by decide) (by decide) f.1 f.2

/-- No setting has two options. -/
theorem flags_sublist (o : Options) :
    List.Sublist ((flags o).map Prod.fst) [.outputLogLevel, .fileLogLevel, .logFile, .dry] := by
  have hone {α : Type} (k : Setting) (f : α → String) (x : Option α) :
      List.Sublist ((x.toList.map fun a => (k, f a)).map Prod.fst) [k] := by
    cases x with
    | none => exact List.nil_sublist _
    | some a => exact List.Sublist.refl _
  have hdry : List.Sublist ((if o.dry then [(Setting.dry, "true")] else []).map Prod.fst) [.dry] := by
    cases o.dry with
    | false => exact List.nil_sublist _
    | true => exact List.Sublist.refl _
  rw [flags, List.map_append, List.map_append, List.map_append]
  exact (((hone _ _ _).append (hone _ _ _)).append (hone _ _ _)).append hdry

private theorem flag_cases {f : Setting × String} {o : Options} (h : f ∈ flags o) :
    f.1 ∈ [Setting.outputLogLevel, .fileLogLevel, .logFile, .dry] :=
  (flags_sublist o).subset (List.mem_map_of_mem h)

private theorem override?_flag {f : Setting × String} {o : Options} (h : f ∈ flags o) :
    override? (flagEntry f) = some (f.1.key, .text (trim f.2)) := by
  have hlist : ∀ k ∈ [Setting.outputLogLevel, .fileLogLevel, .logFile, .dry], listKeys.contains k.text = false := by
    decide
  rw [flagEntry, override?_spelled (by decide) (by decide) (by decide), Loader.overrideValue, hlist f.1 (flag_cases h)]
  rfl

/-! ### The overrides that are set in the end -/

private theorem nodup_assign (h : (overrides.map Prod.fst).Nodup) (key : Key) (v : Value) :
    ((Loader.assign key v overrides).map Prod.fst).Nodup := by
  induction overrides with
  | nil => simp [Loader.assign]
  | cons b rest ih =>
    obtain ⟨j, w⟩ := b
    obtain ⟨hj, hrest⟩ := List.nodup_cons.1 h
    by_cases heq : j = key
    · rw [Loader.assign, if_pos heq]
      exact List.nodup_cons.2 ⟨hj, hrest⟩
    · rw [Loader.assign, if_neg heq]
      refine List.nodup_cons.2 ⟨fun hmem => ?_, ih hrest⟩
      obtain ⟨a, ha, hfst⟩ := List.mem_map.1 hmem
      rcases mem_assign ha with rfl | ha
      · exact heq hfst.symm
      · exact hj (hfst ▸ List.mem_map_of_mem ha)

private theorem mem_assign_self (key : Key) (v : Value) (overrides : List (Key × Value)) :
    (key, v) ∈ Loader.assign key v overrides := by
  induction overrides with
  | nil => exact List.mem_singleton_self _
  | cons b rest ih =>
    obtain ⟨j, w⟩ := b
    by_cases heq : j = key
    · rw [Loader.assign, if_pos heq, heq]
      exact List.mem_cons_self
    · rw [Loader.assign, if_neg heq]
      exact List.mem_cons_of_mem _ ih

private theorem mem_assign_of_ne (h : a ∈ overrides) (hne : a.1 ≠ key) (v : Value) :
    a ∈ Loader.assign key v overrides := by
  induction overrides with
  | nil => cases h
  | cons b rest ih =>
    obtain ⟨j, w⟩ := b
    by_cases heq : j = key
    · rw [Loader.assign, if_pos heq]
      rcases List.mem_cons.1 h with rfl | h
      · exact absurd heq hne
      · exact List.mem_cons_of_mem _ h
    · rw [Loader.assign, if_neg heq]
      rcases List.mem_cons.1 h with rfl | h
      · exact List.mem_cons_self
      · exact List.mem_cons_of_mem _ (ih h)

private theorem nodup_assignEach (h : (overrides.map Prod.fst).Nodup) (pairs : List (Key × Value)) :
    ((assignEach pairs overrides).map Prod.fst).Nodup := by
  induction pairs generalizing overrides with
  | nil => exact h
  | cons b pairs ih => exact ih (nodup_assign h b.1 b.2)

private theorem mem_assignEach_of_ne (h : a ∈ overrides) (hne : ∀ b ∈ pairs, a.1 ≠ b.1) :
    a ∈ assignEach pairs overrides := by
  induction pairs generalizing overrides with
  | nil => exact h
  | cons b pairs ih =>
    have hkept := mem_assign_of_ne h (hne b List.mem_cons_self) b.2
    exact ih hkept fun b hb => hne b (List.mem_cons_of_mem _ hb)

/-- Assignments to distinct keys all stay. -/
private theorem mem_assignEach_of_nodup (h : a ∈ pairs) (hnodup : (pairs.map Prod.fst).Nodup)
    (overrides : List (Key × Value)) : a ∈ assignEach pairs overrides := by
  induction pairs generalizing overrides with
  | nil => cases h
  | cons b pairs ih =>
    obtain ⟨hb, hpairs⟩ := List.nodup_cons.1 hnodup
    rcases List.mem_cons.1 h with rfl | h
    · obtain ⟨key, v⟩ := a
      have hset := mem_assign_self key v overrides
      show (key, v) ∈ assignEach pairs (Loader.assign key v overrides)
      exact mem_assignEach_of_ne hset fun b hmem heq => hb (heq ▸ List.mem_map_of_mem hmem)
    · exact ih h hpairs _

theorem nodup_overriding (i : Inputs) : (i.overriding.map Prod.fst).Nodup := by
  have hnil : (([] : List (Key × Value)).map Prod.fst).Nodup := List.nodup_nil
  have heach := nodup_assignEach hnil (i.options.overrides.filterMap override?)
  cases hroot : i.options.projectRoot with
  | none =>
    rw [overriding_of_none hroot]
    exact heach
  | some p =>
    rw [overriding_of_some hroot]
    exact nodup_assign heach _ _

/-- The option for the root is set last of all. -/
theorem root_mem_overriding (h : i.options.projectRoot = some p) :
    ((Setting.directory .projectRoot).key, .text (i.dir.absoluteFrom p).display) ∈ i.overriding := by
  have hroot : i.root = i.dir.absoluteFrom p := by
    unfold Inputs.root lookupRoot
    rw [h]
  rw [overriding_of_some h, hroot]
  exact mem_assign_self _ _ _

private theorem assignments_flags (o : Options) : ((flags o).map flagEntry).filterMap override? =
    (flags o).map fun f => (f.1.key, Value.text (trim f.2)) := by
  rw [List.filterMap_map, ← List.filterMap_eq_map]
  exact List.filterMap_congr fun f hf => override?_flag hf

/-- The other options are set behind all overrides given as such. -/
theorem flag_mem_overriding {f : Setting × String} (h : f ∈ flags i.options) :
    (f.1.key, .text (trim f.2)) ∈ i.overriding := by
  have hsettings : [Setting.outputLogLevel, .fileLogLevel, .logFile, .dry].Nodup := by decide
  have hkeys : (((flags i.options).map fun f => (f.1.key, Value.text (trim f.2))).map Prod.fst).Nodup := by
    have hmap : ((flags i.options).map fun f => (f.1.key, Value.text (trim f.2))).map Prod.fst =
        ((flags i.options).map Prod.fst).map Setting.key := by
      simp only [List.map_map]
      rfl
    rw [hmap]
    have hgiven : ((flags i.options).map Prod.fst).Nodup := hsettings.sublist (flags_sublist i.options)
    exact List.pairwise_map.2 (hgiven.imp fun hne hk => hne (Setting.key_injective hk))
  have heach : (f.1.key, .text (trim f.2)) ∈ assignEach (i.options.overrides.filterMap override?) [] := by
    have hmem : (f.1.key, Value.text (trim f.2)) ∈ (flags i.options).map fun f => (f.1.key, Value.text (trim f.2)) :=
      List.mem_map.2 ⟨f, h, rfl⟩
    rw [overrides_flags, List.filterMap_append, assignments_flags]
    unfold assignEach
    rw [List.foldl_append]
    exact mem_assignEach_of_nodup hmem hkeys _
  cases hroot : i.options.projectRoot with
  | none =>
    rw [overriding_of_none hroot]
    exact heach
  | some p =>
    have hne : ∀ k ∈ [Setting.outputLogLevel, .fileLogLevel, .logFile, .dry],
        k.key ≠ (Setting.directory .projectRoot).key := by decide
    rw [overriding_of_some hroot]
    exact mem_assign_of_ne heach (hne f.1 (flag_cases h)) _

/-! ### Standing among other assignments -/

def Value.isScalar : Value → Bool
  | .scalar _ _ => true
  | _ => false

/-- Whether a key leads to a section as a whole, or to what a list of its fields holds. -/
def atSection (title : String) (key : Key) : Bool :=
  key.name == title && match key.steps with
    | .child _ :: _ => false
    | _ => true

/-- Under the key of the setting is the value, or else something that is no scalar. -/
def Stands (k : Setting) (v top : Value) : Prop := ∃ w, k.at? top = some w ∧ (w = v ∨ w.isScalar = false)

theorem stands_set (hv : ∀ old, overlay v old = v) (k : Setting) (top : Value) : Stands k v (k.key.set v top) := by
  refine ⟨v, ?_, Or.inl rfl⟩
  rw [at?_set_self, layer, hv]

/-- Another key of the section leaves what is under the key of the setting, or goes below it, so that a table or a list
comes in its place. -/
theorem at?_set_cases (hne : key ≠ k.key) (hsection : atSection k.title key = false) (w top : Value) :
    k.at? (key.set w top) = k.at? top ∨ ∃ x, k.at? (key.set w top) = some x ∧ x.isScalar = false := by
  obtain ⟨title, steps⟩ := key
  have hset : Key.set ⟨title, steps⟩ w top = changeField (changeAt (overlay w) steps) title top := rfl
  unfold Setting.at?
  rw [hset]
  by_cases ht : k.title = title
  · rw [ht, child?_changeField_self, Option.bind_some]
    match steps with
    | [] | .index n :: steps => simp [atSection, ht] at hsection
    | .child name :: steps =>
      rw [changeAt]
      by_cases hn : k.name = name
      · rw [hn, child?_changeField_self]
        match steps with
        | [] => exact absurd (by simp [Setting.key, ht, hn]) hne
        | .child _ :: _ => exact Or.inr ⟨_, rfl, rfl⟩
        | .index _ :: _ => exact Or.inr ⟨_, rfl, rfl⟩
      · left
        rw [child?_changeField_of_ne hn]
        cases top.child? title <;> rfl
  · left
    rw [child?_changeField_of_ne ht]

theorem Stands.set (h : Stands k v top) (hne : key ≠ k.key) (hsection : atSection k.title key = false) (w : Value) :
    Stands k v (key.set w top) := by
  obtain ⟨old, hat, hold⟩ := h
  rcases at?_set_cases hne hsection w top with hsame | ⟨x, hx, hscalar⟩
  · exact ⟨old, hsame.trans hat, hold⟩
  · exact ⟨x, hx, Or.inr hscalar⟩

theorem Stands.assignAll (h : Stands k v top) (hne : ∀ a ∈ pairs, a.1 ≠ k.key)
    (hsection : ∀ a ∈ pairs, atSection k.title a.1 = false) : Stands k v (Loader.assignAll pairs top) := by
  induction pairs generalizing top with
  | nil => exact h
  | cons a pairs ih =>
    have hfirst := h.set (hne a List.mem_cons_self) (hsection a List.mem_cons_self) a.2
    exact ih hfirst (fun a ha => hne a (List.mem_cons_of_mem _ ha)) fun a ha => hsection a (List.mem_cons_of_mem _ ha)

/-- A value for a setting stands among assignments to other keys. -/
theorem stands_assignAll (hmem : (k.key, v) ∈ pairs) (hv : ∀ old, overlay v old = v)
    (hnodup : (pairs.map Prod.fst).Nodup) (hsection : ∀ a ∈ pairs, atSection k.title a.1 = false) (top : Value) :
    Stands k v (Loader.assignAll pairs top) := by
  obtain ⟨before, after, rfl⟩ := List.append_of_mem hmem
  rw [List.map_append, List.map_cons] at hnodup
  have hlast : k.key ∉ after.map Prod.fst := (List.nodup_cons.1 (List.nodup_append.1 hnodup).2.1).1
  have hne : ∀ a ∈ after, a.1 ≠ k.key := fun a ha heq => hlast (heq ▸ List.mem_map_of_mem ha)
  rw [assignAll_append]
  exact (stands_set hv k (Loader.assignAll before top)).assignAll hne fun a ha => hsection a (by simp [ha])

/-! ### What is decoded -/

/-- All settings but the console mode and the arguments are scalars. -/
private theorem isScalar_of_want {x : k.Kind} (h : k.want w = .ok x)
    (hk : k ∉ [Setting.console, .arguments]) : w.isScalar = true := by
  cases w with
  | scalar => rfl
  | list o items =>
    cases k with
    | dry => simp [Setting.want, wantBool, fail] at h
    | outputLogLevel => simp [Setting.want, wantLevel, wantUnsigned, fail, bind, Except.bind] at h
    | fileLogLevel => simp [Setting.want, wantOption, wantLevel, wantUnsigned, fail, bind, Except.bind] at h
    | logFile | directory | wrapper => simp [Setting.want, wantOption, wantPath, wantText, fail, bind, Except.bind] at h
    | console | arguments => simp at hk
  | table o fields =>
    obtain ⟨-, -, -, ⟨rfl, -⟩, -⟩ := want_table h
    simp at hk

theorem Stands.want (h : Stands k v top) (hk : k ∉ [Setting.console, .arguments]) (hc : ofValue top = .ok c) :
    k.want v = .ok (k.get c) := by
  obtain ⟨w, hat, rfl | hw⟩ := h
  · exact want_of_at? hc hat
  · have hscalar := isScalar_of_want (want_of_at? hc hat) hk
    rw [hw] at hscalar
    cases hscalar

/-- A level is read back from the text that an option hands on. -/
private theorem wantLevel_toString {l : Log.Level} (h : wantLevel (.text (toString n)) = .ok l) : l.toNat = n :=
  Int.ofNat.inj (Decimal.wantLevel_text.1 h)

/-! ### Paths as texts -/

/-- A path is one that has a text just if its text names it. -/
theorem ofText_display_iff : Path.ofText p.display = p ↔ ∃ s, p = .ofText s := by
  constructor
  · intro h
    exact ⟨p.display, h.symm⟩
  · rintro ⟨s, rfl⟩
    rw [Path.display_ofText]

theorem ofText_trim_iff : Path.ofText (trim p.display) = p ↔ ∃ s, p = .ofText s ∧ trim s = s := by
  constructor
  · intro h
    have htrim : p.display = trim p.display := by
      conv_lhs => rw [← h, Path.display_ofText]
    exact ⟨p.display, by rw [htrim, h], htrim.symm⟩
  · rintro ⟨s, rfl, hs⟩
    rw [Path.display_ofText, hs]

theorem isAbsolute_ofText_display (h : p.isAbsolute = true) : (Path.ofText p.display).isAbsolute = true := by
  obtain ⟨bytes⟩ := p
  obtain ⟨bs, rfl⟩ : ∃ bs, bytes = Path.slash :: bs := by
    cases bytes with
    | nil => cases h
    | cons b bs =>
      have hb : b = Path.slash := by simpa [Path.isAbsolute] using h
      exact ⟨bs, by rw [hb]⟩
  have hdisplay : (Path.mk (Path.slash :: bs)).display = String.ofList ('/' :: Utf8.decodeFrom none bs) := rfl
  rw [hdisplay, Path.ofText, encode, String.toList_ofList]
  rfl

/-! ### What is loaded -/

/-- The options are in force, those for paths as far as a text can carry them. -/
structure Heeded (o : Options) (dir : Path) (c : Config) : Prop where
  logLevel : ∀ n, o.logLevel = some n → c.globals.outputLogLevel.toNat = n
  fileLogLevel : ∀ n, o.fileLogLevel = some n → ∃ l, c.globals.fileLogLevel = some l ∧ l.toNat = n
  dry : o.dry = true → c.globals.dry = true
  logFile : ∀ p, o.logFile = some p → c.globals.logFile = some (.ofText (trim p.display))
  projectRoot : ∀ p, o.projectRoot = some p → c.paths.projectRoot = some (.ofText (dir.absoluteFrom p).display)

/-- No override given as such leads to the section of the options or of the directories as a whole. -/
def Inputs.KeepsSections (i : Inputs) : Prop := ∀ a ∈ i.options.settings.filterMap override?,
  ∀ title ∈ ["global", "paths"], atSection title a.1 = false

instance (i : Inputs) : Decidable i.KeepsSections := inferInstanceAs (Decidable (∀ a ∈ _, _))

/-- If no override given as such leads to a section as a whole, none does. -/
private theorem not_atSection_overriding {title : String}
    (hi : ∀ a ∈ i.options.settings.filterMap override?, atSection title a.1 = false) (h : a ∈ i.overriding) :
    atSection title a.1 = false := by
  have hsetting (k : Setting) : atSection title k.key = false := by simp [atSection, Setting.key]
  rcases mem_overriding h with h | rfl
  · rw [overrides_flags, List.filterMap_append, assignments_flags] at h
    rcases List.mem_append.1 h with h | h
    · exact hi a h
    · obtain ⟨f, -, rfl⟩ := List.mem_map.1 h
      exact hsetting f.1
  · exact hsetting _

/-- What is set for a setting is decoded, in whatever order the overrides come. -/
private theorem want_overriding (horder : i.overriding.Perm overrides)
    (hi : ∀ a ∈ i.options.settings.filterMap override?, atSection k.title a.1 = false)
    (hk : k ∉ [Setting.console, .arguments]) (hc : ofValue (Loader.assignAll overrides base) = .ok c)
    (hmem : (k.key, .text s) ∈ i.overriding) : k.want (.text s) = .ok (k.get c) := by
  have hnodup : (overrides.map Prod.fst).Nodup := (horder.map Prod.fst).nodup_iff.1 (nodup_overriding i)
  have hstands : Stands k (.text s) (Loader.assignAll overrides base) :=
    stands_assignAll (horder.mem_iff.1 hmem) (fun _ => by rw [Value.text, overlay]) hnodup
      (fun _ ha => not_atSection_overriding hi (horder.mem_iff.2 ha)) base
  exact hstands.want hk hc

/-- The option for the root is in force, as a text, in whatever order the overrides come. -/
theorem projectRoot_of_option (hdir : i.dir.isAbsolute = true) (horder : i.overriding.Perm overrides)
    (hi : ∀ a ∈ i.options.settings.filterMap override?, atSection "paths" a.1 = false)
    (hc : ofValue (Loader.assignAll overrides base) = .ok c) (hp : i.options.projectRoot = some p) :
    (rooted i.dir c).paths.projectRoot = some (.ofText (i.dir.absoluteFrom p).display) := by
  have hwant := want_overriding (k := .directory .projectRoot) horder hi (by decide) hc (root_mem_overriding hp)
  have hroot : c.paths.projectRoot = some (.ofText (i.dir.absoluteFrom p).display) := (Except.ok.inj hwant).symm
  have habsolute := isAbsolute_ofText_display (Path.isAbsolute_absoluteFrom hdir p)
  show c.paths.projectRoot.map i.dir.absoluteFrom = _
  rw [hroot, Option.map_some, Path.absoluteFrom, if_pos habsolute]

/-- Each option of a run is in force, whatever the other sources say, as long as no override leads to a section as a
whole; but a path is carried as a text without blanks at its ends, and the root as a text.  So a path of the options
arrives unchanged just if such a text names it. -/
theorem load_flags (i : Inputs) (loaded : LoadedConfig) (hdir : i.dir.isAbsolute = true) (hi : i.KeepsSections)
    (h : i.load = .ok loaded) :
    Heeded i.options i.dir loaded.config ∧
      (∀ p, i.options.logFile = some p →
        (loaded.config.globals.logFile = some p ↔ ∃ s, p = .ofText s ∧ trim s = s)) ∧
      (∀ p, i.options.projectRoot = some p →
        (loaded.config.paths.projectRoot = some (i.dir.absoluteFrom p) ↔ ∃ s, i.dir.absoluteFrom p = .ofText s)) ∧
      ∀ f ∈ flags i.options, flagEntry f ∈ i.options.overrides ∧
        Loader.splitOverride (flagEntry f) = .ok (f.1.text, trim f.2) := by
  obtain ⟨-, base, c, -, hvalue, -, rfl⟩ := load_eq_ok h
  have hflag {k : Setting} {s : String} (hmem : (k, s) ∈ flags i.options) :
      k.want (.text (trim s)) = .ok (k.get c) := by
    have hglobal : ∀ k ∈ [Setting.outputLogLevel, .fileLogLevel, .logFile, .dry],
        k.title ∈ ["global", "paths"] ∧ k ∉ [Setting.console, .arguments] := by decide
    obtain ⟨htitle, hk⟩ := hglobal k (flag_cases hmem)
    exact want_overriding (.refl _) (fun a ha => hi a ha k.title htitle) hk hvalue (flag_mem_overriding hmem)
  have hheeded : Heeded i.options i.dir (rooted i.dir c) := by
    refine ⟨fun n hn => ?_, fun n hn => ?_, fun hdry => ?_, fun p hp => ?_, fun p hp => ?_⟩
    · have hwant := hflag (k := .outputLogLevel) (s := toString n) (by simp [flags, hn])
      rw [trim_toString] at hwant
      exact wantLevel_toString hwant
    · have hwant := hflag (k := .fileLogLevel) (s := toString n) (by simp [flags, hn])
      rw [trim_toString] at hwant
      obtain ⟨l, hl, hsome⟩ := bind_eq_ok hwant
      exact ⟨l, (Except.ok.inj hsome).symm, wantLevel_toString hl⟩
    · have hwant := hflag (k := .dry) (s := "true") (by simp [flags, hdry])
      have htrue : Setting.dry.want (.text (trim "true")) = .ok true := by decide +kernel
      rw [htrue] at hwant
      exact (Except.ok.inj hwant).symm
    · have hwant := hflag (k := .logFile) (s := p.display) (by simp [flags, hp])
      exact (Except.ok.inj hwant).symm
    · exact projectRoot_of_option hdir (.refl _) (fun a ha => hi a ha "paths" (by simp)) hvalue hp
  refine ⟨hheeded, fun p hp => ?_, fun p hp => ?_, fun f hf => ⟨?_, splitOverride_flag f⟩⟩
  · rw [hheeded.logFile p hp, Option.some.injEq, ofText_trim_iff]
  · rw [hheeded.projectRoot p hp, Option.some.injEq, ofText_display_iff]
  · rw [overrides_flags]
    exact List.mem_append_right _ (List.mem_map_of_mem hf)

/-- A run with a log file, which an override and a variable give otherwise. -/
def Inputs.logging (file : String) : Inputs where
  tree := .ofEntries [([encode "p"], .directory)]
  cwd := [encode "p"]
  environment := [("SCP_BUILD_GLOBAL__DRY", encode "off"), ("SCP_BUILD_GLOBAL__OUTPUT_LOG_LEVEL", encode "0")]
  options :=
    { projectRoot := some (.ofText "sub")
      dry := true
      logLevel := some 4
      fileLogLevel := some 5
      logFile := some (.ofText file)
      settings := ["global.log_file = other.log", "paths/project_root=/"] }
  dir := .ofText "/p"

/-- What is loaded there. -/
def Inputs.loadedLogging (file : String) : LoadedConfig where
  config :=
    { globals := { dry := true, outputLogLevel := .debug, fileLogLevel := some .trace, logFile := some (.ofText file) }
      paths := { projectRoot := some (.ofText "/p/sub") } }
  files := []

theorem load_flags_plain : (Inputs.logging "a=b /c.log").dir.isAbsolute = true ∧
    (Inputs.logging "a=b /c.log").KeepsSections ∧
    (Inputs.logging "a=b /c.log").load = .ok (Inputs.loadedLogging "a=b /c.log") ∧
    Heeded (Inputs.logging "a=b /c.log").options (.ofText "/p") (Inputs.loadedLogging "a=b /c.log").config := by
  have hkeeps : (Inputs.logging "a=b /c.log").KeepsSections := by decide +kernel
  have hload : (Inputs.logging "a=b /c.log").load = .ok (Inputs.loadedLogging "a=b /c.log") := by decide +kernel
  obtain ⟨hheeded, -⟩ := load_flags (.logging "a=b /c.log") (Inputs.loadedLogging "a=b /c.log") (by decide) hkeeps hload
  exact ⟨by decide, hkeeps, hload, hheeded⟩

/-- A blank at the end of a path is lost. -/
theorem load_flags_trimmed : (Inputs.logging "build.log ").load = .ok (Inputs.loadedLogging "build.log") ∧
    (Inputs.logging "build.log ").options.logFile ≠ (Inputs.loadedLogging "build.log").config.globals.logFile :=
  ⟨by decide +kernel, by decide +kernel⟩

end GradleBuild.Config
