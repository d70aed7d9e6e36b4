import GradleBuild.Config.Load
import GradleBuild.Proofs.Decimals
import GradleBuild.Proofs.Layers
import Mathlib.Data.List.TakeWhile

/-!
# Overrides of settings

An override names its setting with a dot or a slash, with blanks around the name and the value (`Setting.spelled`).  The
dedicated options become such overrides too, behind all others.

* `ofEntry_spelled`: what such an override gives, and to which setting alone.
* `applyOverrides_ok`: after any number of overrides each setting has the value of the last one for it.
* `filterMap_overrides`: what the overrides and the options of a command line give.
-/

namespace GradleBuild.Config

variable {k j : Setting} {l l' : Loader} {v : Value} {entry key value : String} {overrides : List (Key × Value)}

/-! ### Keys and overrides as texts -/

theorem read?_text (k : Setting) : Key.read? k.text = some k.key := by
  have hall : ∀ k ∈ Setting.all, Key.read? k.text = some k.key := by decide +kernel
  exact hall k k.mem_all

theorem text_injective (h : k.text = j.text) : k = j := by
  have := read?_text k
  rw [h, read?_text j] at this
  exact (Setting.key_injective (Option.some.inj this)).symm

/-- The value that an override gives to a setting. -/
def ofEntry (k : Setting) (entry : String) : Option Value :=
  match Loader.splitOverride entry with
  | .ok (key, value) => if key = k.text then some (Loader.overrideValue key value) else none
  | .error _ => none

private theorem valuesFor_assign_self (v : Value) (h : (valuesFor j overrides).length ≤ 1) :
    valuesFor j (Loader.assign j.key v overrides) = [v] := by
  induction overrides with
  | nil => simp [valuesFor, Loader.assign]
  | cons a rest ih =>
    rw [valuesFor_cons] at h
    by_cases hk : a.1 = j.key
    · rw [if_pos hk, List.length_cons] at h
      have hrest : valuesFor j rest = [] := List.length_eq_zero_iff.1 (by omega)
      rw [Loader.assign, if_pos hk, valuesFor_cons, if_pos hk, hrest]
    · rw [if_neg hk] at h
      rw [Loader.assign, if_neg hk, valuesFor_cons, if_neg hk, ih h]

private theorem valuesFor_assign_of_ne (h : k ≠ j) (v : Value) (overrides : List (Key × Value)) :
    valuesFor k (Loader.assign j.key v overrides) = valuesFor k overrides := by
  have hkey : j.key ≠ k.key := fun he => h (Setting.key_injective he.symm)
  induction overrides with
  | nil => simp [valuesFor, Loader.assign, hkey]
  | cons a rest ih =>
    by_cases hk : a.1 = j.key
    · have hne : a.1 ≠ k.key := fun he => hkey (hk.symm.trans he)
      rw [Loader.assign, if_pos hk, valuesFor_cons, valuesFor_cons, if_neg hne, if_neg hne]
    · rw [Loader.assign, if_neg hk, valuesFor_cons, valuesFor_cons, ih]

private theorem ofSettings_assign (h : OfSettings overrides) (j : Setting) (v : Value) :
    OfSettings (Loader.assign j.key v overrides) := by
  induction overrides with
  | nil =>
    intro a ha
    rw [List.mem_singleton.1 ha]
    exact ⟨j, rfl⟩
  | cons a rest ih =>
    obtain ⟨key, w⟩ := a
    by_cases hk : key = j.key
    · rw [Loader.assign, if_pos hk]
      intro b hb
      rcases List.mem_cons.1 hb with rfl | hb
      · exact ⟨j, hk⟩
      · exact h b (List.mem_cons_of_mem _ hb)
    · rw [Loader.assign, if_neg hk]
      intro b hb
      rcases List.mem_cons.1 hb with rfl | hb
      · exact h _ List.mem_cons_self
      · exact ih (fun b hb => h b (List.mem_cons_of_mem _ hb)) b hb

/-- The overrides of a loader hold, for each setting, the value that is expected. -/
structure Overrides (expected : Setting → Option Value) (overrides : List (Key × Value)) : Prop where
  ofSettings : OfSettings overrides
  values : ∀ k, valuesFor k overrides = (expected k).toList

theorem Overrides.assign {expected : Setting → Option Value} (h : Overrides expected overrides) (j : Setting)
    (v : Value) : Overrides (fun k => if k = j then some v else expected k) (Loader.assign j.key v overrides) where
  ofSettings := ofSettings_assign h.ofSettings j v
  values k := by
    by_cases hk : k = j
    · subst hk
      rw [valuesFor_assign_self v (by rw [h.values]; cases expected k <;> simp), if_pos rfl]
      rfl
    · rw [valuesFor_assign_of_ne hk, h.values, if_neg hk]

theorem Overrides.congr {expected expected' : Setting → Option Value} (h : Overrides expected overrides)
    (he : ∀ k, expected k = expected' k) : Overrides expected' overrides := by
  obtain rfl : expected = expected' := funext he
  exact h

private theorem applyOverride_ok (h : l.applyOverride entry = .ok l')
    (hentry : ∀ key x, Loader.splitOverride entry = .ok (key, x) → ∃ k : Setting, key = k.text) :
    ∃ j v, (∀ k, ofEntry k entry = if k = j then some v else none) ∧
      l' = { l with overrides := Loader.assign j.key v l.overrides } := by
  unfold Loader.applyOverride at h
  obtain ⟨⟨key, value⟩, hsplit, hset⟩ := bind_eq_ok h
  obtain ⟨j, rfl⟩ := hentry key value hsplit
  refine ⟨j, Loader.overrideValue j.text value, fun k => ?_, ?_⟩
  · unfold ofEntry
    rw [hsplit]
    by_cases hk : k = j
    · simp [hk]
    · have hne : j.text ≠ k.text := fun he => hk (text_injective he).symm
      simp [hk, hne]
  · simp only [Loader.set, read?_text] at hset
    exact (Except.ok.inj hset).symm

/-- The last override for a setting counts. -/
theorem applyOverrides_ok {entries : List String} {expected : Setting → Option Value}
    (hl : Overrides expected l.overrides) (h : l.applyOverrides entries = .ok l')
    (hentries : ∀ e ∈ entries, ∀ key x, Loader.splitOverride e = .ok (key, x) → ∃ k : Setting, key = k.text) :
    Overrides (fun k => ((entries.filterMap (ofEntry k)).getLast?).or (expected k)) l'.overrides ∧
      l' = { l with overrides := l'.overrides } := by
  induction entries generalizing l expected with
  | nil =>
    obtain rfl := Except.ok.inj h
    exact ⟨hl, rfl⟩
  | cons e entries ih =>
    obtain ⟨l₁, h₁, hrest⟩ := bind_eq_ok h
    obtain ⟨j, v, hv, rfl⟩ := applyOverride_ok h₁ (hentries e (by simp))
    -- the rest starts from what the first override has set
    obtain ⟨hvalues, heq⟩ := ih (hl.assign j v) hrest fun e he => hentries e (List.mem_cons_of_mem _ he)
    refine ⟨hvalues.congr fun k => ?_, heq⟩
    by_cases hk : k = j
    · have hfirst : ofEntry k e = some v := by rw [hv, if_pos hk]
      rw [List.filterMap_cons_some hfirst, List.getLast?_cons, if_pos hk]
      cases (entries.filterMap (ofEntry k)).getLast? <;> rfl
    · have hfirst : ofEntry k e = none := by rw [hv, if_neg hk]
      rw [List.filterMap_cons_none hfirst, if_neg hk]

/-! ### How an override may be written -/

private theorem trimChars_between {before cs after : List Char} (hb : ∀ c ∈ before, isBlank c = true)
    (hcs : ∀ c ∈ cs, isBlank c = false) (ha : ∀ c ∈ after, isBlank c = true) :
    trimChars (before ++ cs ++ after) = cs := by
  have hkeep : ∀ cs : List Char, (∀ c ∈ cs, isBlank c = false) → cs.dropWhile isBlank = cs := by
    intro cs hcs
    rw [List.dropWhile_eq_self_iff]
    intro hl
    simp [hcs _ (List.getElem_mem hl)]
  unfold trimChars
  rw [List.append_assoc, List.dropWhile_append_of_pos hb]
  cases cs with
  | nil =>
    rw [List.nil_append, List.dropWhile_eq_nil_iff.2 ha]
    rfl
  | cons c cs =>
    have hc : isBlank c = false := hcs c List.mem_cons_self
    rw [List.cons_append, List.dropWhile_cons_of_neg (by simp [hc]), ← List.cons_append, List.reverse_append,
      List.dropWhile_append_of_pos fun c hc => ha c (List.mem_reverse.1 hc),
      hkeep _ fun c hc => hcs c (List.mem_reverse.1 hc), List.reverse_reverse]

theorem trim_toString (n : Nat) : trim (toString n) = toString n := Decimal.trim_eq n

/-- An override for a setting as it may be written. -/
def Setting.spelled (k : Setting) (before : String) (separator : Char) (after value : String) : String :=
  before ++ (k.title ++ String.singleton separator ++ k.name) ++ after ++ "=" ++ value

private theorem mem_title_name {c : Char} (hc : c ∈ j.title.toList ++ j.name.toList) :
    isBlank c = false ∧ c ≠ '=' ∧ c ≠ '/' := by
  have hall : ∀ j ∈ Setting.all,
      (j.title.toList ++ j.name.toList).all (fun c => !isBlank c && c != '=' && c != '/') = true := by decide +kernel
  simpa [and_assoc] using List.all_eq_true.1 (hall j j.mem_all) c hc

private theorem map_dots {cs : List Char} (h : ∀ c ∈ cs, c ≠ '/') :
    (cs.map fun c => if c = '/' then '.' else c) = cs := by
  refine (List.map_congr_left fun c hc => ?_).trans (List.map_id' cs)
  exact if_neg (h c hc)

theorem splitOverride_spelled {before after : String} {separator : Char} (hb : isAllBlank before = true)
    (hs : separator ∈ ['.', '/']) (ha : isAllBlank after = true) (j : Setting) (value : String) :
    Loader.splitOverride (j.spelled before separator after value) = .ok (j.text, trim value) := by
  have hsep : isBlank separator = false ∧ separator ≠ '=' ∧ (if separator = '/' then '.' else separator) = '.' := by
    rcases List.mem_pair.1 hs with rfl | rfl <;> decide
  have hword : ∀ c ∈ j.title.toList ++ separator :: j.name.toList, isBlank c = false ∧ c ≠ '=' := by
    intro c hc
    rcases List.mem_append.1 hc with hc | hc
    · obtain ⟨hblank, hequals, -⟩ := mem_title_name (List.mem_append_left _ hc)
      exact ⟨hblank, hequals⟩
    · rcases List.mem_cons.1 hc with rfl | hc
      · exact ⟨hsep.1, hsep.2.1⟩
      · obtain ⟨hblank, hequals, -⟩ := mem_title_name (List.mem_append_right _ hc)
        exact ⟨hblank, hequals⟩
  have hkey : ((j.title.toList ++ separator :: j.name.toList).map fun c => if c = '/' then '.' else c) =
      j.text.toList := by
    rw [List.map_append, List.map_cons, hsep.2.2, map_dots fun c hc => (mem_title_name (List.mem_append_left _ hc)).2.2,
      map_dots fun c hc => (mem_title_name (List.mem_append_right _ hc)).2.2]
    simp [Setting.text]
  have hne : j.text.toList.isEmpty = false := by simp [← hkey]
  have hblank : ∀ c, isBlank c = true → c ≠ '=' := by
    rintro c hc rfl
    have : isBlank '=' = false := by decide
    rw [this] at hc
    cases hc
  have hbefore := List.all_eq_true.1 hb
  have hafter := List.all_eq_true.1 ha
  -- the first sign of equality is the one behind the name
  have hcut : ∀ c ∈ before.toList ++ (j.title.toList ++ separator :: j.name.toList) ++ after.toList,
      (c == '=') = false := by
    intro c hc
    rw [beq_eq_false_iff_ne]
    rcases List.mem_append.1 hc with hc | hc
    · rcases List.mem_append.1 hc with hc | hc
      · exact hblank c (hbefore c hc)
      · exact (hword c hc).2
    · exact hblank c (hafter c hc)
  have hchars : (j.spelled before separator after value).toList =
      before.toList ++ (j.title.toList ++ separator :: j.name.toList) ++ after.toList ++ '=' :: value.toList := by
    simp [Setting.spelled]
  unfold Loader.splitOverride
  rw [hchars, cutAt_append_cons hcut rfl]
  dsimp only
  rw [trimChars_between hbefore (fun c hc => (hword c hc).1) hafter, hkey, hne, String.ofList_toList]
  rfl

/-- An override gives its value to the setting it names, and to no other. -/
theorem ofEntry_spelled {before after : String} {separator : Char} (hb : isAllBlank before = true)
    (hs : separator ∈ ['.', '/']) (ha : isAllBlank after = true) (k j : Setting) (value : String) :
    ofEntry k (j.spelled before separator after value) =
      if k = j then some (Loader.overrideValue j.text (trim value)) else none := by
  unfold ofEntry
  rw [splitOverride_spelled hb hs ha]
  by_cases hk : k = j
  · simp [hk]
  · have hne : j.text ≠ k.text := fun he => hk (text_injective he).symm
    simp [hk, hne]

/-! ### Dedicated options -/

private theorem option_entries {α : Type} (hj : listKeys.contains j.text = false) (k : Setting) (f : α → String)
    (x : Option α) : (x.toList.map fun a => j.spelled "" '/' "" (f a)).filterMap (ofEntry k) =
      if k = j then (x.map fun a => .text (trim (f a))).toList else [] := by
  cases x with
  | none => simp
  | some a =>
    have hentry : ofEntry k (j.spelled "" '/' "" (f a)) =
        if k = j then some (Loader.overrideValue j.text (trim (f a))) else none :=
      ofEntry_spelled rfl (by decide) rfl k j (f a)
    have hvalue : Loader.overrideValue j.text (trim (f a)) = .text (trim (f a)) := by
      rw [Loader.overrideValue, hj]
      rfl
    rw [hvalue] at hentry
    by_cases hk : k = j <;> simp_all

/-- The options of a command line as overrides. -/
theorem overrides_eq (o : Options) : o.overrides = o.settings
    ++ (o.logLevel.toList.map fun n => Setting.outputLogLevel.spelled "" '/' "" (toString n))
    ++ (o.fileLogLevel.toList.map fun n => Setting.fileLogLevel.spelled "" '/' "" (toString n))
    ++ (o.logFile.toList.map fun p => Setting.logFile.spelled "" '/' "" p.display)
    ++ ((if o.dry then some "true" else none).toList.map fun s => Setting.dry.spelled "" '/' "" s) := by
  have hlevel : "global/output_log_level=" =
      "" ++ ("global" ++ String.singleton '/' ++ "output_log_level") ++ "" ++ "=" := by decide
  have hfile : "global/file_log_level=" =
      "" ++ ("global" ++ String.singleton '/' ++ "file_log_level") ++ "" ++ "=" := by decide
  have hlog : "global/log_file=" = "" ++ ("global" ++ String.singleton '/' ++ "log_file") ++ "" ++ "=" := by decide
  have hdry : (if o.dry then ["global/dry=true"] else []) =
      ((if o.dry then some "true" else none).toList.map fun s => Setting.dry.spelled "" '/' "" s) := by
    cases o.dry <;> decide
  unfold Options.overrides
  rw [hlevel, hfile, hlog, hdry]
  rfl

/-- What the overrides of a command line give, those of its options last. -/
theorem filterMap_overrides (o : Options) (k : Setting) : o.overrides.filterMap (ofEntry k) =
    o.settings.filterMap (ofEntry k)
      ++ (if k = .outputLogLevel then (o.logLevel.map fun n => .text (toString n)).toList else [])
      ++ (if k = .fileLogLevel then (o.fileLogLevel.map fun n => .text (toString n)).toList else [])
      ++ (if k = .logFile then (o.logFile.map fun p => .text (trim p.display)).toList else [])
      ++ (if k = .dry then if o.dry then [.text "true"] else [] else []) := by
  rw [overrides_eq]
  simp only [List.filterMap_append]
  rw [option_entries (by decide), option_entries (by decide), option_entries (by decide), option_entries (by decide)]
  simp only [trim_toString]
  congr 1
  cases o.dry <;> rfl

/-- The options of a command line set nothing but settings. -/
theorem keys_overrides {o : Options} (he : entry ∈ o.overrides) (h : Loader.splitOverride entry = .ok (key, value)) :
    entry ∈ o.settings ∨ ∃ k : Setting, key = k.text := by
  have hoption : ∀ (j : Setting) (s : String), entry = j.spelled "" '/' "" s → ∃ k : Setting, key = k.text := by
    rintro j s rfl
    rw [splitOverride_spelled (by decide) (by decide) (by decide)] at h
    exact ⟨j, (Prod.mk.inj (Except.ok.inj h)).1.symm⟩
  rw [overrides_eq] at he
  simp only [List.mem_append, List.mem_map] at he
  rcases he with (((he | ⟨n, -, he⟩) | ⟨n, -, he⟩) | ⟨p, -, he⟩) | ⟨s, -, he⟩
  · exact Or.inl he
  · exact Or.inr (hoption .outputLogLevel _ he.symm)
  · exact Or.inr (hoption .fileLogLevel _ he.symm)
  · exact Or.inr (hoption .logFile _ he.symm)
  · exact Or.inr (hoption .dry _ he.symm)

end GradleBuild.Config
