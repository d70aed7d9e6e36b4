import GradleBuild.Config.Loader
import GradleBuild.Proofs.Settings
import Mathlib.Data.List.Induction

/-!
# Values over values

Layers are merged by setting keys one after another, in the end by putting values over values (`overlay`).  So what is
under the key of a setting is told by the values for this setting alone, the last one on top.

* `at?_assignAll`: assignments to the keys of settings.
* `at?_merge`: the fields of a source that sets nothing but settings.
* `taken_last`: the last value that is given is the one that is decoded.
-/

namespace GradleBuild.Config

open Key (fieldsOrNone changeField overlay overlayFields)

variable {name other title : String} {o : Option String} {fields fs : Fields} {v w top old : Value} {k j : Setting}
  {assignments : List (Key × Value)}

/-! ### Fields -/

theorem putField_putField (name : String) (v w : Value) (fs : Fields) :
    putField name v (putField name w fs) = putField name v fs := by
  induction fs with
  | nil => simp [putField]
  | cons f fs ih =>
    obtain ⟨n, x⟩ := f
    by_cases hn : n = name
    · simp [putField, hn]
    · simp [putField, hn, ih]

theorem child?_changeField_self (change : Value → Value) (name : String) (v : Value) :
    (changeField change name v).child? name = some (change ((v.child? name).getD .null)) :=
  lookup_putField_self name _ _

theorem child?_changeField_of_ne (h : other ≠ name) (change : Value → Value) (v : Value) :
    (changeField change name v).child? other = v.child? other := lookup_putField_of_ne h _ _

theorem changeField_changeField (f g : Value → Value) (name : String) (v : Value) :
    changeField f name (changeField g name v) = changeField (fun x => f (g x)) name v := by
  simp [changeField, fieldsOrNone, putField_putField, lookup_putField_self]

/-- A value that is put over another one under a name makes its place a table. -/
theorem Sectioned.changeField {change : Value → Value} (h : Sectioned top) (hc : ∀ x, ∃ o fs, change x = .table o fs) :
    Sectioned (changeField change title top) := by
  obtain ⟨o, fields, rfl, hs⟩ := h
  refine ⟨o, _, rfl, fun title' v hv => ?_⟩
  by_cases ht : title' = title
  · rw [ht, lookup_putField_self] at hv
    rw [← Option.some.inj hv]
    exact hc _
  · rw [lookup_putField_of_ne ht] at hv
    exact hs title' v hv

/-! ### Setting the key of a setting -/

theorem Setting.key_injective (h : k.key = j.key) : k = j := by
  have hall : ∀ k ∈ all, ∀ j ∈ all, k.key = j.key → k = j := by decide
  exact hall k k.mem_all j j.mem_all h

/-- A value over the one that is there, if one is. -/
def layer (old : Option Value) (v : Value) : Option Value := some (overlay v (old.getD .null))

private theorem set_key (k : Setting) (v top : Value) :
    k.key.set v top = changeField (changeField (overlay v) k.name) k.title top := rfl

theorem child?_getD (s : Option Value) (name : String) :
    (s.getD .null).child? name = s.bind (·.child? name) := by
  cases s <;> rfl

theorem at?_set_self (k : Setting) (v top : Value) : k.at? (k.key.set v top) = layer (k.at? top) v := by
  unfold Setting.at?
  rw [set_key, child?_changeField_self, Option.bind_some, child?_changeField_self, child?_getD]
  rfl

theorem at?_set_of_ne (h : j ≠ k) (v top : Value) : j.at? (k.key.set v top) = j.at? top := by
  unfold Setting.at?
  rw [set_key]
  by_cases ht : j.title = k.title
  · have hn : j.name ≠ k.name := fun hn => h (Setting.key_injective (by simp [Setting.key, ht, hn]))
    rw [ht, child?_changeField_self, Option.bind_some, child?_changeField_of_ne hn, child?_getD]
  · rw [child?_changeField_of_ne ht]

theorem Sectioned.set (h : Sectioned top) (k : Setting) (v : Value) : Sectioned (k.key.set v top) :=
  h.changeField fun _ => ⟨_, _, rfl⟩

/-- The values that some assignments give to a setting. -/
def valuesFor (k : Setting) (assignments : List (Key × Value)) : List Value :=
  assignments.filterMap fun (key, v) => if key = k.key then some v else none

theorem valuesFor_cons (k : Setting) (a : Key × Value) (as : List (Key × Value)) :
    valuesFor k (a :: as) = if a.1 = k.key then a.2 :: valuesFor k as else valuesFor k as := by
  unfold valuesFor
  rw [List.filterMap_cons]
  by_cases h : a.1 = k.key <;> simp [h]

theorem valuesFor_append (k : Setting) (as bs : List (Key × Value)) :
    valuesFor k (as ++ bs) = valuesFor k as ++ valuesFor k bs := List.filterMap_append

/-- Every key is that of a setting. -/
def OfSettings (assignments : List (Key × Value)) : Prop := ∀ a ∈ assignments, ∃ k : Setting, a.1 = k.key

/-- Assignments to the keys of settings put, for each setting, its values over what was there. -/
theorem at?_assignAll (h : OfSettings assignments) (hs : Sectioned top) :
    Sectioned (Loader.assignAll assignments top) ∧
      ∀ k : Setting, k.at? (Loader.assignAll assignments top) = (valuesFor k assignments).foldl layer (k.at? top) := by
  induction assignments generalizing top with
  | nil => exact ⟨hs, fun _ => rfl⟩
  | cons a assignments ih =>
    obtain ⟨key, v⟩ := a
    obtain ⟨j, hj⟩ := h (key, v) (by simp)
    obtain rfl : key = j.key := hj
    -- the first assignment goes to its own setting, and leaves the others
    obtain ⟨hs', hat⟩ := ih (fun a ha => h a (List.mem_cons_of_mem _ ha)) (hs.set j v)
    refine ⟨hs', fun k => (hat k).trans ?_⟩
    rw [valuesFor_cons]
    by_cases hk : k = j
    · rw [hk, if_pos rfl, at?_set_self]
      rfl
    · rw [if_neg fun he => hk (Setting.key_injective he.symm), at?_set_of_ne hk]

/-! ### Sections -/

/-- The fields of sections as assignments. -/
def flatten (fields : Fields) : List (Key × Value) :=
  fields.flatMap fun (title, v) => (fieldsOrNone v).2.map fun (name, x) => (⟨title, [.child name]⟩, x)

def Value.isTable : Value → Bool
  | .table _ _ => true
  | _ => false

/-- Sections that set nothing but settings. -/
def OnlySettings (fields : Fields) : Prop := ∀ f ∈ fields, f.1 ∈ sectionNames ∧ f.2.isTable = true ∧
  ∀ x ∈ (fieldsOrNone f.2).2, ∃ k : Setting, k.title = f.1 ∧ k.name = x.1

instance (fields : Fields) : Decidable (OnlySettings fields) := inferInstanceAs (Decidable (∀ f ∈ fields, _))

private theorem exists_table (h : v.isTable = true) : ∃ o fs, v = .table o fs := by
  cases v with
  | table o fs => exact ⟨o, fs, rfl⟩
  | scalar | list => cases h

theorem OnlySettings.flatten (h : OnlySettings fields) : OfSettings (flatten fields) := by
  intro a ha
  obtain ⟨⟨title, v⟩, hf, ha⟩ := List.mem_flatMap.1 ha
  obtain ⟨-, -, hnames⟩ := h _ hf
  obtain ⟨x, hx, rfl⟩ := List.mem_map.1 ha
  obtain ⟨k, ht, hn⟩ := hnames x hx
  exact ⟨k, by simp [Setting.key, ht, hn]⟩

/-- A table goes over what was there name by name. -/
theorem set_table (title : String) (o : Option String) (name : String) (x : Value) (fs : Fields) (top : Value) :
    (Key.mk title []).set (.table o ((name, x) :: fs)) top =
      (Key.mk title []).set (.table o fs) ((Key.mk title [.child name]).set x top) := by
  show changeField (overlay (.table o ((name, x) :: fs))) title top =
    changeField (overlay (.table o fs)) title (changeField (changeField (overlay x) name) title top)
  rw [changeField_changeField]
  congr 1

/-- An empty table makes the section a table, and changes nothing in it. -/
private theorem at?_set_empty (title : String) (o : Option String) (k : Setting) (top : Value) :
    k.at? ((Key.mk title []).set (.table o []) top) = k.at? top := by
  show k.at? (changeField (overlay (.table o [])) title top) = _
  unfold Setting.at?
  by_cases ht : k.title = title
  · rw [ht, child?_changeField_self, Option.bind_some]
    exact child?_getD _ _
  · rw [child?_changeField_of_ne ht]

private theorem sectioned_set_table (hs : Sectioned top) (title : String) (o : Option String) (fs : Fields) :
    Sectioned ((Key.mk title []).set (.table o fs) top) := by
  induction fs generalizing top with
  | nil => exact hs.changeField fun _ => ⟨_, _, rfl⟩
  | cons f fs ih =>
    rw [set_table]
    exact ih (hs.changeField fun _ => ⟨_, _, rfl⟩)

/-- A table of fields does to the settings what assignments of the fields do. -/
private theorem at?_set_table (k : Setting) (title : String) (o : Option String) (fs : Fields) (top : Value) :
    k.at? ((Key.mk title []).set (.table o fs) top) =
      k.at? (Loader.assignAll (fs.map fun (name, x) => (⟨title, [.child name]⟩, x)) top) := by
  induction fs generalizing top with
  | nil => exact at?_set_empty title o k top
  | cons f fs ih =>
    rw [set_table]
    exact ih _

theorem readOrLiteral_section (h : title ∈ sectionNames) : Key.readOrLiteral title = ⟨title, []⟩ := by
  have hall : ∀ t ∈ sectionNames, Key.readOrLiteral t = ⟨t, []⟩ := by decide
  exact hall title h

/-- The fields of a source put, for each setting, their values over what was there. -/
theorem at?_merge (h : OnlySettings fields) (hs : Sectioned top) : Sectioned (Loader.merge fields top) ∧
    ∀ k : Setting, k.at? (Loader.merge fields top) = (valuesFor k (flatten fields)).foldl layer (k.at? top) := by
  induction fields generalizing top with
  | nil => exact ⟨hs, fun _ => rfl⟩
  | cons f fields ih =>
    obtain ⟨title, v⟩ := f
    obtain ⟨ht, hv, -⟩ := h (title, v) (by simp)
    obtain ⟨o, fs, rfl⟩ := exists_table hv
    have hfirst : OfSettings (fs.map fun (name, x) => (⟨title, [.child name]⟩, x)) := fun a ha =>
      h.flatten a (List.mem_flatMap.2 ⟨_, List.mem_cons_self, ha⟩)
    obtain ⟨hs', hat⟩ := ih (fun f hf => h f (List.mem_cons_of_mem _ hf)) (sectioned_set_table hs title o fs)
    -- the name of a section is read as a key
    have hmerge : Loader.merge ((title, .table o fs) :: fields) top =
        Loader.merge fields ((Key.mk title []).set (.table o fs) top) := by
      rw [← readOrLiteral_section ht]
      rfl
    rw [hmerge]
    refine ⟨hs', fun k => ?_⟩
    rw [hat k, at?_set_table, (at?_assignAll hfirst hs).2 k, ← List.foldl_append, ← valuesFor_append]
    rfl

/-! ### The last value -/

/-- A table without fields gives nothing. -/
def Value.givesNothing : Value → Bool
  | .table _ [] => true
  | _ => false

/-- The last of some values that gives anything. -/
def lastOf (vs : List Value) : Option Value := (vs.filter (!·.givesNothing)).getLast?

theorem lastOf_append (vs ws : List Value) : lastOf (vs ++ ws) = (lastOf ws).or (lastOf vs) := by
  unfold lastOf
  rw [List.filter_append, List.getLast?_append]

private theorem names_putField (name : String) (v : Value) (fs : Fields) :
    (putField name v fs).map Prod.fst =
      if name ∈ fs.map Prod.fst then fs.map Prod.fst else fs.map Prod.fst ++ [name] := by
  induction fs with
  | nil => simp [putField]
  | cons f fs ih =>
    obtain ⟨n, x⟩ := f
    by_cases hn : n = name
    · simp [putField, hn]
    · have hn' : ¬ name = n := fun h => hn h.symm
      by_cases hmem : name ∈ fs.map Prod.fst
      · simp_all [putField]
      · simp_all [putField]

/-- What is put over a table is a table, with the names of both. -/
theorem overlayFields_table (fs : Fields) (o : Option String) (old : Fields) : ∃ o' fs',
    overlayFields fs (.table o old) = .table o' fs' ∧
      (∀ n, n ∈ fs'.map Prod.fst ↔ n ∈ fs.map Prod.fst ∨ n ∈ old.map Prod.fst) ∧
      ((old.map Prod.fst).Nodup → (fs'.map Prod.fst).Nodup) := by
  induction fs generalizing o old with
  | nil => exact ⟨o, old, rfl, by simp, id⟩
  | cons f fs ih =>
    obtain ⟨name, x⟩ := f
    obtain ⟨o', fs', he, hmem, hnodup⟩ := ih o (putField name (overlay x ((old.lookup name).getD .null)) old)
    refine ⟨o', fs', he, fun n => ?_, fun hold => hnodup ?_⟩
    · rw [hmem, names_putField]
      split
      · rename_i h
        simp only [List.map_cons, List.mem_cons]
        constructor
        · tauto
        · rintro ((rfl | hn) | hn)
          · exact Or.inr h
          · exact Or.inl hn
          · exact Or.inr hn
      · simp only [List.map_cons, List.mem_cons, List.mem_append, List.not_mem_nil]
        tauto
    · rw [names_putField]
      split
      · exact hold
      · rename_i h
        rw [List.nodup_append]
        exact ⟨hold, by simp, fun a ha b hb => by rw [List.mem_singleton.1 hb]; exact fun he => h (he ▸ ha)⟩

/-- Of the settings only the console mode can be a table, and then its name is the only one in it. -/
theorem want_table {x : k.Kind} (h : k.want (.table o fs) = .ok x) :
    ∃ name v, fs = [(name, v)] ∧ (k = .console ∧ (ConsoleMode.ofName? name).isSome = true) ∧
      ∀ o' v', k.want (.table o' [(name, v')]) = .ok x := by
  cases k with
  | console =>
    change wantConsoleMode (.table o fs) = .ok x at h
    rcases fs with _ | ⟨⟨name, v⟩, _ | _⟩
    · simp [wantConsoleMode, fail] at h
    · refine ⟨name, v, rfl, ⟨rfl, ?_⟩, fun _ _ => h⟩
      cases hname : ConsoleMode.ofName? name with
      | none => simp [wantConsoleMode, hname, fail] at h
      | some m => rfl
    · simp [wantConsoleMode, fail] at h
  | dry => simp [Setting.want, wantBool, fail] at h
  | outputLogLevel => simp [Setting.want, wantLevel, wantUnsigned, fail, bind, Except.bind] at h
  | fileLogLevel => simp [Setting.want, wantOption, wantLevel, wantUnsigned, fail, bind, Except.bind] at h
  | logFile | directory | wrapper => simp [Setting.want, wantOption, wantPath, wantText, fail, bind, Except.bind] at h
  | arguments => simp [Setting.want, wantTexts, fail] at h

/-- A value that gives something and is decoded over another one is decoded alike without that. -/
private theorem want_overlay {x : k.Kind} (h : k.want (overlay v old) = .ok x) (hv : v.givesNothing = false) :
    k.want (overlay v .null) = .ok x := by
  cases v with
  | scalar => simpa only [overlay] using h
  | list => simpa only [overlay] using h
  | table o fs =>
    simp only [overlay] at h ⊢
    obtain ⟨o₁, fs₁, he₁, hmem₁, -⟩ := overlayFields_table fs (fieldsOrNone old).1 (fieldsOrNone old).2
    obtain ⟨o₂, fs₂, he₂, hmem₂, hnodup⟩ := overlayFields_table fs (fieldsOrNone .null).1 (fieldsOrNone .null).2
    rw [he₁] at h
    obtain ⟨name, w, rfl, -, hname⟩ := want_table h
    -- all names are the one that was found
    have hall : ∀ n ∈ fs.map Prod.fst, n = name := fun n hn => by
      simpa using (hmem₁ n).2 (Or.inl hn)
    rw [he₂]
    rcases fs₂ with _ | ⟨⟨n, y⟩, rest⟩
    · cases fs with
      | nil => simp [Value.givesNothing] at hv
      | cons f fs => exact absurd ((hmem₂ f.1).2 (Or.inl (by simp))) (by simp)
    · have hnull : (fieldsOrNone Value.null).2.map Prod.fst = [] := rfl
      have hn₂ : ∀ n' ∈ ((n, y) :: rest).map Prod.fst, n' = name := fun n' hn' => by
        rcases (hmem₂ n').1 hn' with h | h
        · exact hall n' h
        · rw [hnull] at h
          simp at h
      obtain rfl := hn₂ n (by simp)
      cases rest with
      | nil => exact hname o₂ y
      | cons f rest =>
        have hfirst : f.1 = n := hn₂ f.1 (by simp)
        have := hnodup (by simp [hnull])
        simp [hfirst] at this

private theorem want_overlay_nothing {x : k.Kind} (h : k.want (overlay (.table o []) old) = .ok x) :
    k.want old = .ok x := by
  have hempty : ∀ o', k.want (.table o' []) ≠ .ok x := fun o' h' => by
    obtain ⟨name, w, hfs, -⟩ := want_table h'
    simp at hfs
  cases old with
  | table => exact h
  | scalar | list => exact absurd h (hempty none)

/-- What is decoded from values on top of each other is decoded from the last that gives something. -/
theorem taken_last {vs : List Value} {x : k.Kind} (h : Taken k.want k.builtIn (vs.foldl layer none) x) :
    Taken (fun v => k.want (overlay v .null)) k.builtIn (lastOf vs) x := by
  induction vs using List.reverseRecOn with
  | nil => exact h
  | append_singleton vs v ih =>
    rw [List.foldl_append] at h
    rw [lastOf_append]
    replace h : k.want (overlay v ((vs.foldl layer none).getD .null)) = .ok x := h
    by_cases hv : v.givesNothing = true
    · -- an empty table leaves what was there
      obtain ⟨o, rfl⟩ : ∃ o, v = .table o [] := by
        cases v with
        | table o fs => cases fs <;> simp_all [Value.givesNothing]
        | scalar | list => simp [Value.givesNothing] at hv
      have hlast : lastOf [.table o []] = none := rfl
      rw [hlast, Option.none_or]
      apply ih
      cases hold : vs.foldl layer none with
      | some w =>
        rw [hold] at h
        exact want_overlay_nothing h
      | none =>
        rw [hold] at h
        obtain ⟨name, w, hfs, -⟩ := @want_table none [] k x h
        simp at hfs
    · have hlast : lastOf [v] = some v := by simp [lastOf, hv]
      rw [hlast, Option.some_or]
      exact want_overlay h (by simpa using hv)

end GradleBuild.Config
