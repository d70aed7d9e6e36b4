import GradleBuild.Config.Loader
import GradleBuild.Proofs.Orders

/-!
# Values under other names of their sources

Where a value came from shows in messages and nowhere else.  Naming the sources otherwise commutes with setting a key,
and what is decoded from a value or reported of it is the same then, but for the name of the source in a problem.

* `set_relabel`, `assignAll_relabel`: assignments.
* `Loader.readToml_relabel`: a text under another name.
* `Blind`: decoding that sees no names; all decoding is such (`ofValue_blind`).
* `configReports_relabels`: what may be reported.
-/

namespace GradleBuild.Config

open Key (fieldsOrNone itemsOrNone changeField changeItem changeAt overlay overlayFields position)

variable {α β : Type} {want : Value → Decoded α} {v new : Value} {fields : Fields} {name : String}
  {f g : Option String → Option String}

mutual

/-- A value with other names for the sources of its parts. -/
def Value.relabel (f : Option String → Option String) : Value → Value
  | .scalar o s => .scalar (f o) s
  | .list o items => .list (f o) (relabelItems f items)
  | .table o fields => .table (f o) (relabelFields f fields)

def relabelItems (f : Option String → Option String) : List Value → List Value
  | [] => []
  | v :: items => v.relabel f :: relabelItems f items

def relabelFields (f : Option String → Option String) : List (String × Value) → List (String × Value)
  | [] => []
  | (name, v) :: fields => (name, v.relabel f) :: relabelFields f fields

end

def ValueCause.relabel (f : Option String → Option String) : ValueCause → ValueCause
  | unexpected found wanted o => unexpected found wanted (f o)
  | cause => cause

def ValueProblem.relabel (f : Option String → Option String) (p : ValueProblem) : ValueProblem :=
  { p with cause := p.cause.relabel f }

def Problem.relabel (f : Option String → Option String) : Problem → Problem
  | malformedToml content o => malformedToml content (f o)
  | number fault o => number fault (f o)
  | value p => value (p.relabel f)
  | p => p

/-- Where a problem came from, if its message tells. -/
def Problem.origin : Problem → Option String
  | malformedToml _ o => o
  | number _ o => o
  | value p => p.cause.origin
  | _ => none

/-- Of a naming only the name of the one source matters to a problem. -/
theorem Problem.relabel_congr {p : Problem} (h : f p.origin = g p.origin) : p.relabel f = p.relabel g := by
  cases p with
  | malformedToml content => exact congrArg (malformedToml content) h
  | number fault => exact congrArg (number fault) h
  | fileNotFound | variableNotText => rfl
  | value p =>
    obtain ⟨steps, cause⟩ := p
    cases cause with
    | unexpected found wanted => exact congrArg (fun o => value ⟨steps, .unexpected found wanted o⟩) h
    | unknownField | noLevel | noConsoleMode | notOneName => rfl

theorem Problem.relabel_relabel (f g : Option String → Option String) (p : Problem) :
    (p.relabel f).relabel g = p.relabel (g ∘ f) := by
  cases p with
  | malformedToml | number | fileNotFound | variableNotText => rfl
  | value p =>
    obtain ⟨steps, cause⟩ := p
    cases cause <;> rfl

theorem Problem.origin_relabel (hf : f none = none) (p : Problem) : (p.relabel f).origin = f p.origin := by
  cases p with
  | malformedToml | number => rfl
  | fileNotFound | variableNotText => exact hf.symm
  | value p =>
    obtain ⟨steps, cause⟩ := p
    cases cause with
    | unexpected => rfl
    | unknownField | noLevel | noConsoleMode | notOneName => exact hf.symm

/-! ### Setting keys -/

theorem relabelItems_eq (f : Option String → Option String) (items : List Value) :
    relabelItems f items = items.map (Value.relabel f) := by
  induction items with
  | nil => rfl
  | cons v items ih => rw [relabelItems, ih, List.map_cons]

theorem relabelFields_eq (f : Option String → Option String) (fields : Fields) :
    relabelFields f fields = fields.map (Prod.map id (Value.relabel f)) := by
  induction fields with
  | nil => rfl
  | cons a fields ih =>
    rw [relabelFields, ih, List.map_cons]
    rfl

theorem lookup_relabelFields (f : Option String → Option String) (fields : Fields) (name : String) :
    (relabelFields f fields).lookup name = (fields.lookup name).map (Value.relabel f) := by
  induction fields with
  | nil => rfl
  | cons a fields ih =>
    obtain ⟨n, v⟩ := a
    rw [relabelFields, List.lookup_cons, List.lookup_cons, ih]
    cases name == n <;> rfl

theorem putField_relabel (f : Option String → Option String) (name : String) (v : Value) (fields : Fields) :
    relabelFields f (putField name v fields) = putField name (v.relabel f) (relabelFields f fields) := by
  induction fields with
  | nil => rfl
  | cons a fields ih =>
    obtain ⟨n, w⟩ := a
    rw [relabelFields, putField, putField]
    split
    · rfl
    · rw [relabelFields, ih]

section Naming

variable {change change' : Value → Value} (hf : f none = none)

include hf

theorem fieldsOrNone_relabel (v : Value) :
    fieldsOrNone (v.relabel f) = (f (fieldsOrNone v).1, relabelFields f (fieldsOrNone v).2) := by
  cases v <;> simp [Value.relabel, fieldsOrNone, relabelFields, hf]

theorem itemsOrNone_relabel (v : Value) :
    itemsOrNone (v.relabel f) = (f (itemsOrNone v).1, relabelItems f (itemsOrNone v).2) := by
  cases v <;> simp [Value.relabel, itemsOrNone, relabelItems, hf]

theorem null_relabel : Value.null.relabel f = .null := by rw [Value.null, Value.relabel, hf]

theorem changeField_relabel (h : ∀ w, (change w).relabel f = change' (w.relabel f)) (name : String) (v : Value) :
    (changeField change name v).relabel f = changeField change' name (v.relabel f) := by
  have hfield (fields : Fields) : (change ((fields.lookup name).getD .null)).relabel f =
      change' (((relabelFields f fields).lookup name).getD .null) := by
    rw [h, lookup_relabelFields]
    cases fields.lookup name with
    | none => exact congrArg change' (null_relabel hf)
    | some => rfl
  unfold changeField
  rw [fieldsOrNone_relabel hf]
  simp only [Value.relabel, putField_relabel, hfield]

omit hf in
private theorem map_modify_relabel (h : ∀ w, (change w).relabel f = change' (w.relabel f)) (items : List Value)
    (i : Nat) : (items.modify i change).map (Value.relabel f) = (items.map (Value.relabel f)).modify i change' := by
  induction items generalizing i with
  | nil => cases i <;> rfl
  | cons v items ih =>
    cases i with
    | zero => simp [h]
    | succ i => simp [ih]

theorem changeItem_relabel (h : ∀ w, (change w).relabel f = change' (w.relabel f)) (n : Int) (v : Value) :
    (changeItem change n v).relabel f = changeItem change' n (v.relabel f) := by
  unfold changeItem
  rw [itemsOrNone_relabel hf]
  simp only [Value.relabel, relabelItems_eq, map_modify_relabel h, List.map_append, List.map_replicate, null_relabel hf,
    List.length_append, List.length_replicate, List.length_map]

theorem changeAt_relabel (h : ∀ w, (change w).relabel f = change' (w.relabel f)) (steps : List KeyStep) (v : Value) :
    (changeAt change steps v).relabel f = changeAt change' steps (v.relabel f) := by
  induction steps generalizing v with
  | nil => exact h v
  | cons step steps ih =>
    cases step with
    | child name => exact changeField_relabel hf ih name v
    | index n => exact changeItem_relabel hf ih n v

mutual

theorem overlay_relabel : (new old : Value) → (overlay new old).relabel f = overlay (new.relabel f) (old.relabel f)
  | .scalar _ _, old => by simp only [overlay, Value.relabel]
  | .list _ _, old => by simp only [overlay, Value.relabel]
  | .table _ fields, old => by
    rw [overlay, overlayFields_relabel, Value.relabel, Value.relabel, overlay, fieldsOrNone_relabel hf]

theorem overlayFields_relabel : (fields : Fields) → (v : Value) →
    (overlayFields fields v).relabel f = overlayFields (relabelFields f fields) (v.relabel f)
  | [], v => by rw [relabelFields, overlayFields, overlayFields]
  | (name, new) :: rest, v => by
    rw [relabelFields, overlayFields, overlayFields, overlayFields_relabel rest,
      changeField_relabel hf (overlay_relabel new)]

end

theorem set_relabel (k : Key) (new top : Value) : (k.set new top).relabel f = k.set (new.relabel f) (top.relabel f) :=
  changeField_relabel hf (changeAt_relabel hf (overlay_relabel hf new) k.steps) k.name top

theorem assignAll_relabel (pairs : List (Key × Value)) (top : Value) :
    (Loader.assignAll pairs top).relabel f =
      Loader.assignAll (pairs.map (Prod.map id (Value.relabel f))) (top.relabel f) := by
  induction pairs generalizing top with
  | nil => rfl
  | cons a pairs ih =>
    show (Loader.assignAll pairs (a.1.set a.2 top)).relabel f = _
    rw [ih, set_relabel hf]
    rfl

end Naming

theorem assigned_relabel (f : Option String → Option String) (fields : Fields) :
    assigned (relabelFields f fields) = (assigned fields).map (Prod.map id (Value.relabel f)) := by
  rw [relabelFields_eq]
  unfold assigned
  rw [List.map_map, List.map_map]
  rfl

/-! ### Texts -/

mutual

theorem ofDocument_relabel (f : Option String → Option String) (o : Option String) :
    (d : Document) → (Value.ofDocument o d).relabel f = .ofDocument (f o) d
  | .scalar _ => by simp only [Value.ofDocument, Value.relabel]
  | .list items => by rw [Value.ofDocument, Value.ofDocument, Value.relabel, valuesOf_relabel f o items]
  | .table fields => by rw [Value.ofDocument, Value.ofDocument, Value.relabel, fieldsOf_relabel f o fields]

theorem valuesOf_relabel (f : Option String → Option String) (o : Option String) :
    (ds : List Document) → relabelItems f (valuesOf o ds) = valuesOf (f o) ds
  | [] => by simp only [valuesOf, relabelItems]
  | d :: ds => by rw [valuesOf, valuesOf, relabelItems, ofDocument_relabel f o d, valuesOf_relabel f o ds]

theorem fieldsOf_relabel (f : Option String → Option String) (o : Option String) :
    (ds : List (String × Document)) → relabelFields f (fieldsOf o ds) = fieldsOf (f o) ds
  | [] => by simp only [fieldsOf, relabelFields]
  | (name, d) :: ds => by
    rw [fieldsOf, fieldsOf, relabelFields, ofDocument_relabel f o d, fieldsOf_relabel f o ds]

end

/-- What a source gives under other names. -/
def relabelRead (f : Option String → Option String) : Except Problem Fields → Except Problem Fields
  | .ok fields => .ok (relabelFields f fields)
  | .error p => .error (p.relabel f)

/-- A text gives the same under another name. -/
theorem Loader.readToml_relabel (f : Option String → Option String) (o : Option String) (content : String) :
    Loader.readToml (f o) content = relabelRead f (Loader.readToml o content) := by
  unfold Loader.readToml
  cases Toml.read content with
  | ok fields => exact congrArg Except.ok (fieldsOf_relabel f o fields).symm
  | error e =>
    cases e with
    | malformed | number => rfl

/-! ### Decoding -/

/-- A decoded value whose problem has other names. -/
def renamed (f : Option String → Option String) (d : Decoded α) : Decoded α := d.mapError (ValueProblem.relabel f)

/-- Decoding that sees the names of the sources only for its problems. -/
def Blind (f : Option String → Option String) (want : Value → Decoded α) : Prop :=
  ∀ v, want (v.relabel f) = renamed f (want v)

theorem renamed_bind (d : Decoded α) (k : α → Decoded β) :
    renamed f (d >>= k) = renamed f d >>= fun x => renamed f (k x) := by
  cases d <;> rfl

theorem renamed_inStep (step : KeyStep) (d : Decoded α) : renamed f (inStep step d) = inStep step (renamed f d) := by
  cases d <;> rfl

theorem renamed_mapM {γ : Type} (k : γ → Decoded α) (l : List γ) :
    renamed f (l.mapM k) = l.mapM fun x => renamed f (k x) := by
  induction l with
  | nil => rfl
  | cons x l ih =>
    rw [List.mapM_cons, List.mapM_cons, renamed_bind]
    congr 1
    funext y
    rw [renamed_bind, ih]
    rfl

theorem Blind.bind {k : α → Decoded β} (h : Blind f want) (hk : ∀ x, renamed f (k x) = k x) :
    Blind f fun v => want v >>= k := fun v => by
  simp only [h v, renamed_bind, hk]

theorem wantBool_blind : Blind f wantBool := by
  intro v
  cases v with
  | scalar o s =>
    cases s with
    | text s =>
      simp only [Value.relabel, wantBool]
      split_ifs <;> rfl
    | null | bool | integer | float => rfl
  | list | table => simp only [Value.relabel, wantBool]; rfl

theorem wantUnsigned_blind : Blind f wantUnsigned := by
  intro v
  cases v with
  | scalar o s =>
    cases s with
    | text s =>
      simp only [Value.relabel, wantUnsigned]
      split_ifs <;> try rfl
      cases readUInt64? s <;> rfl
    | integer n =>
      simp only [Value.relabel, wantUnsigned]
      split_ifs <;> rfl
    | null | bool | float => rfl
  | list | table => simp only [Value.relabel, wantUnsigned]; rfl

theorem wantText_blind : Blind f wantText := by
  intro v
  cases v with
  | scalar o s => cases s <;> rfl
  | list | table => simp only [Value.relabel, wantText]; rfl

theorem wantPath_blind : Blind f wantPath := wantText_blind.bind fun _ => rfl

theorem wantOption_blind (h : Blind f want) : Blind f (wantOption want) := by
  have hsome : Blind f fun v => want v >>= fun x => pure (some x) := h.bind fun _ => rfl
  intro v
  cases v with
  | scalar o s =>
    cases s with
    | null => rfl
    | bool | integer | float | text => exact hsome (.scalar o _)
  | list o items =>
    have hlist := hsome (.list o items)
    simp only [Value.relabel] at hlist ⊢
    exact hlist
  | table o fields =>
    have htable := hsome (.table o fields)
    simp only [Value.relabel] at htable ⊢
    exact htable

theorem wantConsoleMode_blind : Blind f wantConsoleMode := by
  intro v
  cases v with
  | scalar o s =>
    cases s with
    | text s =>
      simp only [Value.relabel, wantConsoleMode]
      cases ConsoleMode.ofName? s <;> rfl
    | null | bool | integer | float => rfl
  | list o items => simp only [Value.relabel, wantConsoleMode]; rfl
  | table o fields =>
    -- only a table with a single field names a mode
    rcases fields with _ | ⟨⟨name, w⟩, _ | ⟨a, fields⟩⟩
    · rfl
    · simp only [Value.relabel, relabelFields, wantConsoleMode]
      cases ConsoleMode.ofName? name <;> rfl
    · rfl

/-! ### Sections -/

/-- The fields of a section with other names for their sources. -/
def relabelFound (f : Option String → Option String) (found : List (String × KeyStep × Value)) :
    List (String × KeyStep × Value) :=
  found.map fun (name, step, v) => (name, step, v.relabel f)

section Naming

variable (hf : f none = none)

include hf

theorem renamed_fail (found : Shape) (wanted : String) : renamed f (fail (.unexpected found wanted none) : Decoded α) =
    fail (.unexpected found wanted none) :=
  congrArg (fun o => (fail (.unexpected found wanted o) : Decoded α)) hf

theorem wantLevel_blind : Blind f wantLevel := by
  refine wantUnsigned_blind.bind fun n => ?_
  split_ifs
  · cases Log.Level.ofNat? n <;> rfl
  · exact renamed_fail hf _ _

theorem wantTexts_blind : Blind f wantTexts := by
  intro v
  cases v with
  | list o items =>
    simp only [Value.relabel, wantTexts, renamed_mapM, renamed_inStep, ← wantText_blind _]
    rw [relabelItems_eq, List.zipIdx_map, List.mapM_map]
    rfl
  | scalar o s => cases s <;> exact (renamed_fail hf _ _).symm
  | table => simp only [Value.relabel, wantTexts, scalarShape, renamed_fail hf]

theorem sectionFields_relabel (title : String) (known : List String) (v : Value) :
    sectionFields title known (v.relabel f) = (renamed f (sectionFields title known v)).map (relabelFound f) := by
  cases v with
  | scalar o s =>
    have hshape : scalarShape (.scalar (f o) s) = scalarShape (.scalar o s) := by cases s <;> rfl
    simp only [Value.relabel, sectionFields, hshape, renamed_fail hf]
    rfl
  | list o items =>
    simp only [Value.relabel, sectionFields, relabelItems_eq, List.zipIdx_map, List.zip_map_right, List.map_map]
    show Except.ok _ = Except.ok _
    simp only [relabelFound, List.map_map]
    rfl
  | table o fields =>
    simp only [Value.relabel, sectionFields, relabelFields_eq, List.find?_map]
    have hfind : ((fun a : String × Value => !known.contains a.1) ∘ Prod.map id (Value.relabel f)) =
        fun a => !known.contains a.1 := rfl
    rw [hfind]
    cases fields.find? fun a => !known.contains a.1 with
    | some a => rfl
    | none =>
      show Except.ok _ = Except.ok _
      simp only [relabelFound, List.map_map]
      rfl

omit hf in
theorem field_relabel (h : Blind f want) (found : List (String × KeyStep × Value)) (name : String) (d : α) :
    field (relabelFound f found) name d want = renamed f (field found name d want) := by
  have hlookup : (relabelFound f found).lookup name =
      (found.lookup name).map fun (step, v) => (step, v.relabel f) := by
    induction found with
    | nil => rfl
    | cons a found ih =>
      obtain ⟨n, step, v⟩ := a
      rw [relabelFound, List.map_cons, List.lookup_cons, List.lookup_cons, ← relabelFound, ih]
      cases name == n <;> rfl
  unfold field
  rw [hlookup]
  cases found.lookup name with
  | none => rfl
  | some a => exact (congrArg (inStep a.1) (h a.2)).trans (renamed_inStep a.1 (want a.2)).symm

/-- A section is decoded blindly if what its fields make is. -/
theorem section_blind (title : String) (known : List String) (make : List (String × KeyStep × Value) → Decoded α)
    (h : ∀ found, make (relabelFound f found) = renamed f (make found)) :
    Blind f fun v => sectionFields title known v >>= make := by
  intro v
  dsimp only
  rw [sectionFields_relabel hf, renamed_bind]
  cases sectionFields title known v with
  | error p => rfl
  | ok found => exact h found

theorem wantGlobal_blind : Blind f wantGlobal :=
  section_blind hf _ _ _ fun found => by
    simp only [renamed_bind, field_relabel wantBool_blind, field_relabel (wantLevel_blind hf),
      field_relabel (wantOption_blind (wantLevel_blind hf)), field_relabel (wantOption_blind wantPath_blind)]
    rfl

theorem wantPaths_blind : Blind f wantPaths :=
  section_blind hf _ _ _ fun found => by
    simp only [renamed_bind, field_relabel (wantOption_blind wantPath_blind)]
    rfl

theorem wantGradle_blind : Blind f wantGradle :=
  section_blind hf _ _ _ fun found => by
    simp only [renamed_bind, field_relabel (wantOption_blind wantPath_blind), field_relabel wantConsoleMode_blind,
      field_relabel (wantTexts_blind hf)]
    rfl

/-- A configuration is decoded blindly. -/
theorem ofValue_blind : Blind f ofValue :=
  section_blind hf _ _ _ fun found => by
    simp only [renamed_bind, field_relabel (wantGlobal_blind hf), field_relabel (wantPaths_blind hf),
      field_relabel (wantGradle_blind hf)]
    rfl

theorem want_blind (k : Setting) : Blind f k.want := by
  cases k with
  | dry => exact wantBool_blind
  | outputLogLevel => exact wantLevel_blind hf
  | fileLogLevel => exact wantOption_blind (wantLevel_blind hf)
  | logFile | directory | wrapper => exact wantOption_blind wantPath_blind
  | console => exact wantConsoleMode_blind
  | arguments => exact wantTexts_blind hf

end Naming

/-! ### What may be reported -/

variable {known : List String} {within : String → Value → ValueProblem → Prop} {p : ValueProblem} {title : String}

theorem Blind.eq_error_iff (h : Blind f want) :
    want (v.relabel f) = .error p ↔ ∃ q, want v = .error q ∧ p = q.relabel f := by
  rw [h v]
  cases want v with
  | ok => simp [renamed, Except.mapError]
  | error q => simp [renamed, Except.mapError, eq_comm]

/-- Reports are about the same problems, whatever names the sources have. -/
def Relabels (f : Option String → Option String) (reports : Value → ValueProblem → Prop) : Prop :=
  ∀ v p, reports (v.relabel f) p ↔ ∃ q, reports v q ∧ p = q.relabel f

theorem isTable_relabel (v : Value) : (v.relabel f).isTable = v.isTable := by
  cases v <;> rw [Value.relabel] <;> rfl

theorem Reports.relabels (h : Blind f want) (hwithin : ∀ name, Relabels f (within name)) :
    Relabels f (Reports known within want) := by
  intro v p
  constructor
  · intro hp
    generalize hw : v.relabel f = w at hp
    cases hp with
    | unknown hf hn =>
      cases v with
      | scalar | list => simp [Value.relabel] at hw
      | table o fields =>
        rw [Value.relabel, relabelFields_eq] at hw
        obtain ⟨-, rfl⟩ := Value.table.inj hw
        obtain ⟨⟨name, x⟩, hx, heq⟩ := List.mem_map.1 hf
        obtain ⟨rfl, -⟩ := Prod.mk.inj heq
        exact ⟨_, .unknown hx hn, rfl⟩
    | field hlookup hp =>
      cases v with
      | scalar | list => simp [Value.relabel] at hw
      | table o fields =>
        rw [Value.relabel] at hw
        obtain ⟨-, rfl⟩ := Value.table.inj hw
        rw [lookup_relabelFields] at hlookup
        obtain ⟨x, hx, rfl⟩ := Option.map_eq_some_iff.1 hlookup
        obtain ⟨q, hq, rfl⟩ := (hwithin _ _ _).1 hp
        exact ⟨_, .field hx hq, rfl⟩
    | inOrder ht hp =>
      subst hw
      obtain ⟨q, hq, rfl⟩ := h.eq_error_iff.1 hp
      exact ⟨q, .inOrder (isTable_relabel v ▸ ht) hq, rfl⟩
  · rintro ⟨q, hq, rfl⟩
    cases hq with
    | unknown hmem hn =>
      rw [Value.relabel, relabelFields_eq]
      exact .unknown (List.mem_map_of_mem hmem) hn
    | field hlookup hp =>
      rw [Value.relabel]
      exact .field (by rw [lookup_relabelFields, hlookup, Option.map_some]) ((hwithin _ _ _).2 ⟨_, hp, rfl⟩)
    | inOrder ht hp => exact .inOrder ((isTable_relabel v).trans ht) (h.eq_error_iff.2 ⟨_, hp, rfl⟩)

section Naming

variable (hf : f none = none)

include hf

theorem settingReports_relabels (title name : String) : Relabels f (SettingReports title name) := by
  intro v p
  constructor
  · rintro ⟨k, ht, hn, hp⟩
    obtain ⟨q, hq, rfl⟩ := (want_blind hf k).eq_error_iff.1 hp
    exact ⟨q, ⟨k, ht, hn, hq⟩, rfl⟩
  · rintro ⟨q, ⟨k, ht, hn, hq⟩, rfl⟩
    exact ⟨k, ht, hn, (want_blind hf k).eq_error_iff.2 ⟨q, hq, rfl⟩⟩

theorem sectionReports_relabels (title : String) : Relabels f (SectionReports title) := by
  have hglobals : Relabels f (Reports globalKeys (SettingReports "global") wantGlobal) :=
    Reports.relabels (wantGlobal_blind hf) (settingReports_relabels hf "global")
  have hpaths : Relabels f (Reports pathKeys (SettingReports "paths") wantPaths) :=
    Reports.relabels (wantPaths_blind hf) (settingReports_relabels hf "paths")
  have hgradle : Relabels f (Reports gradleKeys (SettingReports "gradle") wantGradle) :=
    Reports.relabels (wantGradle_blind hf) (settingReports_relabels hf "gradle")
  intro v p
  constructor
  · intro h
    cases h with
    | globals h =>
      obtain ⟨q, hq, rfl⟩ := (hglobals v p).1 h
      exact ⟨q, .globals hq, rfl⟩
    | paths h =>
      obtain ⟨q, hq, rfl⟩ := (hpaths v p).1 h
      exact ⟨q, .paths hq, rfl⟩
    | gradle h =>
      obtain ⟨q, hq, rfl⟩ := (hgradle v p).1 h
      exact ⟨q, .gradle hq, rfl⟩
  · rintro ⟨q, hq, rfl⟩
    cases hq with
    | globals hq => exact .globals ((hglobals _ _).2 ⟨q, hq, rfl⟩)
    | paths hq => exact .paths ((hpaths _ _).2 ⟨q, hq, rfl⟩)
    | gradle hq => exact .gradle ((hgradle _ _).2 ⟨q, hq, rfl⟩)

/-- What may be reported of a value is the same under other names, but for the names. -/
theorem configReports_relabels : Relabels f ConfigReports :=
  Reports.relabels (ofValue_blind hf) (sectionReports_relabels hf)

end Naming

end GradleBuild.Config
