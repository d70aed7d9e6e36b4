import GradleBuild.Proofs.Channels

/-!
# The texts of a run

The files of a run are texts of TOML.  What they say is known before their numbers are asked to fit 64 bits, so a value
can be added to them that turns out not to fit.

* `Text.values`: what a text gives, if its numbers fit.
* `collect_flatten`: the sources of a run give what their texts do.
* `Inputs.AddsInFile.assignments`, `Inputs.AddsInFile.not_loaded`: a run with one more value in one of its files.
-/

namespace GradleBuild.Config

open Key (overlay)

variable {k : Setting} {v : Toml.Value} {d : Document} {fault : Toml.NumberFault} {t : Tree} {cwd : Location}
  {i i' : Inputs} {c : Config}

/-! ### Texts -/

/-- A text of TOML: what it says, and the name of its file, if it is one. -/
structure Text where
  origin : Option String
  fields : List (String × Toml.Value)

namespace Text

/-- What a text gives, if its numbers fit 64 bits. -/
def values (text : Text) : Except Problem Fields :=
  match Toml.documentsOfFields text.fields with
  | .ok ds => .ok (fieldsOf text.origin ds)
  | .error fault => .error (.number fault text.origin)

/-- What is written somewhere as a text. -/
def written (origin : Option String) (content : String) : Except Problem (List Text) :=
  match Toml.fields? content with
  | some fields => .ok [⟨origin, fields⟩]
  | none => .error (.malformedToml content origin)

/-- The text of a source; there is none if a file is missing that may be. -/
def ofSource (t : Tree) (cwd : Location) : Source → Except Problem (List Text)
  | .text content => written none content
  | .file p required =>
    match Loader.locate? t cwd p with
    | some found =>
      match Files.read t cwd found with
      | .ok content => written (some (Loader.originOf cwd found)) (Loader.fileText content)
      | .error _ => if required then .error (.fileNotFound p.display) else .ok []
    | none => if required then .error (.fileNotFound p.display) else .ok []

variable {p found : Path} {content : Bytes}

theorem ofSource_missing (h : Loader.locate? t cwd p = none) : ofSource t cwd (.file p false) = .ok [] := by
  unfold ofSource
  dsimp only
  rw [h]
  rfl

theorem ofSource_found {required : Bool} (h : Loader.locate? t cwd p = some found)
    (hread : Files.read t cwd found = .ok content) : ofSource t cwd (.file p required) =
      written (some (Loader.originOf cwd found)) (Loader.fileText content) := by
  unfold ofSource
  dsimp only
  rw [h]
  dsimp only
  rw [hread]

end Text

/-- What some texts give, one after another. -/
def valuesOfTexts (texts : List Text) : Except Problem Fields := (texts.mapM Text.values).map List.flatten

theorem valuesOfTexts_append (texts texts' : List Text) : valuesOfTexts (texts ++ texts') = (do
    let fields ← valuesOfTexts texts
    let fields' ← valuesOfTexts texts'
    return fields ++ fields') := by
  unfold valuesOfTexts
  rw [List.mapM_append]
  cases texts.mapM Text.values with
  | error => rfl
  | ok fss =>
    cases texts'.mapM Text.values with
    | error => rfl
    | ok fss' => exact congrArg Except.ok List.flatten_append

private theorem valuesOfTexts_cons (text : Text) (texts : List Text) : valuesOfTexts (text :: texts) = (do
    let fields ← text.values
    let fields' ← valuesOfTexts texts
    return fields ++ fields') := by
  unfold valuesOfTexts
  rw [List.mapM_cons]
  cases text.values with
  | error => rfl
  | ok fields => cases texts.mapM Text.values <;> rfl

private theorem readToml_eq (origin : Option String) (content : String) :
    Loader.readToml origin content = Text.written origin content >>= valuesOfTexts := by
  unfold Loader.readToml Text.written
  rw [Toml.read_eq]
  cases Toml.fields? content with
  | none => rfl
  | some fields =>
    show _ = valuesOfTexts [⟨origin, fields⟩]
    rw [valuesOfTexts_cons]
    unfold Text.values
    dsimp only
    cases Toml.documentsOfFields fields with
    | error => rfl
    | ok ds => exact congrArg Except.ok (List.append_nil _).symm

private theorem collect_eq (t : Tree) (cwd : Location) (s : Source) :
    Loader.collect t cwd s = Text.ofSource t cwd s >>= valuesOfTexts := by
  cases s with
  | text content => exact readToml_eq none content
  | file p required =>
    have hmissing : (if required then .error (.fileNotFound p.display) else .ok [] : Except Problem Fields) =
        (if required then .error (.fileNotFound p.display) else .ok []) >>= valuesOfTexts := by
      cases required <;> rfl
    unfold Loader.collect Text.ofSource
    dsimp only
    cases Loader.locate? t cwd p with
    | none => exact hmissing
    | some found =>
      dsimp only
      cases Files.read t cwd found with
      | error => exact hmissing
      | ok content => exact readToml_eq _ _

/-- Sources give what their texts do. -/
theorem collect_flatten {sources : List Source} {textss : List (List Text)}
    (h : sources.mapM (Text.ofSource t cwd) = .ok textss) :
    (sources.mapM (Loader.collect t cwd)).map List.flatten = valuesOfTexts textss.flatten := by
  induction sources generalizing textss with
  | nil =>
    obtain rfl := Except.ok.inj h
    rfl
  | cons s sources ih =>
    rw [List.mapM_cons] at h ⊢
    obtain ⟨texts, hs, h⟩ := bind_eq_ok h
    obtain ⟨rest, hrest, h⟩ := bind_eq_ok h
    obtain rfl := Except.ok.inj h
    rw [collect_eq, hs, List.flatten_cons, valuesOfTexts_append, ← ih hrest]
    show (valuesOfTexts texts >>= _).map List.flatten = _
    cases valuesOfTexts texts with
    | error => rfl
    | ok fields => cases sources.mapM (Loader.collect t cwd) <;> rfl

/-! ### One more value -/

/-- The fields of a text with one more for a setting: in a section that is there, in a section of its own, or under the
whole key. -/
inductive Text.Extended (k : Setting) (v : Toml.Value) :
    List (String × Toml.Value) → List (String × Toml.Value) → Prop
  | within (before after front back : List (String × Toml.Value)) :
      Extended k v (before ++ (k.title, .table (front ++ back)) :: after)
        (before ++ (k.title, .table (front ++ (k.name, v) :: back)) :: after)
  | alone (before after : List (String × Toml.Value)) :
      Extended k v (before ++ after) (before ++ (k.title, .table [(k.name, v)]) :: after)
  | dotted (before after : List (String × Toml.Value)) :
      Extended k v (before ++ after) (before ++ (k.text, v) :: after)

section Documents

variable {fields fields' : List (String × Toml.Value)} {ds : List (String × Document)}

private theorem documents_append (fields fields' : List (String × Toml.Value)) :
    Toml.documentsOfFields (fields ++ fields') = (do
      let ds ← Toml.documentsOfFields fields
      let ds' ← Toml.documentsOfFields fields'
      return ds ++ ds') := by
  induction fields with
  | nil => cases hds : Toml.documentsOfFields fields' <;> simp [Toml.documentsOfFields, hds, bind, Except.bind, pure,
      Except.pure]
  | cons f fields ih =>
    obtain ⟨name, v⟩ := f
    rw [List.cons_append, Toml.documentsOfFields, Toml.documentsOfFields, ih]
    cases v.toDocument with
    | error => rfl
    | ok d =>
      cases Toml.documentsOfFields fields with
      | error => rfl
      | ok ds => cases Toml.documentsOfFields fields' <;> rfl

private theorem documents_append_eq_ok (h : Toml.documentsOfFields (fields ++ fields') = .ok ds) : ∃ front back,
    Toml.documentsOfFields fields = .ok front ∧ Toml.documentsOfFields fields' = .ok back ∧ ds = front ++ back := by
  rw [documents_append] at h
  obtain ⟨front, hfront, h⟩ := bind_eq_ok h
  obtain ⟨back, hback, h⟩ := bind_eq_ok h
  exact ⟨front, back, hfront, hback, (Except.ok.inj h).symm⟩

private theorem documents_cons {name : String} (hv : v.toDocument = .ok d)
    (h : Toml.documentsOfFields fields = .ok ds) :
    Toml.documentsOfFields ((name, v) :: fields) = .ok ((name, d) :: ds) := by
  rw [Toml.documentsOfFields, hv, h]
  rfl

private theorem documents_cons_eq_ok {name : String} (h : Toml.documentsOfFields ((name, v) :: fields) = .ok ds) :
    ∃ d rest, v.toDocument = .ok d ∧ Toml.documentsOfFields fields = .ok rest ∧ ds = (name, d) :: rest := by
  rw [Toml.documentsOfFields] at h
  obtain ⟨d, hd, h⟩ := bind_eq_ok h
  obtain ⟨rest, hrest, h⟩ := bind_eq_ok h
  exact ⟨d, rest, hd, hrest, (Except.ok.inj h).symm⟩

private theorem fieldsOf_append (o : Option String) (ds ds' : List (String × Document)) :
    fieldsOf o (ds ++ ds') = fieldsOf o ds ++ fieldsOf o ds' := by
  induction ds with
  | nil => rfl
  | cons f ds ih =>
    obtain ⟨name, d⟩ := f
    rw [List.cons_append, fieldsOf, fieldsOf, ih]
    rfl

/-- One more value that fits is one more field. -/
private theorem Text.Extended.documents (h : Text.Extended k v fields fields') (hv : v.toDocument = .ok d)
    (hds : Toml.documentsOfFields fields = .ok ds) : ∃ ds', Toml.documentsOfFields fields' = .ok ds' ∧
      ∀ o, Config.Extended k (.ofDocument o d) (fieldsOf o ds) (fieldsOf o ds') := by
  cases h with
  | within before after front back =>
    obtain ⟨bs, rest, hbs, hrest, rfl⟩ := documents_append_eq_ok hds
    obtain ⟨d', as, htable, has, rfl⟩ := documents_cons_eq_ok hrest
    obtain ⟨inner, hinner, hd'⟩ := bind_eq_ok htable
    obtain rfl := Except.ok.inj hd'
    obtain ⟨fs, cs, hfs, hcs, rfl⟩ := documents_append_eq_ok hinner
    have hown : Toml.documentsOfFields (front ++ (k.name, v) :: back) = .ok (fs ++ (k.name, d) :: cs) := by
      rw [documents_append, hfs, documents_cons hv hcs]
      rfl
    have htable' : (Toml.Value.table (front ++ (k.name, v) :: back)).toDocument =
        .ok (.table (fs ++ (k.name, d) :: cs)) := by
      rw [Toml.Value.toDocument, hown]
      rfl
    refine ⟨bs ++ (k.title, .table (fs ++ (k.name, d) :: cs)) :: as, ?_, fun o => ?_⟩
    · rw [documents_append, hbs, documents_cons htable' has]
      rfl
    · rw [fieldsOf_append, fieldsOf_append, fieldsOf, fieldsOf, Value.ofDocument, Value.ofDocument, fieldsOf_append,
        fieldsOf_append, fieldsOf]
      exact .within o _ _ _ _
  | alone before after =>
    obtain ⟨bs, as, hbs, has, rfl⟩ := documents_append_eq_ok hds
    have htable : (Toml.Value.table [(k.name, v)]).toDocument = .ok (.table [(k.name, d)]) := by
      rw [Toml.Value.toDocument, documents_cons hv rfl]
      rfl
    refine ⟨bs ++ (k.title, .table [(k.name, d)]) :: as, ?_, fun o => ?_⟩
    · rw [documents_append, hbs, documents_cons htable has]
      rfl
    · rw [fieldsOf_append, fieldsOf_append, fieldsOf, Value.ofDocument]
      exact .alone o _ _
  | dotted before after =>
    obtain ⟨bs, as, hbs, has, rfl⟩ := documents_append_eq_ok hds
    refine ⟨bs ++ (k.text, d) :: as, ?_, fun o => ?_⟩
    · rw [documents_append, hbs, documents_cons hv has]
      rfl
    · rw [fieldsOf_append, fieldsOf_append, fieldsOf]
      exact .dotted _ _

private theorem documents_unfit (name : String) (hmem : (name, v) ∈ fields) (hv : v.toDocument = .error fault) :
    ∃ fault', Toml.documentsOfFields fields = .error fault' := by
  induction fields with
  | nil => cases hmem
  | cons f fields ih =>
    obtain ⟨other, w⟩ := f
    rw [Toml.documentsOfFields]
    cases hw : w.toDocument with
    | error fault' => exact ⟨fault', rfl⟩
    | ok d =>
      rcases List.mem_cons.1 hmem with heq | hmem
      · rw [(Prod.mk.inj heq).2, hw] at hv
        cases hv
      · obtain ⟨fault', hrest⟩ := ih hmem
        exact ⟨fault', by rw [hrest]; rfl⟩

/-- One that does not fit spoils the text. -/
private theorem Text.Extended.unfit (h : Text.Extended k v fields fields') (hv : v.toDocument = .error fault) :
    ∃ fault', Toml.documentsOfFields fields' = .error fault' := by
  have htable (inner : List (String × Toml.Value)) (hmem : (k.name, v) ∈ inner) :
      ∃ fault', (Toml.Value.table inner).toDocument = .error fault' := by
    obtain ⟨fault', hinner⟩ := documents_unfit k.name hmem hv
    exact ⟨fault', by rw [Toml.Value.toDocument, hinner]; rfl⟩
  cases h with
  | within before after front back =>
    obtain ⟨fault', htable⟩ := htable (front ++ (k.name, v) :: back) (by simp)
    exact documents_unfit k.title (by simp) htable
  | alone before after =>
    obtain ⟨fault', htable⟩ := htable [(k.name, v)] (by simp)
    exact documents_unfit k.title (by simp) htable
  | dotted before after => exact documents_unfit k.text (by simp) hv

end Documents

/-- Texts with one more value for a setting, in one of them or in one of its own. -/
inductive Text.AddedTo (k : Setting) (v : Toml.Value) : List Text → List Text → Prop
  | inside (before after : List Text) (o : Option String) {fields fields' : List (String × Toml.Value)}
      (h : Text.Extended k v fields fields') :
      AddedTo k v (before ++ ⟨o, fields⟩ :: after) (before ++ ⟨o, fields'⟩ :: after)
  | apart (before after : List Text) (o : Option String) {fields : List (String × Toml.Value)}
      (h : Text.Extended k v [] fields) : AddedTo k v (before ++ after) (before ++ ⟨o, fields⟩ :: after)

private theorem Extended.between {w : Value} {fields fields' : Fields} (h : Config.Extended k w fields fields')
    (front back : Fields) : Config.Extended k w (front ++ (fields ++ back)) (front ++ (fields' ++ back)) := by
  cases h with
  | within o before after inner rest =>
    have := Config.Extended.within (k := k) (v := w) o (front ++ before) (after ++ back) inner rest
    simpa using this
  | alone o before after =>
    have := Config.Extended.alone (k := k) (v := w) o (front ++ before) (after ++ back)
    simpa using this
  | dotted before after =>
    have := Config.Extended.dotted (k := k) (v := w) (front ++ before) (after ++ back)
    simpa using this

section Texts

variable {texts texts' : List Text} {fields : Fields}

private theorem valuesOfTexts_append_eq_ok (h : valuesOfTexts (texts ++ texts') = .ok fields) : ∃ front back,
    valuesOfTexts texts = .ok front ∧ valuesOfTexts texts' = .ok back ∧ fields = front ++ back := by
  rw [valuesOfTexts_append] at h
  obtain ⟨front, hfront, h⟩ := bind_eq_ok h
  obtain ⟨back, hback, h⟩ := bind_eq_ok h
  exact ⟨front, back, hfront, hback, (Except.ok.inj h).symm⟩

private theorem values_ok {o : Option String} {own : List (String × Toml.Value)} {ds : List (String × Document)}
    (h : Toml.documentsOfFields own = .ok ds) : Text.values ⟨o, own⟩ = .ok (fieldsOf o ds) := by
  unfold Text.values
  rw [h]

/-- One more value that fits is one more field of all texts together. -/
private theorem Text.AddedTo.values (h : Text.AddedTo k v texts texts') (hv : v.toDocument = .ok d)
    (hfields : valuesOfTexts texts = .ok fields) : ∃ o fields', valuesOfTexts texts' = .ok fields' ∧
      Config.Extended k (.ofDocument o d) fields fields' := by
  cases h with
  | @inside before after o own own' h =>
    obtain ⟨front, rest, hfront, hrest, rfl⟩ := valuesOfTexts_append_eq_ok hfields
    rw [valuesOfTexts_cons] at hrest
    obtain ⟨given, hgiven, hrest⟩ := bind_eq_ok hrest
    obtain ⟨back, hback, hrest⟩ := bind_eq_ok hrest
    obtain rfl := Except.ok.inj hrest
    cases hds : Toml.documentsOfFields own with
    | error =>
      unfold Text.values at hgiven
      rw [hds] at hgiven
      cases hgiven
    | ok ds =>
      obtain rfl := Except.ok.inj ((values_ok hds).symm.trans hgiven)
      obtain ⟨ds', hds', hextended⟩ := h.documents hv hds
      refine ⟨o, front ++ (fieldsOf o ds' ++ back), ?_, (hextended o).between front back⟩
      rw [valuesOfTexts_append, valuesOfTexts_cons, hfront, hback, values_ok hds']
      rfl
  | @apart before after o own h =>
    obtain ⟨front, back, hfront, hback, rfl⟩ := valuesOfTexts_append_eq_ok hfields
    have hnil : Toml.documentsOfFields [] = .ok [] := rfl
    obtain ⟨ds', hds', hextended⟩ := h.documents hv hnil
    refine ⟨o, front ++ (fieldsOf o ds' ++ back), ?_, (hextended o).between front back⟩
    rw [valuesOfTexts_append, valuesOfTexts_cons, hfront, hback, values_ok hds']
    rfl

/-- One that does not fit spoils all texts. -/
private theorem Text.AddedTo.unfit (h : Text.AddedTo k v texts texts') (hv : v.toDocument = .error fault) :
    ∃ problem, valuesOfTexts texts' = .error problem := by
  have hspoilt {before after : List Text} {o : Option String} {own : List (String × Toml.Value)} {fault'}
      (hown : Toml.documentsOfFields own = .error fault') :
      ∃ problem, valuesOfTexts (before ++ ⟨o, own⟩ :: after) = .error problem := by
    rw [valuesOfTexts_append, valuesOfTexts_cons]
    cases valuesOfTexts before with
    | error problem => exact ⟨problem, rfl⟩
    | ok =>
      refine ⟨.number fault' o, ?_⟩
      unfold Text.values
      dsimp only
      rw [hown]
      rfl
  cases h with
  | inside before after o h => exact hspoilt (h.unfit hv).choose_spec
  | apart before after o h => exact hspoilt (h.unfit hv).choose_spec

end Texts

/-! ### Runs -/

namespace Inputs

/-- The loader of a run whose overrides can be read. -/
def loader (i : Inputs) : Loader := { i.below with overrides := i.overriding }

/-- The sources of a run below the environment. -/
def sources (i : Inputs) : List Source := i.projectSource :: i.options.configs.map i.fileSource

/-- The texts of a run, those of lower rank first. -/
def texts (i : Inputs) : Except Problem (List Text) :=
  (i.sources.mapM (Text.ofSource i.tree i.cwd)).map List.flatten

/-- A run with one more value for a setting in its files. -/
structure AddsInFile (k : Setting) (v : Toml.Value) (i i' : Inputs) : Prop where
  environment : i'.environment = i.environment
  dir : i'.dir = i.dir
  root : i'.root = i.root
  options : i'.options = { i.options with configs := i'.options.configs }
  texts : ∃ texts texts', i.texts = .ok texts ∧ i'.texts = .ok texts' ∧ Text.AddedTo k v texts texts'

/-- A run loads what its loader builds, with the root of the project made absolute. -/
theorem load_eq_build (h : i.Readable) : i.load =
    (i.loader.build i.tree i.cwd i.environment).map fun c => ⟨rooted i.dir c, i.below.files⟩ := by
  unfold Inputs.load Config.load
  rw [loaderFor_eq_ok.2 ⟨h, rfl⟩]
  show (i.loader.build i.tree i.cwd i.environment >>= _) = _
  cases i.loader.build i.tree i.cwd i.environment <;> rfl

theorem readable_of_load {loaded : LoadedConfig} (h : i.load = .ok loaded) : i.Readable := (load_eq_ok h).1

theorem build_of_load {loaded : LoadedConfig} (h : i.load = .ok loaded) :
    ∃ c, i.loader.build i.tree i.cwd i.environment = .ok c ∧ loaded = ⟨rooted i.dir c, i.below.files⟩ := by
  rw [load_eq_build (readable_of_load h)] at h
  cases hbuild : i.loader.build i.tree i.cwd i.environment with
  | error =>
    rw [hbuild] at h
    cases h
  | ok c =>
    rw [hbuild] at h
    exact ⟨c, rfl, (Except.ok.inj h).symm⟩

theorem loader_eq (i : Inputs) : i.loader = {
    defaults := [((Setting.directory .projectRoot).key, .text i.root.display)]
    sources := i.sources
    environmentPrefix := some environmentPrefix
    overrides := i.overriding
    files := i.below.files } := by
  unfold loader
  rw [below_eq]
  rfl

private theorem collect_texts {texts : List Text} (h : i.texts = .ok texts) :
    (i.sources.mapM (Loader.collect i.tree i.cwd)).map List.flatten = valuesOfTexts texts := by
  unfold Inputs.texts at h
  cases hall : i.sources.mapM (Text.ofSource i.tree i.cwd) with
  | error =>
    rw [hall] at h
    cases h
  | ok textss =>
    rw [hall] at h
    obtain rfl := Except.ok.inj h
    exact collect_flatten hall

private theorem AddsInFile.overriding (h : i.AddsInFile k v i') : i'.overriding = i.overriding := by
  unfold Inputs.overriding
  rw [h.root, h.options]
  rfl

/-- With one more value that fits, a run gives it to the setting, and all else is as before. -/
theorem AddsInFile.assignments (h : i.AddsInFile k v i') (hv : v.toDocument = .ok d)
    (hd : ∀ o old, overlay (.ofDocument o d) old = .ofDocument o d)
    (hfree : i.loader.leaves k i.tree i.cwd i.environment = true) {pairs : List (Key × Value)}
    (hpairs : i.loader.assignments i.tree i.cwd i.environment = .ok pairs) :
    ∃ o pairs', i'.loader.assignments i'.tree i'.cwd i'.environment = .ok pairs' ∧
      Given k (.ofDocument o d) (Loader.assignAll pairs (.table none [])) (Loader.assignAll pairs' (.table none [])) := by
  obtain ⟨texts, texts', htexts, htexts', hadded⟩ := h.texts
  obtain ⟨contents, -, hcontents, -⟩ := assignments_eq_ok.1 hpairs
  rw [loader_eq] at hcontents
  have hfields : valuesOfTexts texts = .ok contents.flatten := by
    rw [← collect_texts htexts, hcontents]
    rfl
  obtain ⟨o, fields', hfields', hextended⟩ := hadded.values hv hfields
  rw [← collect_texts htexts'] at hfields'
  obtain ⟨contents', hcontents', rfl⟩ : ∃ contents', i'.sources.mapM (Loader.collect i'.tree i'.cwd) = .ok contents' ∧
      fields' = contents'.flatten := by
    cases hall : i'.sources.mapM (Loader.collect i'.tree i'.cwd) with
    | error =>
      rw [hall] at hfields'
      cases hfields'
    | ok contents' =>
      rw [hall] at hfields'
      exact ⟨contents', rfl, (Except.ok.inj hfields').symm⟩
  have hloader : i'.loader = { i.loader with sources := i'.sources, files := i'.below.files } := by
    rw [loader_eq, loader_eq i, h.root, h.overriding]
  rw [hloader, h.environment]
  obtain ⟨pairs', hpairs', hgiven⟩ := assignments_sources (l := i.loader) i'.below.files
    (by rw [loader_eq]; exact hcontents) hcontents' hextended (hd o) hfree hpairs
  exact ⟨o, pairs', hpairs', hgiven⟩

/-- With one that does not fit, it loads nothing. -/
theorem AddsInFile.not_loaded (h : i.AddsInFile k v i') (hv : v.toDocument = .error fault) {loaded : LoadedConfig} :
    i'.load ≠ .ok loaded := by
  intro hload
  obtain ⟨texts, texts', htexts, htexts', hadded⟩ := h.texts
  obtain ⟨problem, hproblem⟩ := hadded.unfit hv
  rw [← collect_texts htexts'] at hproblem
  obtain ⟨c, hbuild, -⟩ := build_of_load hload
  obtain ⟨pairs, hpairs, -⟩ := build_eq_ok.1 hbuild
  obtain ⟨contents, -, hcontents, -⟩ := assignments_eq_ok.1 hpairs
  rw [loader_eq] at hcontents
  rw [hcontents] at hproblem
  cases hproblem

end Inputs

end GradleBuild.Config
