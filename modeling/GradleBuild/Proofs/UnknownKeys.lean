import GradleBuild.Proofs.Loading
import Mathlib.Data.List.Infix

/-!
# Unknown keys

A path of names that is neither a section nor a setting is refused when the merged layers are decoded.  It gets that
far from any layer, since setting a key leaves what stands beside it and below it.  Only something other than a table
in the place of a table takes away what stood below, so that a layer may hide what is wrong in the layers under it.

The table with the name of a console mode is decoded like that name; nothing is said about the paths below it.

* `under?_assignAll`: what is set under a path stays there as long as nothing blocks the path.
* `isKey_of_under?`: nothing that can be decoded has a value under an unknown path.
* `load_unknown`: a layer that sets an unknown path makes the run fail, unless it is hidden in the same or a higher
  layer.
* `load_unknown_hidden`: an override that hides an unknown key of a file.
-/

namespace GradleBuild.Config

open Key (changeField changeAt overlay overlayFields)

variable {i : Inputs} {c : Config} {v top base : Value} {name title : String} {p q : List String} {fields : Fields}
  {steps : List KeyStep} {a : Key × Value} {pairs : List (Key × Value)}

/-! ### Paths of names -/

/-- The value under a path of names. -/
def Value.under? : List String → Value → Option Value
  | [], v => some v
  | name :: p, v => (v.child? name).bind (under? p)

/-- How the way along a path may come out. -/
inductive Outcome where
  /-- Something stands at the end of the path. -/
  | arrives
  /-- Something other than a table stands above the end of the path. -/
  | blocked
  deriving DecidableEq, Repr

/-- Whether a path comes out like that in a value that is put behind some steps. -/
def comesOut (r : Outcome) : List String → List KeyStep → Value → Bool
  | [], _, _ => r == .arrives
  | name :: p, .child n :: steps, v => n == name && comesOut r p steps v
  | _ :: _, .index _ :: _, _ => r == .blocked
  | name :: p, [], .table _ fields => fields.any fun f => f.1 == name && comesOut r p [] f.2
  | _ :: _, [], _ => r == .blocked

/-- Whether an assignment gives something under a path. -/
def sets (p : List String) (a : Key × Value) : Bool := comesOut .arrives p (.child a.1.name :: a.1.steps) a.2

/-- Whether an assignment puts something other than a table above a path. -/
def blocks (p : List String) (a : Key × Value) : Bool := comesOut .blocked p (.child a.1.name :: a.1.steps) a.2

/-- Whether a path leads to the whole, to a section or to a setting. -/
def isKey : List String → Bool
  | [] => true
  | [title] => sectionNames.contains title
  | [title, name] => Setting.all.any fun k => k.title == title && k.name == name
  | _ => false

/-- Whether a path leads below the console mode by the name of a mode. -/
def isBelowMode : List String → Bool
  | title :: name :: mode :: _ =>
    title == Setting.console.title && name == Setting.console.name && (ConsoleMode.ofName? mode).isSome
  | _ => false

/-- A path up to the first name with which it is no key any more. -/
def upToUnknown (p : List String) : List String := (p.inits.find? fun q => !isKey q).getD p

theorem upToUnknown_spec (h : isKey p = false) : isKey (upToUnknown p) = false ∧ upToUnknown p <+: p := by
  unfold upToUnknown
  cases hfind : p.inits.find? fun q => !isKey q with
  | none =>
    have hkey := List.find?_eq_none.1 hfind p ((List.mem_inits _ _).2 (List.prefix_refl p))
    rw [h] at hkey
    exact absurd rfl hkey
  | some q =>
    have hq : isKey q = false := by simpa using List.find?_some hfind
    exact ⟨hq, (List.mem_inits _ _).1 (List.mem_of_find?_eq_some hfind)⟩

/-- What arrives at the end of a path arrives at the end of what it begins with. -/
private theorem arrives_of_isPrefix (hq : q <+: p) (h : comesOut .arrives p steps v = true) :
    comesOut .arrives q steps v = true := by
  induction q generalizing p steps v with
  | nil => rfl
  | cons name q ih =>
    obtain ⟨rest, rfl⟩ := hq
    have hq : q <+: q ++ rest := List.prefix_append q rest
    match steps, v with
    | .child n :: steps, v =>
      obtain ⟨hn, h⟩ := Bool.and_eq_true_iff.1 h
      exact Bool.and_eq_true_iff.2 ⟨hn, ih hq h⟩
    | .index n :: steps, v => cases h
    | [], .table o fields =>
      obtain ⟨f, hf, h⟩ := List.any_eq_true.1 h
      obtain ⟨hn, h⟩ := Bool.and_eq_true_iff.1 h
      exact List.any_eq_true.2 ⟨f, hf, Bool.and_eq_true_iff.2 ⟨hn, ih hq h⟩⟩
    | [], .scalar o x => cases h
    | [], .list o items => cases h

private theorem isBelowMode_of_isPrefix (hq : q <+: p) (h : isBelowMode q = true) :
    isBelowMode p = true := by
  obtain ⟨rest, rfl⟩ := hq
  match q with
  | [] | [_] | [_, _] => cases h
  | title :: name :: mode :: q => exact h

/-! ### What is set stays -/

private theorem under?_cons : (v.under? (name :: p)).isSome = true ↔
    ∃ w, v.child? name = some w ∧ (w.under? p).isSome = true := by
  show (((v.child? name).bind (Value.under? p)).isSome = true) ↔ _
  cases v.child? name with
  | none => simp
  | some w => simp

/-- A change below a name keeps a path, or makes one, if it does so to what was there. -/
private theorem under?_changeField {change : Value → Value} {n : String} {s : Bool}
    (hself : n = name → ∀ old : Value,
      ((old.under? p).isSome = true ∨ s = true) → ((change old).under? p).isSome = true)
    (h : (v.under? (name :: p)).isSome = true ∨ n = name ∧ s = true) :
    ((changeField change n v).under? (name :: p)).isSome = true := by
  by_cases hn : n = name
  · subst hn
    refine under?_cons.2 ⟨_, child?_changeField_self .., hself rfl _ ?_⟩
    rcases h with h | ⟨-, hs⟩
    · obtain ⟨w, hw, hp⟩ := under?_cons.1 h
      rw [hw]
      exact Or.inl hp
    · exact Or.inr hs
  · obtain ⟨w, hw, hp⟩ := under?_cons.1 (h.resolve_right fun h => hn h.1)
    exact under?_cons.2 ⟨w, (child?_changeField_of_ne (Ne.symm hn) ..).trans hw, hp⟩

private theorem under?_overlayFields
    (ih : ∀ v old : Value, comesOut .blocked p [] v = false →
      ((old.under? p).isSome = true ∨ comesOut .arrives p [] v = true) → ((overlay v old).under? p).isSome = true)
    (hfree : ∀ f ∈ fields, f.1 = name → comesOut .blocked p [] f.2 = false)
    (h : (v.under? (name :: p)).isSome = true ∨ ∃ f ∈ fields, f.1 = name ∧ comesOut .arrives p [] f.2 = true) :
    ((overlayFields fields v).under? (name :: p)).isSome = true := by
  induction fields generalizing v with
  | nil => exact h.resolve_right fun ⟨_, hf, _⟩ => absurd hf List.not_mem_nil
  | cons f fields ih' =>
    refine ih' (fun f hf => hfree f (List.mem_cons_of_mem _ hf)) ?_
    have hfirst := under?_changeField (v := v) (s := comesOut .arrives p [] f.2)
      fun hn old => ih f.2 old (hfree f List.mem_cons_self hn)
    rcases h with h | ⟨g, hg, hname, hsets⟩
    · exact Or.inl (hfirst (Or.inl h))
    · rcases List.mem_cons.1 hg with rfl | hg
      · exact Or.inl (hfirst (Or.inr ⟨hname, hsets⟩))
      · exact Or.inr ⟨g, hg, hname, hsets⟩

private theorem under?_overlay (v old : Value) (hfree : comesOut .blocked p [] v = false)
    (h : (old.under? p).isSome = true ∨ comesOut .arrives p [] v = true) :
    ((overlay v old).under? p).isSome = true := by
  induction p generalizing v old with
  | nil => rfl
  | cons name p ih =>
    cases v with
    | scalar | list => cases hfree
    | table o fields =>
      rw [overlay]
      refine under?_overlayFields ih (fun f hf hname => ?_) ?_
      · have hnone := List.any_eq_false.1 hfree f hf
        simpa [hname] using hnone
      · refine h.imp id fun h => ?_
        obtain ⟨f, hf, hcomes⟩ := List.any_eq_true.1 h
        obtain ⟨hname, hcomes⟩ := Bool.and_eq_true_iff.1 hcomes
        exact ⟨f, hf, eq_of_beq hname, hcomes⟩

/-- What is put behind some steps keeps a path that it does not block, and makes one that it gives something under. -/
private theorem under?_changeAt (old : Value) (hfree : comesOut .blocked p steps v = false)
    (h : (old.under? p).isSome = true ∨ comesOut .arrives p steps v = true) :
    ((changeAt (overlay v) steps old).under? p).isSome = true := by
  induction steps generalizing p old with
  | nil => exact under?_overlay v old hfree h
  | cons step steps ih =>
    cases p with
    | nil => rfl
    | cons name p =>
      cases step with
      | index n => cases hfree
      | child n =>
        refine under?_changeField (s := comesOut .arrives p steps v) (fun hn old => ih old ?_) ?_
        · simpa [comesOut, hn] using hfree
        · simpa [comesOut] using h

/-- What is set under a path stays there as long as nothing blocks the path. -/
theorem under?_assignAll (hfree : ∀ b ∈ pairs, blocks p b = false)
    (h : (top.under? p).isSome = true ∨ ∃ a ∈ pairs, sets p a = true) :
    ((Loader.assignAll pairs top).under? p).isSome = true := by
  induction pairs generalizing top with
  | nil => exact h.resolve_right fun ⟨_, ha, _⟩ => absurd ha List.not_mem_nil
  | cons b pairs ih =>
    refine ih (fun b hb => hfree b (List.mem_cons_of_mem _ hb)) ?_
    have hfirst := under?_changeAt top (hfree b List.mem_cons_self)
    rcases h with h | ⟨a, ha, hsets⟩
    · exact Or.inl (hfirst (Or.inl h))
    · rcases List.mem_cons.1 ha with rfl | ha
      · exact Or.inl (hfirst (Or.inr hsets))
      · exact Or.inr ⟨a, ha, hsets⟩

/-! ### What can be decoded -/

private theorem isKey_of_child? (h : ofValue top = .ok c) {s : Value} (hs : top.child? title = some s)
    (hname : (s.child? name).isSome = true) : isKey [title, name] = true := by
  obtain ⟨o, fields, rfl, hlookup⟩ := exists_table_of_child? hs
  obtain ⟨w, hw⟩ := Option.isSome_iff_exists.1 hname
  obtain ⟨o', fs, rfl, hlookup'⟩ := exists_table_of_child? hw
  have hsome : (fs.lookup name).isSome = true := by rw [hlookup']; rfl
  obtain ⟨hknown, h₁, h₂, h₃⟩ := ofValue_eq_ok.1 h
  have htitle : title ∈ sectionNames := hknown title (by rw [hlookup]; rfl)
  have hglobal : ∀ name ∈ globalKeys, isKey ["global", name] = true := by decide
  have hpaths : ∀ name ∈ pathKeys, isKey ["paths", name] = true := by decide
  have hgradle : ∀ name ∈ gradleKeys, isKey ["gradle", name] = true := by decide
  simp only [sectionNames, List.mem_cons, List.not_mem_nil, or_false] at htitle
  rcases htitle with rfl | rfl | rfl
  · exact hglobal name ((wantGlobal_eq_ok.1 (h₁.of_some hlookup)).1 name hsome)
  · exact hpaths name ((wantPaths_eq_ok.1 (h₂.of_some hlookup)).1 name hsome)
  · exact hgradle name ((wantGradle_eq_ok.1 (h₃.of_some hlookup)).1 name hsome)

/-- Nothing that can be decoded has a value under an unknown path. -/
theorem isKey_of_under? (h : ofValue top = .ok c) (hp : (top.under? p).isSome = true) :
    isKey p = true ∨ isBelowMode p = true := by
  match p with
  | [] => exact Or.inl rfl
  | [title] =>
    obtain ⟨s, hs, -⟩ := under?_cons.1 hp
    obtain ⟨o, fields, rfl, hlookup⟩ := exists_table_of_child? hs
    have htitle : title ∈ sectionNames := (ofValue_eq_ok.1 h).1 title (by rw [hlookup]; rfl)
    exact Or.inl (by simpa [isKey] using htitle)
  | [title, name] =>
    obtain ⟨s, hs, hp⟩ := under?_cons.1 hp
    obtain ⟨w, hw, -⟩ := under?_cons.1 hp
    exact Or.inl (isKey_of_child? h hs (by rw [hw]; rfl))
  | title :: name :: mode :: p =>
    obtain ⟨s, hs, hp⟩ := under?_cons.1 hp
    obtain ⟨w, hw, hp⟩ := under?_cons.1 hp
    obtain ⟨u, hu, -⟩ := under?_cons.1 hp
    have hkey := isKey_of_child? h hs (by rw [hw]; rfl)
    obtain ⟨k, -, hk⟩ := List.any_eq_true.1 hkey
    obtain ⟨ht, hn⟩ := Bool.and_eq_true_iff.1 hk
    obtain rfl := eq_of_beq ht
    obtain rfl := eq_of_beq hn
    have hat : k.at? top = some w := Option.bind_eq_some_iff.2 ⟨s, hs, hw⟩
    -- only the console mode can be a table, with the name of a mode in it
    obtain ⟨o, fs, rfl, hmode⟩ := exists_table_of_child? hu
    obtain ⟨n, x, rfl, ⟨rfl, hname⟩, -⟩ := want_table (want_of_at? h hat)
    obtain rfl : mode = n := by
      by_contra hne
      have hb : (mode == n) = false := by simpa using hne
      simp [List.lookup_cons, hb] at hmode
    exact Or.inr (by simpa [isBelowMode] using hname)

/-! ### The layers of a run -/

/-- What the overrides assign, and the root that is given as an option. -/
def Inputs.overrideLayer (i : Inputs) : List (Key × Value) :=
  i.options.overrides.filterMap override?
    ++ i.options.projectRoot.toList.map fun _ => ((Setting.directory .projectRoot).key, .text i.root.display)

/-- Where a path comes out behind some steps is the same for all values that are no tables. -/
private theorem comesOut_congr {r : Outcome} {w : Value} (hv : v.isTable = false) (hw : w.isTable = false) :
    comesOut r p steps v = comesOut r p steps w := by
  induction steps generalizing p with
  | nil =>
    cases p with
    | nil => rfl
    | cons name p =>
      cases v with
      | table => cases hv
      | scalar | list =>
        cases w with
        | table => cases hw
        | scalar | list => rfl
  | cons step steps ih =>
    cases p with
    | nil => rfl
    | cons name p =>
      cases step with
      | index => rfl
      | child n => rw [comesOut, comesOut, ih]

private theorem mem_overrideLayer (h : a ∈ i.overriding) : a ∈ i.overrideLayer := by
  unfold Inputs.overrideLayer
  cases hroot : i.options.projectRoot with
  | none =>
    rw [overriding_of_none hroot] at h
    exact List.mem_append_left _ ((mem_assignEach h).resolve_right List.not_mem_nil)
  | some r =>
    rw [overriding_of_some hroot] at h
    rcases mem_assign h with rfl | h
    · exact List.mem_append_right _ (List.mem_singleton_self _)
    · exact List.mem_append_left _ ((mem_assignEach h).resolve_right List.not_mem_nil)

private theorem isTable_overrideLayer (h : a ∈ i.overrideLayer) : a.2.isTable = false := by
  rcases List.mem_append.1 h with h | h
  · obtain ⟨e, -, he⟩ := List.mem_filterMap.1 h
    obtain ⟨key, value, hvalue⟩ := exists_overrideValue he
    rw [hvalue, Loader.overrideValue]
    split <;> rfl
  · obtain ⟨r, -, rfl⟩ := List.mem_map.1 h
    rfl

/-- An override that is set in the end may have another value than the one given first, but its key is the same. -/
private theorem sets_overriding (h : a ∈ i.overrideLayer) (hsets : sets p a = true) :
    ∃ b ∈ i.overriding, sets p b = true := by
  have hkey : a.1 ∈ i.overriding.map Prod.fst := by
    rcases List.mem_append.1 h with h | h
    · have heach : a.1 ∈ (assignEach (i.options.overrides.filterMap override?) []).map Prod.fst :=
        key_mem_assignEach (Or.inl h)
      cases hroot : i.options.projectRoot with
      | none =>
        rw [overriding_of_none hroot]
        exact heach
      | some r =>
        rw [overriding_of_some hroot]
        exact key_mem_assign _ (Or.inr heach)
    · obtain ⟨r, hr, rfl⟩ := List.mem_map.1 h
      rw [overriding_of_some (Option.mem_toList.1 hr)]
      exact key_mem_assign _ (Or.inl rfl)
  obtain ⟨⟨key, w⟩, hb, hfst⟩ := List.mem_map.1 hkey
  obtain rfl : key = a.1 := hfst
  refine ⟨_, hb, ?_⟩
  have hw : w.isTable = false := isTable_overrideLayer (mem_overrideLayer hb)
  unfold sets
  rw [comesOut_congr hw (isTable_overrideLayer h)]
  exact hsets

/-- A path that a layer sets stays in the merged layers if neither this layer nor a higher one blocks it. -/
private theorem under?_layers {lower higher : List (List (Key × Value))} {layer : List (Key × Value)}
    (hlayers : i.lowerLayers ++ [i.overrideLayer] = lower ++ layer :: higher) (hbase : i.base = .ok base)
    (hsets : ∃ a ∈ layer, sets p a = true) (hfree : ∀ b ∈ layer ++ higher.flatten, blocks p b = false) :
    ((Loader.assignAll i.overriding base).under? p).isSome = true := by
  obtain ⟨a, ha, hsets⟩ := hsets
  rcases List.eq_nil_or_concat higher with rfl | ⟨higher, last, rfl⟩
  · -- the overrides set the path
    obtain ⟨-, hlast⟩ := List.append_inj' hlayers rfl
    obtain rfl : i.overrideLayer = layer := List.singleton_inj.1 hlast
    exact under?_assignAll (fun b hb => hfree b (List.mem_append_left _ (mem_overrideLayer hb)))
      (Or.inr (sets_overriding ha hsets))
  · -- a lower layer sets the path, and the overrides leave it
    rw [List.concat_eq_append, ← List.cons_append, ← List.append_assoc] at hlayers
    obtain ⟨hlower, hlast⟩ := List.append_inj' hlayers rfl
    obtain rfl : i.overrideLayer = last := List.singleton_inj.1 hlast
    rw [List.concat_eq_append, List.flatten_append, List.flatten_singleton, ← List.append_assoc] at hfree
    have hunder : (base.under? p).isSome = true := by
      rw [base_layers hbase, hlower, List.flatten_append, List.flatten_cons, ← List.cons_append, assignAll_append]
      exact under?_assignAll (fun b hb => hfree b (List.mem_append_left _ hb))
        (Or.inr ⟨a, List.mem_append_left _ ha, hsets⟩)
    exact under?_assignAll (fun b hb => hfree b (List.mem_append_right _ (mem_overrideLayer hb))) (Or.inl hunder)

/-- A layer that sets an unknown path makes the run fail, whatever the other layers say, unless this layer or a higher
one puts something other than a table in the place of a section or a setting above the path. -/
theorem load_unknown (i : Inputs) {lower higher : List (List (Key × Value))} {layer : List (Key × Value)}
    {p : List String} (hlayers : i.lowerLayers ++ [i.overrideLayer] = lower ++ layer :: higher)
    (hp : isKey p = false) (hmode : isBelowMode p = false) (hsets : ∃ a ∈ layer, sets p a = true)
    (hfree : ∀ b ∈ layer ++ higher.flatten, blocks (upToUnknown p) b = false) : ∃ cause, i.load = .error cause := by
  -- the path is refused for what it begins with
  obtain ⟨hq, hstart⟩ := upToUnknown_spec hp
  obtain ⟨a, ha, hsets⟩ := hsets
  cases hload : i.load with
  | error cause => exact ⟨cause, rfl⟩
  | ok loaded =>
    exfalso
    obtain ⟨-, base, c, hbase, hvalue, -, -⟩ := load_eq_ok hload
    have hunder := under?_layers hlayers hbase ⟨a, ha, arrives_of_isPrefix hstart hsets⟩ hfree
    rcases isKey_of_under? hvalue hunder with hkey | hkey
    · rw [hq] at hkey
      cases hkey
    · rw [isBelowMode_of_isPrefix hstart hkey] at hmode
      cases hmode

/-- A project with a file of its own, and a console mode that an override gives. -/
def Inputs.styled (content : String) : Inputs where
  tree := .ofEntries [([encode "p"], .directory), ([encode "p", encode "scp-build.toml"], .file (encode content) false)]
  cwd := [encode "p"]
  environment := []
  options := { settings := ["gradle.console=rich"] }
  dir := .ofText "/p"

/-- What its file assigns. -/
def Inputs.inFile (i : Inputs) : List (Key × Value) := assigned (contents i.tree i.cwd i.projectSource)

theorem load_unknown_misspelled : isKey ["global", "verbose"] = false ∧
    (∃ a ∈ (Inputs.styled "[global]\nverbose = true\n").inFile, sets ["global", "verbose"] a = true) ∧
    ∃ cause, (Inputs.styled "[global]\nverbose = true\n").load = .error cause := by
  have hsets : ∃ a ∈ (Inputs.styled "[global]\nverbose = true\n").inFile, sets ["global", "verbose"] a = true := by
    decide +kernel
  have hfree : ∀ b ∈ ((Inputs.styled "[global]\nverbose = true\n").lowerLayers ++
      [(Inputs.styled "[global]\nverbose = true\n").overrideLayer]).flatten,
      blocks (upToUnknown ["global", "verbose"]) b = false := by decide +kernel
  exact ⟨by decide, hsets, @load_unknown _ [] _ _ _ rfl (by decide) (by decide) hsets hfree⟩

/-- What is loaded in the project with a console mode. -/
def loadedStyled : LoadedConfig where
  config := { paths := { projectRoot := some (.ofText "/p") }, gradle := { console := .rich } }
  files := [.ofText "/p/scp-build.toml"]

/-- An override hides what is wrong in a file, and the name of a console mode stands for the mode, whatever is below. -/
theorem load_unknown_hidden : isKey ["gradle", "console", "x"] = false ∧
    (∃ a ∈ (Inputs.styled "[gradle.console]\nx = 1\n").inFile, sets ["gradle", "console", "x"] a = true) ∧
    (Inputs.styled "[gradle.console]\nx = 1\n").load = .ok loadedStyled ∧
    isKey ["gradle", "console", "rich"] = false ∧ isBelowMode ["gradle", "console", "rich"] = true ∧
    (∃ a ∈ { Inputs.styled "[gradle.console]\nrich = 1\n" with options := {} }.inFile,
      sets ["gradle", "console", "rich"] a = true) ∧
    { Inputs.styled "[gradle.console]\nrich = 1\n" with options := {} }.load = .ok loadedStyled :=
  ⟨by decide, by decide +kernel, by decide +kernel, by decide, by decide, by decide +kernel, by decide +kernel⟩

end GradleBuild.Config
