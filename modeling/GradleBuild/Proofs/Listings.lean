import GradleBuild.Proofs.Layouts
import GradleBuild.Proofs.ListForms
import GradleBuild.Proofs.Segments

/-!
# Listings are read back

A listing has a line for each setting that has anything to show, in the order of the keys, with all eight directories
spelled out.  A line is an override for its setting, and its text is taken for what it shows, as long as no blanks are
lost at the ends of a path and no argument is more than one word.  So the lines of a listing, in any order, make the
configuration with its directories spelled out.

* `Setting.want_shown`: what one setting shows is taken for its value.
* `options_eq`, `listing_eq`: a listing line by line; `ascending_options`: its keys.
* `Path.tidy_join`, `tidy_layoutFrom`: directories that are joined from tidy paths are tidy.
* `ofValue_shown`: what each setting shows makes the configuration together; `Lists.build`: so do the lines for it.
* `load_listing`: so a configuration that is loaded can be made again from its listing.
-/

namespace GradleBuild

/-! ### Texts without blanks at their ends -/

variable {cs ds : List Char} {s : String} {args : List String}

/-- Nothing is trimmed from a list that neither begins nor ends with a blank. -/
theorem trimChars_eq_self : trimChars cs = cs ↔
    (∀ c ∈ cs.head?, isBlank c = false) ∧ ∀ c ∈ cs.getLast?, isBlank c = false := by
  have hkeep (ds : List Char) : ds.dropWhile isBlank = ds ↔ ∀ c ∈ ds.head?, isBlank c = false := by
    rw [List.dropWhile_eq_self_iff]
    cases ds <;> simp
  have hlength (ds : List Char) : (ds.dropWhile isBlank).length ≤ ds.length := (List.dropWhile_suffix _).length_le
  rw [← List.head?_reverse, ← hkeep, ← hkeep]
  unfold trimChars
  constructor
  · intro h
    have hend := hlength (cs.dropWhile isBlank).reverse
    have hfront : cs.dropWhile isBlank = cs := by
      refine (List.dropWhile_suffix _).eq_of_length ?_
      have hall := congrArg List.length h
      have hle := hlength cs
      simp only [List.length_reverse] at hall hend
      omega
    rw [hfront] at h
    exact ⟨hfront, by rw [← List.reverse_inj, h, List.reverse_reverse]⟩
  · rintro ⟨hfront, hend⟩
    rw [hfront, hend, List.reverse_reverse]

theorem trim_eq_self : trim s = s ↔ trimChars s.toList = s.toList := by
  rw [trim, ← String.toList_inj, String.toList_ofList]

/-- A blank before a text is lost. -/
theorem trim_blank (s : String) : trim (" " ++ s) = trim s := by
  have hblank : isBlank ' ' = true := by decide
  unfold trim trimChars
  rw [String.toList_append]
  show String.ofList (((' ' :: s.toList).dropWhile isBlank).reverse.dropWhile isBlank).reverse = _
  rw [List.dropWhile_cons_of_pos hblank]

/-- What stands between texts that are not blank at their ends does not matter. -/
theorem trimChars_append (h : trimChars cs = cs) (h' : trimChars ds = ds) (hcs : cs ≠ []) (hds : ds ≠ [])
    (between : List Char) : trimChars (cs ++ between ++ ds) = cs ++ between ++ ds := by
  obtain ⟨hfront, -⟩ := trimChars_eq_self.1 h
  obtain ⟨-, hend⟩ := trimChars_eq_self.1 h'
  refine trimChars_eq_self.2 ⟨?_, ?_⟩
  · rwa [List.append_assoc, List.head?_append_of_ne_nil _ hcs]
  · rwa [List.getLast?_append_of_ne_nil _ hds]

/-- Words that are put behind one another with spaces between them are those words again. -/
theorem words_intercalate (h : ∀ a ∈ args, a ≠ "" ∧ ∀ c ∈ a.toList, isBlank c = false) :
    words (String.intercalate " " args) = args := by
  have hspace : (" " : String).toList = [' '] := rfl
  have hwords : ∀ w ∈ args.map String.toList, w ≠ [] ∧ ∀ c ∈ w, isBlank c = false := by
    intro w hw
    obtain ⟨a, ha, rfl⟩ := List.mem_map.1 hw
    exact ⟨by simpa using (h a ha).1, (h a ha).2⟩
  have hpieces : (pieces isBlank (String.intercalate " " args).toList).filter (· ≠ []) = args.map String.toList := by
    rw [String.toList_intercalate, hspace]
    cases hargs : args.map String.toList with
    | nil => rfl
    | cons w ws =>
      rw [hargs] at hwords
      rw [pieces_intercalate (by decide) fun v hv => (hwords v hv).2]
      exact List.filter_eq_self.2 fun v hv => by simpa using (hwords v hv).1
  rw [words, hpieces, List.map_map]
  simp

/-! ### Tidy paths -/

namespace Path

variable {p q : Path}

private theorem encode_slash : String.utf8EncodeChar '/' = [slash] := by decide

/-- A path that is a text, with no blanks at its ends. -/
def Tidy (p : Path) : Prop := ∃ s, p = .ofText s ∧ trim s = s

theorem isEmpty_join (hq : q.isEmpty = false) : (p.join q).isEmpty = false := by
  unfold join
  split
  · exact hq
  · rw [isEmpty, List.isEmpty_eq_false_iff] at hq
    split <;> simp [isEmpty, hq]

theorem isEmpty_absoluteFrom (hq : q.isEmpty = false) : (p.absoluteFrom q).isEmpty = false := by
  unfold absoluteFrom
  split
  · exact hq
  · exact isEmpty_join hq

/-- Two tidy paths are joined to one. -/
theorem tidy_join (hp : p.Tidy) (hq : q.Tidy) (hempty : p.isEmpty = false) (hempty' : q.isEmpty = false) :
    (p.join q).Tidy := by
  obtain ⟨s, rfl, hs⟩ := hp
  obtain ⟨t, rfl, ht⟩ := hq
  have hne {u : String} (h : (Path.ofText u).isEmpty = false) : u.toList ≠ [] := by
    rintro hu
    obtain rfl : u = "" := by simpa using hu
    cases h
  have htrim (between : String) : trim (s ++ between ++ t) = s ++ between ++ t := by
    rw [trim_eq_self, String.toList_append, String.toList_append]
    exact trimChars_append (trim_eq_self.1 hs) (trim_eq_self.1 ht) (hne hempty) (hne hempty') _
  unfold join
  split
  · exact ⟨t, rfl, ht⟩
  · split
    · exact ⟨s ++ "" ++ t, by simp [ofText, encode], htrim ""⟩
    · exact ⟨s ++ "/" ++ t, by simp [ofText, encode, encode_slash], htrim "/"⟩

theorem tidy_absoluteFrom (hp : p.Tidy) (hq : q.Tidy) (hempty : p.isEmpty = false) (hempty' : q.isEmpty = false) :
    (p.absoluteFrom q).Tidy := by
  unfold absoluteFrom
  split
  · exact hq
  · exact tidy_join hp hq hempty hempty'

end Path

/-! ### The directories -/

section Directories

variable {c : PathsConfig} {root : Path} {q r : Place} {configured : Option Path} {above : Path}

private theorem isEmpty_defaultName (h : q.above? = some r) : (Path.ofText q.defaultName).isEmpty = false := by
  cases q <;> first | rfl | cases h

private theorem tidy_defaultName (q : Place) : (Path.ofText q.defaultName).Tidy :=
  ⟨_, rfl, by cases q <;> decide⟩

/-- No directory has an empty path. -/
theorem isEmpty_layoutFrom (hroot : root.isEmpty = false) (h : ∀ q path, c.get q = some path → path.isEmpty = false)
    (q : Place) : ((c.layoutFrom root).get q).isEmpty = false := by
  induction q using Place.inductionAbove with
  | root => exact hroot
  | below q r hq ih =>
    rw [PathsConfig.get_below c root hq]
    unfold PathsConfig.place
    cases hget : c.get q with
    | none => exact Path.isEmpty_join (isEmpty_defaultName hq)
    | some path => exact Path.isEmpty_absoluteFrom (h q path hget)

/-- Directories that are configured by tidy paths have tidy paths. -/
theorem tidy_layoutFrom (hroot : root.Tidy) (hempty : root.isEmpty = false)
    (h : ∀ q path, c.get q = some path → path.isEmpty = false ∧ path.Tidy) (q : Place) :
    ((c.layoutFrom root).get q).Tidy := by
  induction q using Place.inductionAbove with
  | root => exact hroot
  | below q r hq ih =>
    have habove := isEmpty_layoutFrom hempty (fun q path hget => (h q path hget).1) r
    rw [PathsConfig.get_below c root hq]
    unfold PathsConfig.place
    cases hget : c.get q with
    | none => exact Path.tidy_join ih (tidy_defaultName q) habove (isEmpty_defaultName hq)
    | some path => exact Path.tidy_absoluteFrom ih (h q path hget).2 habove (h q path hget).1

end Directories

namespace Config

open Key (overlay)

variable {width : Nat} {c c' : Config} {l : Layout} {k : Setting} {s : String} {lines : List String} {top : Value}
  {pairs : List (Key × Value)}

/-! ### One setting -/

namespace Setting

/-- What a listing shows for a setting, if anything. -/
def shown : (k : Setting) → k.Kind → Option String
  | dry, b => some (toString b)
  | outputLogLevel, level => some (toString level.toNat)
  | fileLogLevel, level => level.map fun level => toString level.toNat
  | logFile, p | directory _, p | wrapper, p => p.map Path.display
  | console, mode => some mode.name
  | arguments, args => if args.isEmpty then none else some (String.intercalate " " args)

/-- A value that loses nothing in a listing: paths are tidy, and each argument is one word. -/
def Tidy : (k : Setting) → k.Kind → Prop
  | logFile, p | directory _, p | wrapper, p => ∀ q, p = some q → q.Tidy
  | arguments, args => ∀ a ∈ args, a ≠ "" ∧ ∀ ch ∈ a.toList, isBlank ch = false
  | dry, _ | outputLogLevel, _ | fileLogLevel, _ | console, _ => True

/-- A setting that shows nothing has its default. -/
theorem builtIn_of_unshown {x : k.Kind} (h : k.shown x = none) : x = k.builtIn := by
  cases k with
  | dry | outputLogLevel | console => cases h
  | fileLogLevel | logFile | directory | wrapper => exact Option.map_eq_none_iff.1 h
  | arguments =>
    cases x with
    | nil => rfl
    | cons a args => cases h

/-- The value that a line gives to its setting. -/
def lineValue (k : Setting) (s : String) : Value := Loader.overrideValue k.text (trim (" " ++ s))

/-- A text without blanks at its ends is given as it is, except for the words of the arguments. -/
theorem lineValue_of_trim (hk : k ≠ arguments) (hs : trim s = s) : k.lineValue s = .text s := by
  have hall : ∀ k ∈ all, k ≠ arguments → listKeys.contains k.text = false := by decide +kernel
  rw [lineValue, trim_blank, hs, Loader.overrideValue, hall k k.mem_all hk]
  rfl

theorem lineValue_arguments (s : String) : arguments.lineValue s = .list none ((words s).map .text) := by
  have hlist : listKeys.contains arguments.text = true := by decide
  rw [lineValue, trim_blank, Loader.overrideValue, hlist, words_trim]
  rfl

theorem overlay_lineValue (k : Setting) (s : String) (old : Value) : overlay (k.lineValue s) old = k.lineValue s := by
  unfold lineValue Loader.overrideValue
  split
  · rw [overlay]
  · rw [Value.text, overlay]

/-- What a setting shows is taken for its value. -/
theorem want_shown {x : k.Kind} (hx : k.Tidy x) (h : k.shown x = some s) : k.want (k.lineValue s) = .ok x := by
  cases k with
  | dry =>
    obtain rfl := Option.some.inj h
    cases x <;> decide +kernel
  | outputLogLevel =>
    obtain rfl := Option.some.inj h
    cases x <;> decide +kernel
  | fileLogLevel =>
    obtain ⟨level, rfl, rfl⟩ := Option.map_eq_some_iff.1 h
    cases level <;> decide +kernel
  | console =>
    obtain rfl := Option.some.inj h
    cases x <;> decide +kernel
  | logFile | directory | wrapper =>
    obtain ⟨p, rfl, rfl⟩ := Option.map_eq_some_iff.1 h
    obtain ⟨s, rfl, hs⟩ := hx p rfl
    rw [Path.display_ofText, lineValue_of_trim (by simp) hs]
    rfl
  | arguments =>
    have hwords := words_intercalate hx
    cases x with
    | nil => cases h
    | cons a args =>
      obtain rfl := Option.some.inj h
      rw [lineValue_arguments, hwords]
      exact wantTexts_list none none (a :: args)

end Setting

/-! ### Line by line -/

/-- The settings in the order of their keys. -/
def Setting.listed : List Setting :=
  [dry, fileLogLevel, logFile, outputLogLevel, arguments, console, wrapper] ++
    [Place.build, .deliverables, .javaDocs, .java, .docs, .libs, .out, .projectRoot].map directory

theorem Setting.mem_listed (k : Setting) : k ∈ listed := by
  cases k with
  | directory p => cases p <;> decide
  | dry | outputLogLevel | fileLogLevel | logFile | wrapper | console | arguments => decide

/-- A configuration with all its directories spelled out. -/
def spelledOut (c : Config) (l : Layout) : Config := { c with paths := l.toConfig }

/-- The values in force are those that the settings show, with the directories spelled out. -/
theorem options_eq (h : c.layout = .ok l) : c.options = Setting.listed.filterMap fun k =>
    (k.shown (k.get (c.spelledOut l))).map fun s => (k.text, s) := by
  obtain ⟨⟨dry, output, file, log⟩, paths, wrapper, mode, args⟩ := c
  unfold options pathOptions
  rw [h]
  cases file <;> cases log <;> cases args <;> cases wrapper <;> rfl

/-- The keys of the values in force are in ascending order, each once. -/
theorem ascending_options (h : c.layout = .ok l) : (c.options.map Prod.fst).Pairwise (· < ·) := by
  have hlisted : (Setting.listed.map Setting.text).Pairwise (· < ·) := by decide +kernel
  have hsub (ks : List Setting) (f : Setting → Option String) :
      ((ks.filterMap fun k => (f k).map fun s => (k.text, s)).map Prod.fst).Sublist (ks.map Setting.text) := by
    induction ks with
    | nil => exact List.Sublist.refl _
    | cons k ks ih =>
      rw [List.filterMap_cons]
      cases f k with
      | none => exact ih.cons _
      | some s => exact ih.cons_cons _
  rw [options_eq h]
  exact hlisted.sublist (hsub _ _)

/-- The line for a setting in a listing of a given width. -/
def Setting.line (width : Nat) (k : Setting) (s : String) : String :=
  k.spelled "" '.' (String.ofList (List.replicate (width - k.text.length) ' ') ++ " ") (" " ++ s)

private theorem padKey_line (width : Nat) (k : Setting) (s : String) :
    padKey width k.text ++ " = " ++ s = k.line width s := by
  refine String.toList_inj.1 ?_
  simp [padKey, Setting.line, Setting.spelled, Setting.text]

/-- A listing has a line for each setting that shows something. -/
theorem listing_eq (h : c.layout = .ok l) : ∃ width, c.listing = Setting.listed.filterMap fun k =>
    (k.shown (k.get (c.spelledOut l))).map (k.line width) := by
  refine ⟨(c.options.map (·.1.length)).foldl max 0, ?_⟩
  unfold listing
  dsimp only
  rw [options_eq h, List.map_filterMap]
  refine List.filterMap_congr fun k _ => ?_
  rw [Option.map_map]
  refine congrArg (Option.map · _) (funext fun s => ?_)
  exact padKey_line _ k s

private theorem isAllBlank_padding (n : Nat) : isAllBlank (String.ofList (List.replicate n ' ') ++ " ") = true := by
  have hblank : isBlank ' ' = true := by decide
  simp [isAllBlank, hblank]

theorem splitOverride_line (width : Nat) (k : Setting) (s : String) :
    Loader.splitOverride (k.line width s) = .ok (k.text, trim (" " ++ s)) :=
  splitOverride_spelled (by decide) (by decide) (isAllBlank_padding _) k _

theorem override?_line (width : Nat) (k : Setting) (s : String) :
    override? (k.line width s) = some (k.key, k.lineValue s) :=
  override?_spelled (by decide) (by decide) (isAllBlank_padding _) k _

/-- A line is an override for its setting and for no other. -/
theorem ofEntry_line (width : Nat) (k j : Setting) (s : String) :
    ofEntry k (j.line width s) = if k = j then some (j.lineValue s) else none :=
  ofEntry_spelled (by decide) (by decide) (isAllBlank_padding _) k j _

/-- The lines of a listing are in ascending order of their keys, each key once. -/
theorem ascending_listing (h : c.layout = .ok l) : ∃ keys : List String, keys.Pairwise (· < ·) ∧
    c.listing.map (fun entry => (Loader.splitOverride entry).map Prod.fst) = keys.map .ok := by
  obtain ⟨width, hlisting⟩ := listing_eq h
  refine ⟨c.options.map Prod.fst, ascending_options h, ?_⟩
  rw [hlisting, options_eq h, List.map_filterMap, List.map_filterMap, List.map_filterMap]
  refine List.filterMap_congr fun k _ => ?_
  cases k.shown (k.get (c.spelledOut l)) with
  | none => rfl
  | some s => exact congrArg (fun r => some (Except.map Prod.fst r)) (splitOverride_line width k s)

/-! ### Many settings at once -/

/-- A configuration is told by its settings. -/
theorem ext_get (h : ∀ k : Setting, k.get c = k.get c') : c = c' := by
  obtain ⟨⟨_, _, _, _⟩, ⟨_, _, _, _, _, _, _, _⟩, ⟨_, _, _⟩⟩ := c
  obtain ⟨⟨_, _, _, _⟩, ⟨_, _, _, _, _, _, _, _⟩, ⟨_, _, _⟩⟩ := c'
  have hdirectory (p : Place) := h (.directory p)
  simp only [mk.injEq, GlobalConfig.mk.injEq, PathsConfig.mk.injEq, GradleConfig.mk.injEq]
  exact ⟨⟨h .dry, h .outputLogLevel, h .fileLogLevel, h .logFile⟩, ⟨hdirectory .projectRoot, hdirectory .build,
    hdirectory .libs, hdirectory .docs, hdirectory .out, hdirectory .deliverables, hdirectory .java,
    hdirectory .javaDocs⟩, h .wrapper, h .console, h .arguments⟩

theorem Sectioned.tabled (h : Sectioned top) (k : Setting) : Tabled k top := by
  obtain ⟨o, fields, rfl, hs⟩ := h
  exact ⟨⟨o, fields, rfl⟩, fun s hsection => hs k.title s hsection⟩

/-- Assignments of values that can be decoded, each to the key of its setting, leave what can be decoded so. -/
theorem ofValue_assignAll (hs : Sectioned top) (hc : ofValue top = .ok c)
    (h : ∀ a ∈ pairs, ∃ (k : Setting) (x : k.Kind), a.1 = k.key ∧ k.want a.2 = .ok x ∧ ∀ old, overlay a.2 old = a.2) :
    ∃ c', ofValue (Loader.assignAll pairs top) = .ok c' := by
  induction pairs generalizing top c with
  | nil => exact ⟨c, hc⟩
  | cons a pairs ih =>
    obtain ⟨key, v⟩ := a
    obtain ⟨k, x, hkey, hwant, hover⟩ := h (key, v) List.mem_cons_self
    obtain rfl : key = k.key := hkey
    have hgiven := given_set hover k top
    have hvalue := ofValue_agree hgiven.agree (hs.tabled k) hgiven.own hc
    replace hwant : k.want v = .ok x := hwant
    rw [hwant] at hvalue
    exact ih (hs.set k v) hvalue fun a ha => h a (List.mem_cons_of_mem _ ha)

/-- If each setting that is shown has its value among some assignments, and no other value, these make the
configuration. -/
theorem ofValue_shown (htidy : ∀ k : Setting, k.Tidy (k.get c))
    (h : Overrides (fun k => (k.shown (k.get c)).map k.lineValue) pairs) :
    ofValue (Loader.assignAll pairs (.table none [])) = .ok c := by
  have hempty : Sectioned (.table none []) := ⟨none, [], rfl, fun _ _ h => by cases h⟩
  obtain ⟨c', hc'⟩ : ∃ c', ofValue (Loader.assignAll pairs (.table none [])) = .ok c' := by
    refine ofValue_assignAll hempty (c := {}) rfl fun a ha => ?_
    obtain ⟨k, hk⟩ := h.ofSettings a ha
    have hmem : a.2 ∈ valuesFor k pairs := List.mem_filterMap.2 ⟨a, ha, if_pos hk⟩
    rw [h.values, Option.mem_toList] at hmem
    obtain ⟨s, hs, hvalue⟩ := Option.map_eq_some_iff.1 hmem
    rw [← hvalue]
    exact ⟨k, k.get c, hk, Setting.want_shown (htidy k) hs, Setting.overlay_lineValue k s⟩
  have hall : c' = c := by
    refine ext_get fun k => ?_
    obtain ⟨hs, hat⟩ := at?_assignAll h.ofSettings hempty
    have htaken := ofValue_ok hs hc' k
    have hnone : k.at? (.table none []) = none := rfl
    rw [hat k, h.values, hnone] at htaken
    cases hshown : k.shown (k.get c) with
    | none =>
      rw [hshown] at htaken
      exact (show k.get c' = k.builtIn from htaken).trans (Setting.builtIn_of_unshown hshown).symm
    | some s =>
      rw [hshown] at htaken
      replace htaken : k.want (overlay (k.lineValue s) .null) = .ok (k.get c') := htaken
      rw [Setting.overlay_lineValue, Setting.want_shown (htidy k) hshown] at htaken
      exact (Except.ok.inj htaken).symm
  rw [hc', hall]

/-! ### A listing as overrides -/

/-- Some lines, in any order, are those for what the settings of a configuration show. -/
def Lists (width : Nat) (c : Config) (lines : List String) : Prop :=
  ∀ entry, entry ∈ lines ↔ ∃ (k : Setting) (s : String), k.shown (k.get c) = some s ∧ k.line width s = entry

theorem lists_of_listing (h : c.layout = .ok l) (hlines : ∀ entry, entry ∈ lines ↔ entry ∈ c.listing) :
    ∃ width, Lists width (c.spelledOut l) lines := by
  obtain ⟨width, hlisting⟩ := listing_eq h
  refine ⟨width, fun entry => ?_⟩
  rw [hlines, hlisting, List.mem_filterMap]
  constructor
  · rintro ⟨k, -, hk⟩
    exact ⟨k, Option.map_eq_some_iff.1 hk⟩
  · rintro ⟨k, hk⟩
    exact ⟨k, k.mem_listed, Option.map_eq_some_iff.2 hk⟩

private theorem getLast?_of_all {α : Type} {xs : List α} {x : α} (hne : xs ≠ []) (h : ∀ y ∈ xs, y = x) :
    xs.getLast? = some x := by
  rw [List.getLast?_eq_some_getLast hne, h _ (List.getLast_mem hne)]

/-- All lines for a setting give it the same value. -/
theorem Lists.getLast? (h : Lists width c lines) (k : Setting) :
    (lines.filterMap (ofEntry k)).getLast? = (k.shown (k.get c)).map k.lineValue := by
  have hvalue : ∀ v ∈ lines.filterMap (ofEntry k), ∃ s, k.shown (k.get c) = some s ∧ v = k.lineValue s := by
    intro v hv
    obtain ⟨entry, hentry, hv⟩ := List.mem_filterMap.1 hv
    obtain ⟨j, s, hs, rfl⟩ := (h entry).1 hentry
    rw [ofEntry_line] at hv
    split at hv
    · next hk =>
      subst hk
      exact ⟨s, hs, (Option.some.inj hv).symm⟩
    · cases hv
  cases hshown : k.shown (k.get c) with
  | none =>
    have hnil : lines.filterMap (ofEntry k) = [] := by
      refine List.eq_nil_iff_forall_not_mem.2 fun v hv => ?_
      obtain ⟨s, hs, -⟩ := hvalue v hv
      rw [hshown] at hs
      cases hs
    rw [hnil]
    rfl
  | some s =>
    have hline : k.lineValue s ∈ lines.filterMap (ofEntry k) :=
      List.mem_filterMap.2 ⟨k.line width s, (h _).2 ⟨k, s, hshown, rfl⟩, by rw [ofEntry_line, if_pos rfl]⟩
    refine getLast?_of_all (List.ne_nil_of_mem hline) fun v hv => ?_
    obtain ⟨s', hs', rfl⟩ := hvalue v hv
    rw [hshown] at hs'
    rw [Option.some.inj hs']

/-- As overrides of a loader without any other source, the lines make the configuration. -/
theorem Lists.build (h : Lists width c lines) (htidy : ∀ k : Setting, k.Tidy (k.get c)) (hvalid : c.validate = .ok ()) :
    ∃ loader, ({} : Loader).applyOverrides lines = .ok loader ∧
      ∀ t cwd environment, loader.build t cwd environment = .ok c := by
  have hread : ∀ entry ∈ lines, (override? entry).isSome = true := by
    intro entry hentry
    obtain ⟨k, s, -, rfl⟩ := (h entry).1 hentry
    rw [override?_line]
    rfl
  have hsplit : ∀ entry ∈ lines, ∀ key x, Loader.splitOverride entry = .ok (key, x) → ∃ k : Setting, key = k.text := by
    intro entry hentry key x hx
    obtain ⟨k, s, -, rfl⟩ := (h entry).1 hentry
    rw [splitOverride_line] at hx
    exact ⟨k, (congrArg Prod.fst (Except.ok.inj hx)).symm⟩
  have happly : ({} : Loader).applyOverrides lines =
      .ok { overrides := assignEach (lines.filterMap override?) [] } := applyOverrides_eq_ok.2 ⟨hread, rfl⟩
  have hnone : Overrides (fun _ => none) [] := ⟨fun _ ha => absurd ha List.not_mem_nil, fun _ => rfl⟩
  obtain ⟨hover, -⟩ := applyOverrides_ok hnone happly hsplit
  have hshown := hover.congr fun k => Option.or_none.trans (h.getLast? k)
  exact ⟨_, happly, fun t cwd environment => build_eq_ok.2 ⟨_, assignments_eq_ok.2 ⟨[], [], rfl, rfl, rfl⟩,
    ofValue_shown htidy hshown, hvalid⟩⟩

/-! ### A configuration that is loaded -/

/-- A configuration that loses nothing in a listing: its paths are tidy, and no argument holds a blank. -/
structure Tidy (c : Config) : Prop where
  logFile : ∀ p, c.globals.logFile = some p → p.Tidy
  wrapper : ∀ p, c.gradle.wrapper = some p → p.Tidy
  directories : ∀ q p, c.paths.get q = some p → p.Tidy
  arguments : ∀ a ∈ c.gradle.args, ∀ ch ∈ a.toList, isBlank ch = false

theorem spelledOut_spelledOut (c : Config) (l l' : Layout) : (c.spelledOut l).spelledOut l' = c.spelledOut l' := rfl

/-- The same values are in force when the directories are spelled out. -/
theorem listing_spelledOut (h : c.layout = .ok l) (habsolute : l.projectRoot.isAbsolute = true) :
    (c.spelledOut l).layout = .ok l ∧ (c.spelledOut l).listing = c.listing := by
  have hagain : (c.spelledOut l).layout = .ok l := PathsConfig.resolve_toConfig h habsolute
  have hoptions : (c.spelledOut l).options = c.options := by
    rw [options_eq hagain, spelledOut_spelledOut, options_eq h]
  refine ⟨hagain, ?_⟩
  unfold listing
  rw [hoptions]

private theorem isEmpty_rooted (dir : Path) (h : c.validate = .ok ()) (q : Place) (path : Path)
    (hget : (rooted dir c).paths.get q = some path) : path.isEmpty = false := by
  obtain ⟨-, -, hplaces⟩ := validate_eq_ok.1 h
  have hplace (path : Path) (hpath : c.paths.get q = some path) : path.isEmpty = false := by
    simpa [hpath] using hplaces q
  cases q with
  | projectRoot =>
    obtain ⟨root, hroot, rfl⟩ := Option.map_eq_some_iff.1 hget
    exact Path.isEmpty_absoluteFrom (hplace root hroot)
  | build | libs | docs | out | deliverables | java | javaDocs => exact hplace path hget

/-- A configuration that is loaded with a root, and that loses nothing in a listing, is made again from its listing.
The lines are in ascending order of their keys, each key once.  As overrides of a loader without any other source, in
any order, they build the same configuration with its eight directories as they are resolved.  From an absolute
directory this resolves to the same directories, and its listing is the same. -/
theorem load_listing {i : Inputs} {loaded : LoadedConfig} (h : i.load = .ok loaded)
    (hroot : loaded.config.paths.projectRoot ≠ none) (htidy : loaded.config.Tidy) :
    ∃ l, loaded.config.layout = .ok l ∧
      (∃ keys : List String, keys.Pairwise (· < ·) ∧
        loaded.config.listing.map (fun entry => (Loader.splitOverride entry).map Prod.fst) = keys.map .ok) ∧
      (∀ lines : List String, (∀ entry, entry ∈ lines ↔ entry ∈ loaded.config.listing) →
        ∃ loader, ({} : Loader).applyOverrides lines = .ok loader ∧
          ∀ t cwd environment, loader.build t cwd environment = .ok (loaded.config.spelledOut l)) ∧
      (i.dir.isAbsolute = true → (loaded.config.spelledOut l).layout = .ok l ∧
        (loaded.config.spelledOut l).listing = loaded.config.listing) := by
  obtain ⟨-, base, c, -, -, hvalid, rfl⟩ := load_eq_ok h
  obtain ⟨root, hroot⟩ := Option.ne_none_iff_exists'.1 hroot
  have hempty := isEmpty_rooted i.dir hvalid
  have hlayout : (rooted i.dir c).layout = .ok ((rooted i.dir c).paths.layoutFrom root) :=
    PathsConfig.resolve_eq_ok.2 ⟨root, hroot, rfl⟩
  obtain ⟨hwrapper, hargs, -⟩ := validate_eq_ok.1 hvalid
  have hvalidAgain : ((rooted i.dir c).spelledOut ((rooted i.dir c).paths.layoutFrom root)).validate = .ok () := by
    refine validate_eq_ok.2 ⟨hwrapper, hargs, fun q => ?_⟩
    have hq := isEmpty_layoutFrom (hempty .projectRoot root hroot) hempty q
    simpa [spelledOut] using hq
  have hsettings (k : Setting) :
      k.Tidy (k.get ((rooted i.dir c).spelledOut ((rooted i.dir c).paths.layoutFrom root))) := by
    cases k with
    | dry | outputLogLevel | fileLogLevel | console => trivial
    | logFile => exact htidy.logFile
    | wrapper => exact htidy.wrapper
    | directory q =>
      intro p hp
      obtain rfl : _ = p := Option.some.inj ((Layout.get_toConfig _ q).symm.trans hp)
      exact tidy_layoutFrom (htidy.directories .projectRoot root hroot) (hempty .projectRoot root hroot)
        (fun q path hget => ⟨hempty q path hget, htidy.directories q path hget⟩) q
    | arguments =>
      intro a ha
      refine ⟨?_, htidy.arguments a ha⟩
      rintro rfl
      exact List.any_eq_false.1 hargs "" ha rfl
  refine ⟨_, hlayout, ascending_listing hlayout, fun lines hlines => ?_, fun hdir => listing_spelledOut hlayout ?_⟩
  · obtain ⟨width, hlists⟩ := lists_of_listing hlayout hlines
    exact hlists.build hsettings hvalidAgain
  · obtain ⟨root₀, -, rfl⟩ := Option.map_eq_some_iff.1 hroot
    exact Path.isAbsolute_absoluteFrom hdir root₀

/-- A run whose values look like overrides themselves. -/
def Inputs.signed : Inputs where
  tree := .ofEntries [([encode "p"], .directory)]
  cwd := [encode "p"]
  environment := []
  options := {
    logFile := some (.ofText "logs/a = b")
    settings := ["gradle.args = --offline -Pkey=value", "paths.build_dir = work", "paths/libs_dir = /srv/libs"] }
  dir := .ofText "/p"

/-- What is loaded there. -/
def Inputs.loadedSigned : LoadedConfig where
  config :=
    { globals := { logFile := some (.ofText "logs/a = b") }
      paths :=
        { projectRoot := some (.ofText "/p"), build := some (.ofText "work"), libs := some (.ofText "/srv/libs") }
      gradle := { args := ["--offline", "-Pkey=value"] } }
  files := []

theorem load_listing_signed : Inputs.signed.load = .ok Inputs.loadedSigned ∧
    Inputs.loadedSigned.config.paths.projectRoot ≠ none ∧ Inputs.loadedSigned.config.Tidy ∧
    Inputs.loadedSigned.config.listing ≠ [] ∧ ∃ l loader, Inputs.loadedSigned.config.layout = .ok l ∧
      ({} : Loader).applyOverrides Inputs.loadedSigned.config.listing.reverse = .ok loader ∧
      loader.build (.ofEntries []) [] [] = .ok (Inputs.loadedSigned.config.spelledOut l) ∧
      (Inputs.loadedSigned.config.spelledOut l).listing = Inputs.loadedSigned.config.listing := by
  have hload : Inputs.signed.load = .ok Inputs.loadedSigned := by decide +kernel
  have hroot : Inputs.loadedSigned.config.paths.projectRoot ≠ none := by decide
  have hargs : (["--offline", "-Pkey=value"].all fun a => a.toList.all fun ch => !isBlank ch) = true := by
    decide +kernel
  have htidy : Inputs.loadedSigned.config.Tidy :=
    { logFile := by
        rintro p ⟨⟩
        exact ⟨_, rfl, by decide⟩
      wrapper := by rintro p ⟨⟩
      directories := by
        intro q p hp
        cases q <;> cases hp <;> exact ⟨_, rfl, by decide⟩
      arguments := by simpa [Inputs.loadedSigned] using hargs }
  obtain ⟨l, hlayout, -, hlines, hagain⟩ := load_listing hload hroot htidy
  obtain ⟨loader, happly, hbuild⟩ := hlines _ fun entry => List.mem_reverse
  exact ⟨hload, hroot, htidy, by decide +kernel, l, loader, hlayout, happly, hbuild _ _ _, (hagain (by decide)).2⟩

end Config

end GradleBuild
