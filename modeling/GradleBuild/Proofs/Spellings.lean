import GradleBuild.Options.Arguments
import GradleBuild.Proofs.Settings
import Mathlib.Data.List.Forall2
import Mathlib.Data.List.Perm.Basic

/-!
# Spellings of a command line

A command line mentions options and flags one after another (`Mention`), and each mention can be spelled in several
ways (`Spells`).  Reading the spellings comes to the same as applying the mentions in their order (`apply`), whatever
they are.  What has been given to an option so far is a list of values (`given`), which a mention makes longer.

* `foldlM_next`: reading spelled mentions.
* `Says.run`: the mentions one after another give their values.
* `parse_spelled`: the mentions of some options, in any order and spelling, are read as these options.
-/

namespace GradleBuild

/-! ### Mentions and their spellings -/

namespace Setting

def all : List Setting := [component, projectRoot, config, logLevel, fileLogLevel, logFile, set]

/-- The name of an option behind two dashes. -/
def longName : Setting → String
  | component => "component"
  | projectRoot => "project-root"
  | config => "config"
  | logLevel => "log-level"
  | fileLogLevel => "file-log-level"
  | logFile => "log-file"
  | set => "set"

/-- The letter of an option behind one dash. -/
def letter? : Setting → Option Char
  | component => some 'c'
  | projectRoot => some 'p'
  | logLevel => some 'l'
  | set => some 's'
  | config | fileLogLevel | logFile => none

end Setting

namespace Arguments

/-- An option with its value, or a flag. -/
inductive Mention where
  | option (s : Setting) (value : Bytes)
  | dry
  | cleanBuild
  deriving DecidableEq, Repr

/-- Whether a value can be an argument of its own. -/
def standsAlone (v : Bytes) : Bool := v.head? != some dash || v == [dash]

/-- How a mention may be written. -/
inductive Spells : Mention → List Bytes → Prop
  | long (s : Setting) {v : Bytes} (h : standsAlone v = true) :
      Spells (.option s v) [encode ("--" ++ s.longName), v]
  | longAttached (s : Setting) (v : Bytes) : Spells (.option s v) [encode ("--" ++ s.longName ++ "=") ++ v]
  | short {s : Setting} {c : Char} {v : Bytes} (hc : s.letter? = some c) (h : standsAlone v = true) :
      Spells (.option s v) [encode ("-" ++ String.singleton c), v]
  | shortEquals {s : Setting} {c : Char} (v : Bytes) (hc : s.letter? = some c) :
      Spells (.option s v) [encode ("-" ++ String.singleton c ++ "=") ++ v]
  | shortAttached {s : Setting} {c : Char} {v : Bytes} (hc : s.letter? = some c) (hne : v ≠ [])
      (hv : v.head? ≠ some equals) : Spells (.option s v) [encode ("-" ++ String.singleton c) ++ v]
  | dry : Spells .dry [encode "--dry"]
  | cleanBuild : Spells .cleanBuild [encode "--clean-build"]
  | legacy : Spells .cleanBuild [encode "-cb"]

/-- What a mention does to what has been read. -/
def apply (p : Progress) : Mention → Except ArgumentError Progress
  | .option s v => check p s (some v)
  | .dry => raise p .dry
  | .cleanBuild => raise p .cleanBuild

variable {o : Options} {r : Request} {s : Setting} {v : Bytes} {p q : Progress} {ms : List Mention} {m : Mention}
  {ts : List Bytes} {args : List (List Bytes)}

/-! ### Reading spelled mentions -/

/-- What an argument becomes before it is read. -/
def rewritten (arg : Bytes) : Bytes := if arg = encode "-cb" then encode "--clean-build" else arg

theorem normalize_eq_map (h : ∀ t ∈ ts, t ≠ encode "--") : normalize ts = ts.map rewritten := by
  induction ts with
  | nil => rfl
  | cons t ts ih =>
    rw [normalize, if_neg (h t (by simp)), ih fun t ht => h t (List.mem_cons_of_mem _ ht)]
    rfl

private theorem encode_longName (s : Setting) :
    encode ("--" ++ s.longName) = dash :: dash :: encode s.longName ∧ encode s.longName ≠ [] ∧
      equals ∉ encode s.longName ∧ Switch.ofLongName? (encode s.longName) = some (.setting s) := by
  cases s <;> decide

private theorem encode_letter {c : Char} (h : s.letter? = some c) : ∃ b, encode (String.singleton c) = [b] ∧
    b ≠ dash ∧ Switch.ofShortName? b = some (.setting s) := by
  cases s <;> simp only [Setting.letter?, Option.some.injEq, reduceCtorEq] at h
  all_goals
    subst h
    exact ⟨_, rfl, by decide, by decide⟩

theorem next_long {body : Bytes} (hp : p.onlyValues = false) (hb : body ≠ []) :
    next p (dash :: dash :: body) = long p body := by
  simp [next, hp, hb]

theorem next_short {b : UInt8} {rest : Bytes} (hp : p.onlyValues = false) (hb : b ≠ dash) :
    next p (dash :: b :: rest) = short p (b :: rest) := by
  simp [next, hp, hb]

theorem next_value (hp : p.onlyValues = false) (hv : standsAlone v = true) : next p v = value p v := by
  match v with
  | [] => simp [next, hp]
  | [_] => simp [next, hp]
  | a :: b :: rest =>
    have ha : a ≠ dash := by simpa [standsAlone] using hv
    simp [next, hp, ha]

/-! An option that is checked leaves nothing held back. -/

private theorem assign_ok (h : assign p s v = .ok q) : q.pending = p.pending ∧ q.onlyValues = p.onlyValues := by
  cases s with
  | component | set =>
    simp only [assign] at h
    split at h
    · first | exact Except.ok.inj h ▸ ⟨rfl, rfl⟩ | cases h
    · first | exact Except.ok.inj h ▸ ⟨rfl, rfl⟩ | cases h
  | projectRoot | config | logLevel | fileLogLevel | logFile =>
    obtain ⟨_, -, h⟩ := Config.bind_eq_ok h
    exact Except.ok.inj h ▸ ⟨rfl, rfl⟩

theorem check_ok {value : Option Bytes} (h : check p s value = .ok q) :
    q.pending = p.pending ∧ q.onlyValues = p.onlyValues := by
  unfold check at h
  split at h
  · cases h
  · split at h
    · cases h
    · exact assign_ok h

theorem settle_of_none (h : p.pending = none) : settle p = .ok p := by
  rw [settle, h]

private theorem settle_ok (h : settle p = .ok q) : q.pending = none ∧ q.onlyValues = p.onlyValues := by
  unfold settle at h
  split at h
  · rename_i hnone
    obtain rfl := Except.ok.inj h
    exact ⟨hnone, rfl⟩
  · exact check_ok h

/-- What the spelling of a mention leads to, with the option that is held back checked, is what the mention does. -/
private def ReadsAs (ts : List Bytes) (m : Mention) : Prop := ∀ p : Progress, p.onlyValues = false →
  (ts.foldlM next p >>= settle) = settle p >>= (apply · m)

private theorem readsAs_attached {arg : Bytes}
    (h : ∀ p : Progress, p.onlyValues = false → next p arg = begin p s (some v)) : ReadsAs [arg] (.option s v) := by
  intro p hp
  rw [List.foldlM_cons, h p hp]
  unfold begin
  cases hq : settle p with
  | error => rfl
  | ok q =>
    show (check q s (some v) >>= fun p => [].foldlM next p) >>= settle = check q s (some v)
    cases hc : check q s (some v) with
    | error => rfl
    | ok q' => exact settle_of_none ((check_ok hc).1.trans (settle_ok hq).1)

private theorem readsAs_detached {arg : Bytes} (hv : standsAlone v = true)
    (h : ∀ p : Progress, p.onlyValues = false → next p arg = begin p s none) : ReadsAs [arg, v] (.option s v) := by
  intro p hp
  rw [List.foldlM_cons, h p hp]
  unfold begin
  cases hq : settle p with
  | error => rfl
  | ok q =>
    obtain ⟨hnone, honly⟩ := settle_ok hq
    -- the value joins the option, which is checked only now
    have hvalue : next { q with pending := some (s, none) } v = .ok { q with pending := some (s, some v) } :=
      next_value (p := { q with pending := some (s, none) }) (honly.trans hp) hv
    show (next { q with pending := some (s, none) } v >>= fun p => [].foldlM next p) >>= settle = check q s (some v)
    rw [hvalue]
    show check { q with pending := none } s (some v) = check q s (some v)
    rw [← hnone]

theorem raise_ok {f : Flag} (h : raise p f = .ok q) : q.pending = none ∧ q.onlyValues = p.onlyValues := by
  obtain ⟨p', hp', h⟩ := Config.bind_eq_ok h
  obtain ⟨hnone, honly⟩ := settle_ok hp'
  cases f with
  | dry | cleanBuild =>
    dsimp only at h
    split at h
    · cases h
    · exact Except.ok.inj h ▸ ⟨hnone, honly⟩
  | help | version => cases h

private theorem readsAs_flag {arg : Bytes} {f : Flag} (hm : ∀ p, apply p m = raise p f)
    (h : ∀ p : Progress, p.onlyValues = false → next p arg = raise p f) : ReadsAs [arg] m := by
  intro p hp
  have hraise : raise p f = settle p >>= (raise · f) := by
    cases hq : settle p with
    | error e => 
      unfold raise
      rw [hq]
      rfl
    | ok q =>
      show _ = raise q f
      unfold raise
      rw [hq, settle_of_none (settle_ok hq).1]
  simp only [hm]
  rw [List.foldlM_cons, h p hp, ← hraise]
  cases hr : raise p f with
  | error => rfl
  | ok q => exact settle_of_none (raise_ok hr).1

/-- The values that an option admits. -/
def Fits : Setting → Bytes → Prop
  | .component, v => ∃ c : Component, v = encode c.name
  | .projectRoot, v | .config, v | .logFile, v => v ≠ []
  | .logLevel, v | .fileLogLevel, v => ∃ n ≤ 5, v = encode (toString n)
  | .set, v => ∃ t : String, v = encode t

def Mention.Fits : Mention → Prop
  | .option s v => Arguments.Fits s v
  | .dry | .cleanBuild => True

/-- Whether a mention cannot be mistaken for the flag `-cb`. -/
def Mention.IsDistinct (m : Mention) : Prop := m ≠ .option .component (encode "b")

theorem Mention.Fits.isDistinct (h : m.Fits) : m.IsDistinct := by
  rintro rfl
  obtain ⟨c, hc⟩ := h
  revert hc
  cases c <;> decide

private theorem encode_append (s t : String) : encode (s ++ t) = encode s ++ encode t := by
  simp [encode]

private theorem rewritten_of_ne (h : v ≠ encode "-cb") : rewritten v = v := if_neg h

private theorem ne_of_standsAlone (h : standsAlone v = true) : v ≠ encode "-cb" ∧ v ≠ encode "--" := by
  constructor <;>
  · rintro rfl
    revert h
    decide

private theorem ne_of_two_dashes {body : Bytes} (h : body ≠ []) :
    dash :: dash :: body ≠ encode "-cb" ∧ dash :: dash :: body ≠ encode "--" := by
  have hcb : encode "-cb" = [dash, 0x63, 0x62] := by decide
  have hend : encode "--" = [dash, dash] := by decide
  have hdash : dash ≠ 0x63 := by decide
  rw [hcb, hend]
  simp [h, hdash]

private theorem ne_of_letter {b : UInt8} {rest : Bytes} (h : Switch.ofShortName? b = some (.setting s))
    (hb : b ≠ dash) (hrest : s = .component → rest ≠ encode "b") :
    dash :: b :: rest ≠ encode "-cb" ∧ dash :: b :: rest ≠ encode "--" := by
  have hcb : encode "-cb" = [dash, 0x63, 0x62] := by decide
  have hend : encode "--" = [dash, dash] := by decide
  rw [hcb, hend]
  refine ⟨fun heq => ?_, fun heq => ?_⟩
  · obtain ⟨rfl, hr⟩ : b = 0x63 ∧ rest = [0x62] := by simpa using heq
    have hs : s = .component := by simpa [Switch.ofShortName?] using h.symm
    exact hrest hs hr
  · have hnil : b = dash ∧ rest = [] := by simpa using heq
    exact hb hnil.1

private theorem not_equals {name : Bytes} (h : equals ∉ name) : ∀ b ∈ name, (b == equals) = false := by
  intro b hb
  rw [beq_eq_false_iff_ne]
  rintro rfl
  exact h hb

private theorem long_attached (p : Progress) (s : Setting) (v : Bytes) :
    long p (encode s.longName ++ equals :: v) = begin p s (some v) := by
  obtain ⟨-, -, hname, hof⟩ := encode_longName s
  unfold long
  rw [cutAt_append_cons (not_equals hname) (by simp)]
  dsimp only
  rw [hof]

private theorem long_detached (p : Progress) (s : Setting) : long p (encode s.longName) = begin p s none := by
  obtain ⟨-, -, hname, hof⟩ := encode_longName s
  unfold long
  rw [cutAt_of_none (not_equals hname)]
  dsimp only
  rw [hof]

private theorem long_flag (p : Progress) {name : Bytes} {f : Flag} (hname : equals ∉ name)
    (hof : Switch.ofLongName? name = some (.flag f)) : long p name = raise p f := by
  unfold long
  rw [cutAt_of_none (not_equals hname)]
  dsimp only
  rw [hof]

private theorem readsAs_long_flag (name : Bytes) (f : Flag) (hm : ∀ p, apply p m = raise p f) (hnil : name ≠ [])
    (hname : equals ∉ name) (hof : Switch.ofLongName? name = some (.flag f)) :
    ReadsAs [dash :: dash :: name] m := by
  refine readsAs_flag hm fun p hp => ?_
  rw [next_long hp hnil, long_flag p hname hof]

private theorem short_attached (p : Progress) {b e : UInt8} (h : Switch.ofShortName? b = some (.setting s))
    (rest : Bytes) : short p (b :: e :: rest) = begin p s (some (if e = equals then rest else e :: rest)) := by
  rw [short, h]

private theorem short_detached (p : Progress) {b : UInt8} (h : Switch.ofShortName? b = some (.setting s)) :
    short p [b] = begin p s none := by
  rw [short, h]

/-- The arguments of a spelling are read as the mention, and none of them ends the options. -/
private theorem Spells.reads (h : Spells m ts) (hm : m.IsDistinct) :
    ReadsAs (ts.map rewritten) m ∧ ∀ t ∈ ts, t ≠ encode "--" := by
  cases h with
  | @long s v hv =>
    obtain ⟨hname, hnil, -, -⟩ := encode_longName s
    obtain ⟨hcb, hend⟩ := ne_of_two_dashes hnil
    obtain ⟨hvcb, hvend⟩ := ne_of_standsAlone hv
    rw [hname, List.map_cons, List.map_singleton, rewritten_of_ne hcb, rewritten_of_ne hvcb]
    refine ⟨readsAs_detached hv fun p hp => ?_, by simp [hend, hvend]⟩
    rw [next_long hp hnil, long_detached]
  | longAttached s v =>
    obtain ⟨hname, -, -, -⟩ := encode_longName s
    have hequals : encode "=" = [equals] := by decide
    have harg : encode ("--" ++ s.longName ++ "=") ++ v = dash :: dash :: (encode s.longName ++ equals :: v) := by
      rw [encode_append, hname, hequals]
      simp
    have hnil : encode s.longName ++ equals :: v ≠ [] := by simp
    obtain ⟨hcb, hend⟩ := ne_of_two_dashes hnil
    rw [harg, List.map_singleton, rewritten_of_ne hcb]
    refine ⟨readsAs_attached fun p hp => ?_, by simp [hend]⟩
    rw [next_long hp hnil, long_attached]
  | @short s c v hc hv =>
    obtain ⟨b, hletter, hb, hof⟩ := encode_letter hc
    have hdash : encode "-" = [dash] := by decide
    have harg : encode ("-" ++ String.singleton c) = [dash, b] := by rw [encode_append, hletter, hdash]; rfl
    obtain ⟨hcb, hend⟩ : [dash, b] ≠ encode "-cb" ∧ [dash, b] ≠ encode "--" := ne_of_letter hof hb fun _ => by decide
    obtain ⟨hvcb, hvend⟩ := ne_of_standsAlone hv
    rw [harg, List.map_cons, List.map_singleton, rewritten_of_ne hcb, rewritten_of_ne hvcb]
    refine ⟨readsAs_detached hv fun p hp => ?_, by simp [hend, hvend]⟩
    rw [next_short hp hb, short_detached p hof]
  | @shortEquals s c v hc =>
    obtain ⟨b, hletter, hb, hof⟩ := encode_letter hc
    have hdash : encode "-" = [dash] := by decide
    have hequals : encode "=" = [equals] := by decide
    have harg : encode ("-" ++ String.singleton c ++ "=") ++ v = dash :: b :: equals :: v := by
      rw [encode_append, encode_append, hletter, hdash, hequals]; rfl
    have hne : equals :: v ≠ encode "b" := by
      have hletter : encode "b" = [0x62] := by decide
      rw [hletter]
      simp [equals]
    obtain ⟨hcb, hend⟩ := ne_of_letter hof hb (fun _ => hne)
    rw [harg, List.map_singleton, rewritten_of_ne hcb]
    refine ⟨readsAs_attached fun p hp => ?_, by simp [hend]⟩
    rw [next_short hp hb, short_attached p hof, if_pos rfl]
  | @shortAttached s c v hc hne hv =>
    obtain ⟨b, hletter, hb, hof⟩ := encode_letter hc
    have hdash : encode "-" = [dash] := by decide
    have harg : encode ("-" ++ String.singleton c) ++ v = dash :: b :: v := by
      rw [encode_append, hletter, hdash]; rfl
    have hcomponent : s = .component → v ≠ encode "b" := by
      rintro rfl rfl
      exact hm rfl
    obtain ⟨hcb, hend⟩ := ne_of_letter hof hb hcomponent
    rw [harg, List.map_singleton, rewritten_of_ne hcb]
    refine ⟨readsAs_attached fun p hp => ?_, by simp [hend]⟩
    obtain ⟨e, rest, rfl⟩ := List.exists_cons_of_ne_nil hne
    have he : e ≠ equals := by simpa using hv
    rw [next_short hp hb, short_attached p hof, if_neg he]
  | dry =>
    refine ⟨?_, by decide⟩
    exact readsAs_long_flag (encode "dry") .dry (fun _ => rfl) (by decide) (by decide) (by decide)
  | cleanBuild =>
    refine ⟨?_, by decide⟩
    exact readsAs_long_flag (encode "clean-build") .cleanBuild (fun _ => rfl) (by decide) (by decide) (by decide)
  | legacy =>
    refine ⟨?_, by decide⟩
    exact readsAs_long_flag (encode "clean-build") .cleanBuild (fun _ => rfl) (by decide) (by decide) (by decide)

/-! Only an argument `--` ends the options. -/

private theorem begin_ok {attached : Option Bytes} (h : begin p s attached = .ok q) :
    q.onlyValues = p.onlyValues := by
  obtain ⟨p', hp', h⟩ := Config.bind_eq_ok h
  obtain ⟨-, honly⟩ := settle_ok hp'
  split at h
  · exact (check_ok h).2.trans honly
  · exact Except.ok.inj h ▸ honly

private theorem long_ok {body : Bytes} (h : long p body = .ok q) : q.onlyValues = p.onlyValues := by
  unfold long at h
  dsimp only at h
  split at h
  · exact begin_ok h
  · split at h
    · cases h
    · exact (raise_ok h).2
  · cases h

private theorem short_ok {body : Bytes} (h : short p body = .ok q) : q.onlyValues = p.onlyValues := by
  induction body generalizing p with
  | nil => exact Except.ok.inj h ▸ rfl
  | cons b rest ih =>
    unfold short at h
    split at h
    · obtain ⟨p', hp', h⟩ := Config.bind_eq_ok h
      exact (ih h).trans (raise_ok hp').2
    · split at h
      · exact begin_ok h
      · exact begin_ok h
    · cases h

private theorem value_ok {arg : Bytes} (h : value p arg = .ok q) : q.onlyValues = p.onlyValues := by
  unfold value at h
  split at h
  · exact Except.ok.inj h ▸ rfl
  · cases h

private theorem next_ok {arg : Bytes} (h : next p arg = .ok q) (harg : arg ≠ encode "--") :
    q.onlyValues = p.onlyValues := by
  have hend : encode "--" = [dash, dash] := by decide
  rw [hend] at harg
  unfold next at h
  split at h
  · cases h
  · split at h
    · rename_i a b rest
      split at h
      · rename_i hdash
        obtain ⟨rfl, rfl⟩ := hdash
        have hrest : rest.isEmpty = false := by
          cases rest with
          | nil => exact absurd rfl harg
          | cons => rfl
        rw [hrest] at h
        exact long_ok h
      · split at h
        · exact short_ok h
        · exact value_ok h
    · exact value_ok h

private theorem foldlM_next_ok (h : ts.foldlM next p = .ok q) (hts : ∀ t ∈ ts, t ≠ encode "--") :
    q.onlyValues = p.onlyValues := by
  induction ts generalizing p with
  | nil => exact Except.ok.inj h ▸ rfl
  | cons t ts ih =>
    obtain ⟨p', hp', h⟩ := Config.bind_eq_ok h
    exact (ih h fun t ht => hts t (List.mem_cons_of_mem _ ht)).trans (next_ok hp' (hts t (by simp)))

private theorem rewritten_ne (h : v ≠ encode "--") : rewritten v ≠ encode "--" := by
  unfold rewritten
  split
  · decide
  · exact h

/-- Spelled mentions are read as the mentions, one after another. -/
theorem foldlM_next_of_distinct (h : List.Forall₂ Spells ms args) (hm : ∀ m ∈ ms, m.IsDistinct)
    (hp : p.onlyValues = false) :
    ((args.flatten.map rewritten).foldlM next p >>= settle) = settle p >>= fun p => ms.foldlM apply p := by
  induction h generalizing p with
  | nil =>
    show settle p = settle p >>= pure
    cases settle p <;> rfl
  | @cons m ts ms args hts _ ih =>
    obtain ⟨hreads, hend⟩ := hts.reads (hm m (by simp))
    rw [List.flatten_cons, List.map_append, List.foldlM_append]
    -- the first mention is read, and the rest from what it leaves
    have hfirst : (settle p >>= fun p => (m :: ms).foldlM apply p) =
        ((ts.map rewritten).foldlM next p >>= settle) >>= fun p => ms.foldlM apply p := by
      rw [hreads p hp]
      cases settle p <;> rfl
    rw [hfirst]
    cases hq : (ts.map rewritten).foldlM next p with
    | error => rfl
    | ok q =>
      have hends : ∀ t ∈ ts.map rewritten, t ≠ encode "--" := by
        intro arg harg
        obtain ⟨t, ht, rfl⟩ := List.mem_map.1 harg
        exact rewritten_ne (hend t ht)
      exact ih (fun m hms => hm m (List.mem_cons_of_mem _ hms)) ((foldlM_next_ok hq hends).trans hp)

theorem foldlM_next (h : List.Forall₂ Spells ms args) (hm : ∀ m ∈ ms, m.Fits) (hp : p.onlyValues = false) :
    ((args.flatten.map rewritten).foldlM next p >>= settle) = settle p >>= fun p => ms.foldlM apply p :=
  foldlM_next_of_distinct h (fun m hms => (hm m hms).isDistinct) hp

/-! ### Applying mentions -/

/-- The values of an option among some mentions. -/
def values (s : Setting) (ms : List Mention) : List Bytes :=
  ms.filterMap fun
    | .option s' v => if s' = s then some v else none
    | .dry | .cleanBuild => none

/-- The values that an option has been given. -/
def given (o : Options) (c : Option Component) : Setting → List Bytes
  | .component => c.toList.map fun c => encode c.name
  | .projectRoot => o.projectRoot.toList.map Path.bytes
  | .config => o.configs.map Path.bytes
  | .logLevel => o.logLevel.toList.map fun n => encode (toString n)
  | .fileLogLevel => o.fileLogLevel.toList.map fun n => encode (toString n)
  | .logFile => o.logFile.toList.map Path.bytes
  | .set => o.settings.map encode

/-- What has been read is what some mentions say. -/
structure Says (ms : List Mention) (p : Progress) : Prop where
  options : ∀ s, values s ms = given p.options p.component s
  dry : .dry ∈ ms ↔ p.options.dry = true
  cleanBuild : .cleanBuild ∈ ms ↔ p.cleanBuild = true
  settled : p.pending = none

/-- Whether an option may be given more than once. -/
def repeats : Setting → Bool
  | .config | .set => true
  | .component | .projectRoot | .logLevel | .fileLogLevel | .logFile => false

private theorem toList_eq_nil {α : Type} {x : Option α} : x.toList = [] ↔ x = none := by
  cases x <;> simp

private theorem has_eq_false (h : repeats s = false → given p.options p.component s = []) : p.has s = false := by
  cases s with
  | config | set => rfl
  | component | projectRoot | logLevel | fileLogLevel | logFile =>
    have hnil := h rfl
    simp only [given, List.map_eq_nil_iff, toList_eq_nil] at hnil
    simp [Progress.has, hnil]

private theorem readLevel_eq {n : Nat} (s : Setting) (h : n ≤ 5) : readLevel s (encode (toString n)) = .ok n := by
  have hread : ∀ n ≤ 5, readInt? (toString n) = some (.ofNat n) := by decide
  unfold readLevel
  rw [decode?_encode]
  dsimp only
  rw [hread n h]
  exact if_pos h

private theorem readPath_eq (s : Setting) (h : v ≠ []) : readPath s v = .ok ⟨v⟩ := by
  unfold readPath
  rw [List.isEmpty_eq_false_iff.2 h]
  rfl

/-- An option that is given a value has one value more, and all else is as before. -/
private theorem assign_fits (hv : Fits s v) (hfree : repeats s = false → given p.options p.component s = []) :
    ∃ q, assign p s v = .ok q ∧ (∀ s', given q.options q.component s' =
        given p.options p.component s' ++ if s = s' then [v] else []) ∧
      q.options.dry = p.options.dry ∧ q.cleanBuild = p.cleanBuild ∧ q.pending = p.pending := by
  cases s with
  | component =>
    obtain ⟨c, rfl⟩ := hv
    have hname : Component.ofName? c.name = some c := by cases c <;> rfl
    have hnone : p.component = none := by simpa [given, toList_eq_nil] using hfree rfl
    refine ⟨{ p with component := some c }, ?_, fun s' => ?_, rfl, rfl, rfl⟩
    · simp only [assign, decodeLossy_encode, hname]
    · cases s' <;> simp [given, hnone]
  | projectRoot =>
    have hnone : p.options.projectRoot = none := by simpa [given, toList_eq_nil] using hfree rfl
    refine ⟨{ p with options := { p.options with projectRoot := some ⟨v⟩ } }, ?_, fun s' => ?_, rfl, rfl, rfl⟩
    · simp only [assign, readPath_eq _ hv]
      rfl
    · cases s' <;> simp [given, hnone]
  | config =>
    refine ⟨{ p with options := { p.options with configs := p.options.configs ++ [⟨v⟩] } }, ?_, fun s' => ?_,
      rfl, rfl, rfl⟩
    · simp only [assign, readPath_eq _ hv]
      rfl
    · cases s' <;> simp [given]
  | logLevel =>
    obtain ⟨n, hn, rfl⟩ := hv
    have hnone : p.options.logLevel = none := by simpa [given, toList_eq_nil] using hfree rfl
    refine ⟨{ p with options := { p.options with logLevel := some n } }, ?_, fun s' => ?_, rfl, rfl, rfl⟩
    · simp only [assign, readLevel_eq _ hn]
      rfl
    · cases s' <;> simp [given, hnone]
  | fileLogLevel =>
    obtain ⟨n, hn, rfl⟩ := hv
    have hnone : p.options.fileLogLevel = none := by simpa [given, toList_eq_nil] using hfree rfl
    refine ⟨{ p with options := { p.options with fileLogLevel := some n } }, ?_, fun s' => ?_, rfl, rfl, rfl⟩
    · simp only [assign, readLevel_eq _ hn]
      rfl
    · cases s' <;> simp [given, hnone]
  | logFile =>
    have hnone : p.options.logFile = none := by simpa [given, toList_eq_nil] using hfree rfl
    refine ⟨{ p with options := { p.options with logFile := some ⟨v⟩ } }, ?_, fun s' => ?_, rfl, rfl, rfl⟩
    · simp only [assign, readPath_eq _ hv]
      rfl
    · cases s' <;> simp [given, hnone]
  | set =>
    obtain ⟨t, rfl⟩ := hv
    refine ⟨{ p with options := { p.options with settings := p.options.settings ++ [t] } }, ?_, fun s' => ?_,
      rfl, rfl, rfl⟩
    · simp only [assign, decode?_encode]
    · cases s' <;> simp [given]

theorem values_append (s : Setting) (ms ms' : List Mention) : values s (ms ++ ms') = values s ms ++ values s ms' :=
  List.filterMap_append

/-- Nothing is mentioned twice that may not be. -/
structure Once (ms : List Mention) : Prop where
  options : ∀ s, repeats s = false → (values s ms).length ≤ 1
  dry : ms.count .dry ≤ 1
  cleanBuild : ms.count .cleanBuild ≤ 1

private theorem Once.left {ms ms' : List Mention} (h : Once (ms ++ ms')) : Once ms where
  options s hs := by
    have := h.options s hs
    rw [values_append, List.length_append] at this
    omega
  dry := by
    have := h.dry
    rw [List.count_append] at this
    omega
  cleanBuild := by
    have := h.cleanBuild
    rw [List.count_append] at this
    omega

private theorem not_mem_of_count {a : Mention} (h : (ms ++ [a]).count a ≤ 1) : a ∉ ms := by
  rw [List.count_append, List.count_singleton_self] at h
  exact List.count_eq_zero.1 (by omega)

/-- One more mention. -/
private theorem Says.step (h : Says ms p) (hm : m.Fits) (honce : Once (ms ++ [m])) :
    ∃ q, apply p m = .ok q ∧ Says (ms ++ [m]) q := by
  cases m with
  | option s v =>
    have hsingle : ∀ s', values s' [.option s v] = if s = s' then [v] else [] := by
      intro s'
      by_cases hs : s = s' <;> simp [values, hs]
    have hfree : repeats s = false → given p.options p.component s = [] := by
      intro hs
      have hlength := honce.options s hs
      rw [values_append, hsingle, if_pos rfl, List.length_append] at hlength
      rw [← h.options]
      exact List.length_eq_zero_iff.1 (by simpa using hlength)
    obtain ⟨q, hq, hvalues, hdry, hclean, hpending⟩ := assign_fits hm hfree
    refine ⟨q, ?_, fun s' => ?_, ?_, ?_, hpending.trans h.settled⟩
    · show check p s (some v) = .ok q
      unfold check
      rw [has_eq_false hfree]
      exact hq
    · rw [values_append, hsingle, h.options, hvalues]
    · simp [hdry, h.dry]
    · simp [hclean, h.cleanBuild]
  | dry =>
    have hnone : p.options.dry = false := by
      simpa using mt h.dry.2 (not_mem_of_count honce.dry)
    refine ⟨{ p with options := { p.options with dry := true } }, ?_, fun s => ?_, ?_, ?_, h.settled⟩
    · simp [apply, raise, settle_of_none h.settled, hnone, bind, Except.bind]
    · rw [values_append, h.options]
      cases s <;> simp [values, given]
    · simp
    · simp [h.cleanBuild]
  | cleanBuild =>
    have hnone : p.cleanBuild = false := by
      simpa using mt h.cleanBuild.2 (not_mem_of_count honce.cleanBuild)
    refine ⟨{ p with cleanBuild := true }, ?_, fun s => ?_, ?_, ?_, h.settled⟩
    · simp [apply, raise, settle_of_none h.settled, hnone, bind, Except.bind]
    · rw [values_append, h.options]
      cases s <;> simp [values, given]
    · simp [h.dry]
    · simp

/-- Mentions without a forbidden repetition are applied without an error. -/
theorem Says.run {rest : List Mention} (h : Says ms p) (hm : ∀ m ∈ rest, m.Fits) (honce : Once (ms ++ rest)) :
    ∃ q, rest.foldlM apply p = .ok q ∧ Says (ms ++ rest) q := by
  induction rest generalizing ms p with
  | nil => exact ⟨p, rfl, by simpa using h⟩
  | cons m rest ih =>
    rw [List.append_cons] at honce ⊢
    obtain ⟨q, hq, hgiven⟩ := h.step (hm m (by simp)) honce.left
    obtain ⟨q', hq', hgiven'⟩ := ih hgiven (fun m hms => hm m (List.mem_cons_of_mem _ hms)) honce
    refine ⟨q', ?_, hgiven'⟩
    rw [List.foldlM_cons, hq]
    exact hq'

/-! ### All mentions of some options -/

/-- What a command line for some options mentions. -/
def mentions (o : Options) (r : Request) : List Mention :=
  Setting.all.flatMap (fun s => (given o (some r.component) s).map (.option s))
    ++ (if o.dry then [.dry] else []) ++ (if r.cleanBuild then [.cleanBuild] else [])

/-- Options that a command line can give: no path is empty, and levels are those there are. -/
structure Writable (o : Options) : Prop where
  projectRoot : ∀ p, o.projectRoot = some p → p.isEmpty = false
  configs : ∀ p ∈ o.configs, p.isEmpty = false
  logFile : ∀ p, o.logFile = some p → p.isEmpty = false
  logLevel : ∀ n, o.logLevel = some n → n ≤ 5
  fileLogLevel : ∀ n, o.fileLogLevel = some n → n ≤ 5

private theorem values_map (s s' : Setting) (vs : List Bytes) :
    values s (vs.map (.option s')) = if s' = s then vs else [] := by
  induction vs with
  | nil => simp [values]
  | cons v vs ih =>
    have hcons : values s (.option s' v :: vs.map (.option s')) =
        (if s' = s then [v] else []) ++ values s (vs.map (.option s')) := by
      by_cases hs : s' = s <;> simp [values, hs]
    rw [List.map_cons, hcons, ih]
    by_cases hs : s' = s <;> simp [hs]

private theorem values_mentions (o : Options) (r : Request) (s : Setting) :
    values s (mentions o r) = given o (some r.component) s := by
  have hflags : values s (if o.dry then [.dry] else []) = [] ∧
      values s (if r.cleanBuild then [.cleanBuild] else []) = [] := by
    constructor <;> split <;> rfl
  unfold mentions
  rw [values_append, values_append, hflags.1, hflags.2]
  cases s <;> simp [Setting.all, values_append, values_map]

private theorem mem_given (ho : Writable o) (hv : v ∈ given o (some r.component) s) : Fits s v := by
  have hpath {p : Path} (hp : p.isEmpty = false) : p.bytes ≠ [] := List.isEmpty_eq_false_iff.1 hp
  cases s with
  | component => exact ⟨r.component, by simpa [given] using hv⟩
  | projectRoot =>
    obtain ⟨p, hp, rfl⟩ := List.mem_map.1 hv
    exact hpath (ho.projectRoot p (Option.mem_toList.1 hp))
  | config =>
    obtain ⟨p, hp, rfl⟩ := List.mem_map.1 hv
    exact hpath (ho.configs p hp)
  | logLevel =>
    obtain ⟨n, hn, rfl⟩ := List.mem_map.1 hv
    exact ⟨n, ho.logLevel n (Option.mem_toList.1 hn), rfl⟩
  | fileLogLevel =>
    obtain ⟨n, hn, rfl⟩ := List.mem_map.1 hv
    exact ⟨n, ho.fileLogLevel n (Option.mem_toList.1 hn), rfl⟩
  | logFile =>
    obtain ⟨p, hp, rfl⟩ := List.mem_map.1 hv
    exact hpath (ho.logFile p (Option.mem_toList.1 hp))
  | set =>
    obtain ⟨t, -, rfl⟩ := List.mem_map.1 hv
    exact ⟨t, rfl⟩

private theorem fits_of_mem (ho : Writable o) (hm : m ∈ mentions o r) : m.Fits := by
  unfold mentions at hm
  rw [List.mem_append, List.mem_append] at hm
  rcases hm with (hm | hm) | hm
  · obtain ⟨s, -, hm⟩ := List.mem_flatMap.1 hm
    obtain ⟨v, hv, rfl⟩ := List.mem_map.1 hm
    exact mem_given ho hv
  · split at hm
    · exact List.mem_singleton.1 hm ▸ trivial
    · cases hm
  · split at hm
    · exact List.mem_singleton.1 hm ▸ trivial
    · cases hm

private theorem count_flags (o : Options) (r : Request) :
    (mentions o r).count .dry = o.dry.toNat ∧ (mentions o r).count .cleanBuild = r.cleanBuild.toNat := by
  have hnone : ∀ m : Mention, (∀ s v, m ≠ .option s v) →
      (Setting.all.flatMap fun s => (given o (some r.component) s).map (Mention.option s)).count m = 0 := by
    intro m hm
    refine List.count_eq_zero.2 fun hmem => ?_
    obtain ⟨s, -, hmem⟩ := List.mem_flatMap.1 hmem
    obtain ⟨v, -, rfl⟩ := List.mem_map.1 hmem
    exact hm s v rfl
  unfold mentions
  simp only [List.count_append]
  rw [hnone .dry (by simp), hnone .cleanBuild (by simp)]
  cases o.dry <;> cases r.cleanBuild <;> decide

private theorem length_given (o : Options) (c : Option Component) (hs : repeats s = false) :
    (given o c s).length ≤ 1 := by
  have hlength {α : Type} (x : Option α) : x.toList.length ≤ 1 := by cases x <;> simp
  cases s with
  | config | set => cases hs
  | component | projectRoot | logLevel | fileLogLevel | logFile =>
    rw [given, List.length_map]
    exact hlength _

private theorem map_toList_inj {α : Type} {f : α → Bytes} (hf : Function.Injective f) {x y : Option α}
    (h : x.toList.map f = y.toList.map f) : x = y := by
  have := List.map_injective_iff.2 hf h
  cases x <;> cases y <;> simp_all

/-- The values of the options tell what has been given. -/
private theorem given_injective {o o' : Options} {c c' : Option Component} (h : ∀ s, given o c s = given o' c' s)
    (hdry : o.dry = o'.dry) : o = o' ∧ c = c' := by
  have hname : Function.Injective fun c : Component => encode c.name := by
    intro c c' hc
    revert hc
    cases c <;> cases c' <;> decide
  have hpath : Function.Injective Path.bytes := fun _ _ hp => congrArg Path.mk hp
  have hlevel : Function.Injective fun n : Nat => encode (toString n) := by
    intro n n' hn
    have hread := readNat?_toString n
    rw [encode_injective hn, readNat?_toString] at hread
    exact (Option.some.inj hread).symm
  have hencode : Function.Injective encode := fun _ _ hs => encode_injective hs
  have hprojectRoot := map_toList_inj hpath (h .projectRoot)
  have hconfigs := List.map_injective_iff.2 hpath (h .config)
  have hlogLevel := map_toList_inj hlevel (h .logLevel)
  have hfileLogLevel := map_toList_inj hlevel (h .fileLogLevel)
  have hlogFile := map_toList_inj hpath (h .logFile)
  have hsettings := List.map_injective_iff.2 hencode (h .set)
  refine ⟨?_, map_toList_inj hname (h .component)⟩
  cases o
  cases o'
  simp_all

/-- No spelling ends the options. -/
theorem ne_of_distinct (h : List.Forall₂ Spells ms args) (hm : ∀ m ∈ ms, m.IsDistinct) :
    ∀ t ∈ args.flatten, t ≠ encode "--" := by
  induction h with
  | nil => simp
  | @cons m ts ms args hts _ ih =>
    intro t ht
    rw [List.flatten_cons, List.mem_append] at ht
    rcases ht with ht | ht
    · exact (hts.reads (hm m (by simp))).2 t ht
    · exact ih (fun m hms => hm m (List.mem_cons_of_mem _ hms)) t ht

private theorem ne_of_spells (h : List.Forall₂ Spells ms args) (hm : ∀ m ∈ ms, m.Fits) :
    ∀ t ∈ args.flatten, t ≠ encode "--" := ne_of_distinct h fun m hms => (hm m hms).isDistinct

/-- Whether a flag is mentioned tells whether it is raised. -/
private theorem eq_of_count {b b' : Bool} (hcount : ms.count m = b.toNat) (h : m ∈ ms ↔ b' = true) : b' = b := by
  rw [← List.count_pos_iff, hcount] at h
  cases b <;> cases b' <;> simp_all

/-- Values in another order are the same values if there is one at most. -/
private theorem eq_of_perm {vs ws : List Bytes} (h : vs.Perm ws) (hlength : ws.length ≤ 1) : vs = ws := by
  match ws with
  | [] => exact h.eq_nil
  | [w] => exact h.eq_singleton

/-- What is read to the end and names a component is an outcome. -/
private theorem parse_of_settled {args : List Bytes} {c : Component}
    (h : ((normalize args).tail.foldlM next {} >>= settle) = .ok q) (hc : q.component = some c) :
    parse args = .ok (q.options, ⟨c, q.cleanBuild⟩) := by
  obtain ⟨read, hread, hsettle⟩ := Config.bind_eq_ok h
  unfold parse
  rw [hread]
  show finish read = _
  unfold finish
  rw [hsettle]
  simp only [bind, Except.bind, hc]

/-- The mentions of some options, in any order that keeps that of the files and of the overrides and in any spelling,
are read as these options. -/
theorem parse_spelled (program : Bytes) (o : Options) (r : Request) (ms : List Mention) (args : List (List Bytes))
    (hprogram : program ≠ encode "--") (ho : Writable o) (hperm : ms.Perm (mentions o r))
    (hconfigs : values .config ms = o.configs.map Path.bytes) (hsettings : values .set ms = o.settings.map encode)
    (hargs : List.Forall₂ Spells ms args) : parse (program :: args.flatten) = .ok (o, r) := by
  have hfits : ∀ m ∈ ms, m.Fits := fun m hm => fits_of_mem ho (hperm.mem_iff.1 hm)
  obtain ⟨hdry, hclean⟩ := count_flags o r
  -- an option that does not repeat has one value at most, so that its place does not matter
  have hvalues : ∀ s, values s ms = given o (some r.component) s := by
    intro s
    have hs : (values s ms).Perm (given o (some r.component) s) := values_mentions o r s ▸ hperm.filterMap _
    cases s with
    | config => exact hconfigs
    | set => exact hsettings
    | component | projectRoot | logLevel | fileLogLevel | logFile => exact eq_of_perm hs (length_given o _ rfl)
  have honce : Once ms := by
    refine ⟨fun s hs => ?_, ?_, ?_⟩
    · rw [hvalues]
      exact length_given o _ hs
    · rw [hperm.count_eq, hdry]
      exact Bool.toNat_le _
    · rw [hperm.count_eq, hclean]
      exact Bool.toNat_le _
  have hempty : Says [] {} := ⟨fun s => by cases s <;> rfl, by simp, by simp, rfl⟩
  obtain ⟨q, hq, hgiven⟩ := hempty.run hfits honce
  have hread : ((args.flatten.map rewritten).foldlM next {} >>= settle) = .ok q :=
    (foldlM_next hargs hfits rfl).trans hq
  -- what has been read is what the mentions say, and so the options they are of
  obtain ⟨hoptions, hcomponent⟩ : q.options = o ∧ q.component = some r.component := by
    refine given_injective (fun s => (hgiven.options s).symm.trans (hvalues s)) ?_
    exact eq_of_count (hperm.count_eq _ ▸ hdry) hgiven.dry
  have hcleanBuild : q.cleanBuild = r.cleanBuild := eq_of_count (hperm.count_eq _ ▸ hclean) hgiven.cleanBuild
  have hnormal : (normalize (program :: args.flatten)).tail = args.flatten.map rewritten := by
    rw [normalize, if_neg hprogram, normalize_eq_map (ne_of_spells hargs hfits)]
    rfl
  rw [← hnormal] at hread
  rw [parse_of_settled hread hcomponent, hoptions, hcleanBuild]

/-- Options with values that look like options themselves. -/
def trickyOptions : Options where
  projectRoot := some (.ofText "=dir")
  configs := [.ofText "-", .ofText "--dry"]
  dry := true
  logLevel := some 4
  settings := ["-cb", "", "a=b"]

/-- The mentions of these in a mixed order. -/
def trickyMentions : List Mention := [.option .set (encode "-cb"), .option .config (encode "-"), .cleanBuild,
  .option .projectRoot (encode "=dir"), .option .set (encode ""), .option .component (encode "lib"), .dry,
  .option .config (encode "--dry"), .option .logLevel (encode "4"), .option .set (encode "a=b")]

/-- A spelling of each. -/
def trickySpelling : List (List Bytes) := [[encode "-s=-cb"], [encode "--config", encode "-"], [encode "-cb"],
  [encode "-p==dir"], [encode "--set", encode ""], [encode "-clib"], [encode "--dry"], [encode "--config=--dry"],
  [encode "-l", encode "4"], [encode "-sa=b"]]

theorem parse_spelled_tricky : Writable trickyOptions ∧ trickyMentions.Perm (mentions trickyOptions ⟨.lib, true⟩) ∧
    List.Forall₂ Spells trickyMentions trickySpelling ∧
    parse (encode "scp-build" :: trickySpelling.flatten) = .ok (trickyOptions, ⟨.lib, true⟩) := by
  have hwritable : Writable trickyOptions := by
    refine ⟨fun p hp => ?_, by decide, fun p hp => ?_, fun n hn => ?_, fun n hn => ?_⟩
    · obtain rfl := Option.some.inj hp
      decide
    · cases hp
    · obtain rfl := Option.some.inj hn
      decide
    · cases hn
  have hperm : trickyMentions.Perm (mentions trickyOptions ⟨.lib, true⟩) := by decide +kernel
  have hspells : List.Forall₂ Spells trickyMentions trickySpelling := by
    have hs : Setting.letter? .set = some 's' := rfl
    have hp : Setting.letter? .projectRoot = some 'p' := rfl
    have hc : Setting.letter? .component = some 'c' := rfl
    have hl : Setting.letter? .logLevel = some 'l' := rfl
    exact .cons (.shortEquals (encode "-cb") hs) <| .cons (.long .config (by decide)) <| .cons .legacy <|
      .cons (.shortEquals (encode "=dir") hp) <| .cons (.long .set (by decide)) <|
      .cons (.shortAttached hc (by decide) (by decide)) <| .cons .dry <|
      .cons (.longAttached .config (encode "--dry")) <| .cons (.short hl (by decide)) <|
      .cons (.shortAttached hs (by decide) (by decide)) .nil
  refine ⟨hwritable, hperm, hspells, ?_⟩
  exact parse_spelled _ _ _ _ _ (by decide) hwritable hperm (by decide) (by decide) hspells

end Arguments

end GradleBuild
