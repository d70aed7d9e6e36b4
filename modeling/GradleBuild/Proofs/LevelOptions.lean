import GradleBuild.Log.Level
import GradleBuild.Proofs.Decimals
import GradleBuild.Proofs.Spellings

/-!
# The options for log levels

The console and the log file have an option each for their level.  One more mention of such an option, among others
that do not mention it, changes nothing that is read from these; it adds its level, or is refused if its value is none.

* `foldlM_give`: whatever the level of a channel is, the other options are read alike.
* `parse_level`: what a command line with one more mention of a level is read as.
-/

namespace GradleBuild

/-- Where a log goes.  Each channel has a level. -/
inductive Log.Channel where
  | console
  | file
  deriving DecidableEq

namespace Log.Channel

/-- The option for the level of a channel. -/
def option : Channel → Setting
  | console => .logLevel
  | file => .fileLogLevel

/-- The level that options give to a channel. -/
def level (ch : Channel) (o : Options) : Option Nat :=
  match ch with
  | console => o.logLevel
  | file => o.fileLogLevel

/-- Options with another level for a channel. -/
def give (ch : Channel) (level : Option Nat) (o : Options) : Options :=
  match ch with
  | console => { o with logLevel := level }
  | file => { o with fileLogLevel := level }

variable {ch : Channel} {x : Option Nat} {o : Options}

@[simp] theorem level_give : ch.level (ch.give x o) = x := by cases ch <;> rfl

@[simp] theorem give_level : ch.give (ch.level o) o = o := by cases ch <;> rfl

end Log.Channel

namespace Arguments

variable {ch : Log.Channel} {x : Option Nat} {n : Int} {p q : Progress} {s : Setting} {m : Mention}
  {ms ms' : List Mention} {args args' : List (List Bytes)} {ts : List Bytes} {o : Options} {r : Request}

/-! ### Mentions of other options -/

/-- What has been read, with another level for a channel. -/
def Progress.give (ch : Log.Channel) (x : Option Nat) (p : Progress) : Progress :=
  { p with options := ch.give x p.options }

/-- Whether a mention is not of the option for the level of a channel. -/
def Mention.Spares (ch : Log.Channel) (m : Mention) : Prop := ∀ v, m ≠ .option ch.option v

private theorem has_option (p : Progress) (ch : Log.Channel) : p.has ch.option = (ch.level p.options).isSome := by
  cases ch <;> rfl

private theorem has_give (hs : s ≠ ch.option) : (p.give ch x).has s = p.has s := by
  cases ch <;> cases s <;> first | rfl | exact absurd rfl hs

private theorem assign_give (hs : s ≠ ch.option) (v : Bytes) :
    assign (p.give ch x) s v = (assign p s v).map (·.give ch x) := by
  cases s with
  | component =>
    unfold assign
    dsimp only
    cases Component.ofName? (decodeLossy v) <;> rfl
  | set =>
    unfold assign
    dsimp only
    cases decode? v <;> cases ch <;> rfl
  | projectRoot | config | logFile =>
    unfold assign
    dsimp only
    generalize readPath _ v = path
    cases path <;> cases ch <;> rfl
  | logLevel =>
    cases ch with
    | console => exact absurd rfl hs
    | file =>
      unfold assign
      dsimp only
      cases readLevel .logLevel v <;> rfl
  | fileLogLevel =>
    cases ch with
    | console =>
      unfold assign
      dsimp only
      cases readLevel .fileLogLevel v <;> rfl
    | file => exact absurd rfl hs

private theorem apply_give (hp : p.pending = none) (hm : m.Spares ch) :
    apply (p.give ch x) m = (apply p m).map (·.give ch x) := by
  have hsettle : settle (p.give ch x) = .ok (p.give ch x) := settle_of_none hp
  cases m with
  | option s v =>
    have hs : s ≠ ch.option := by
      rintro rfl
      exact hm v rfl
    show check (p.give ch x) s (some v) = (check p s (some v)).map (·.give ch x)
    unfold check
    rw [has_give hs]
    split
    · rfl
    · exact assign_give hs v
  | dry =>
    show raise (p.give ch x) .dry = (raise p .dry).map (·.give ch x)
    unfold raise
    rw [hsettle, settle_of_none hp]
    cases ch <;> cases hdry : p.options.dry <;>
      simp [Progress.give, Log.Channel.give, hdry, bind, Except.bind, Except.map]
  | cleanBuild =>
    show raise (p.give ch x) .cleanBuild = (raise p .cleanBuild).map (·.give ch x)
    unfold raise
    rw [hsettle, settle_of_none hp]
    cases hclean : p.cleanBuild <;> simp [Progress.give, hclean, bind, Except.bind, Except.map]

private theorem pending_apply (hp : p.pending = none) (h : apply p m = .ok q) : q.pending = none := by
  cases m with
  | option s v =>
    change check p s (some v) = .ok q at h
    exact (check_ok h).1.trans hp
  | dry =>
    change raise p .dry = .ok q at h
    exact (raise_ok h).1
  | cleanBuild =>
    change raise p .cleanBuild = .ok q at h
    exact (raise_ok h).1

/-- Whatever the level of a channel is, other options are read alike. -/
theorem foldlM_give (hp : p.pending = none) (hms : ∀ m ∈ ms, m.Spares ch) (h : ms.foldlM apply p = .ok q)
    (x : Option Nat) : ms.foldlM apply (p.give ch x) = .ok (q.give ch x) := by
  induction ms generalizing p with
  | nil => exact congrArg (fun p => Except.ok (Progress.give ch x p)) (Except.ok.inj h)
  | cons m ms ih =>
    rw [List.foldlM_cons] at h ⊢
    obtain ⟨p', hp', h⟩ := Config.bind_eq_ok h
    rw [apply_give hp (hms m List.mem_cons_self), hp']
    exact ih (pending_apply hp hp') (fun m hm => hms m (List.mem_cons_of_mem _ hm)) h

/-- Other options leave the level of a channel as it is. -/
private theorem level_foldlM (hp : p.pending = none) (hms : ∀ m ∈ ms, m.Spares ch) (h : ms.foldlM apply p = .ok q) :
    ch.level q.options = ch.level p.options := by
  -- with the level that is there already, nothing is changed beforehand
  have hsame : p.give ch (ch.level p.options) = p := by simp [Progress.give]
  have hgive := foldlM_give hp hms h (ch.level p.options)
  rw [hsame, h] at hgive
  have hoptions : q.options = ch.give (ch.level p.options) q.options := congrArg Progress.options (Except.ok.inj hgive)
  rw [hoptions, Log.Channel.level_give]

private theorem pending_foldlM (hp : p.pending = none) (h : ms.foldlM apply p = .ok q) : q.pending = none := by
  induction ms generalizing p with
  | nil => exact Except.ok.inj h ▸ hp
  | cons m ms ih =>
    obtain ⟨p', hp', h⟩ := Config.bind_eq_ok h
    exact ih (pending_apply hp hp') h

/-! ### One more mention -/

private theorem readLevel_toString (s : Setting) (n : Int) : readLevel s (encode (toString n)) =
    if 0 ≤ n ∧ n ≤ 5 then .ok n.toNat else .error (.invalidLevel s (toString n)) := by
  unfold readLevel
  rw [decode?_encode]
  dsimp only
  rw [Decimal.readInt?_eq]
  cases n with
  | ofNat n =>
    dsimp only
    by_cases hn : n ≤ 5
    · rw [if_pos hn, if_pos ⟨Int.natCast_nonneg n, Int.ofNat_le.2 hn⟩]
      rfl
    · rw [if_neg hn, if_neg fun h => hn (Int.ofNat_le.1 h.2)]
  | negSucc n =>
    rw [if_neg fun h => by have := Int.negSucc_lt_zero n; omega]

/-- The first mention of a level. -/
private theorem apply_level (hlevel : ch.level p.options = none) :
    apply p (.option ch.option (encode (toString n))) =
      if 0 ≤ n ∧ n ≤ 5 then .ok (p.give ch (some n.toNat)) else .error (.invalidLevel ch.option (toString n)) := by
  have hassign (v : Bytes) : assign p ch.option v =
      (readLevel ch.option v).map fun level => p.give ch (some level) := by
    cases ch with
    | console =>
      show (do let level ← readLevel .logLevel v; pure _) = _
      cases hread : readLevel .logLevel v <;> simp [Log.Channel.option, hread, bind, Except.bind, Except.map, pure,
        Except.pure, Progress.give, Log.Channel.give]
    | file =>
      show (do let level ← readLevel .fileLogLevel v; pure _) = _
      cases hread : readLevel .fileLogLevel v <;> simp [Log.Channel.option, hread, bind, Except.bind, Except.map, pure,
        Except.pure, Progress.give, Log.Channel.give]
  have hfirst : ¬p.has ch.option = true := by
    rw [has_option, hlevel]
    exact Bool.false_ne_true
  have hcheck (v : Bytes) : check p ch.option (some v) = assign p ch.option v := if_neg hfirst
  rw [apply, hcheck, hassign, readLevel_toString]
  split <;> rfl

/-- What is made of all that has been read. -/
private def outcome (p : Progress) : Except ArgumentError (Options × Request) :=
  match p.component with
  | some c => .ok (p.options, ⟨c, p.cleanBuild⟩)
  | none => .error .missingComponent

/-- Spelled mentions are read one after another, and then their outcome is taken. -/
private theorem parse_eq {program : Bytes} (hprogram : program ≠ encode "--") (h : List.Forall₂ Spells ms args)
    (hms : ∀ m ∈ ms, m.IsDistinct) : parse (program :: args.flatten) = ms.foldlM apply {} >>= outcome := by
  have hnormal : (normalize (program :: args.flatten)).tail = args.flatten.map rewritten := by
    rw [normalize, if_neg hprogram, normalize_eq_map (ne_of_distinct h hms)]
    rfl
  have hread : ((args.flatten.map rewritten).foldlM next {} >>= settle) = ms.foldlM apply {} :=
    foldlM_next_of_distinct h hms rfl
  unfold parse
  rw [hnormal, ← hread]
  cases (args.flatten.map rewritten).foldlM next {} <;> rfl

private theorem outcome_give : outcome (p.give ch x) = (outcome p).map fun y => (ch.give x y.1, y.2) := by
  unfold outcome Progress.give
  dsimp only
  cases p.component <;> rfl

/-- A command line with one more mention of a level, however it is spelled and wherever it stands, is read as before
but for this level, if it is one; or else it is refused. -/
theorem parse_level {program : Bytes} (hprogram : program ≠ encode "--") (hms : List.Forall₂ Spells ms args)
    (hms' : List.Forall₂ Spells ms' args') (hfit : ∀ m ∈ ms ++ ms', m.Fits) (hspares : ∀ m ∈ ms ++ ms', m.Spares ch)
    (hts : Spells (.option ch.option (encode (toString n))) ts)
    (h : parse (program :: (args ++ args').flatten) = .ok (o, r)) :
    parse (program :: (args ++ ts :: args').flatten) =
      if 0 ≤ n ∧ n ≤ 5 then .ok (ch.give (some n.toNat) o, r)
      else .error (.invalidLevel ch.option (toString n)) := by
  have hdistinct : ∀ m ∈ ms ++ ms', m.IsDistinct := fun m hm => (hfit m hm).isDistinct
  have hlevel : Mention.IsDistinct (.option ch.option (encode (toString n))) := by cases ch <;> rintro ⟨⟩
  have hall : ∀ m ∈ ms ++ .option ch.option (encode (toString n)) :: ms', m.IsDistinct := by
    intro m hm
    rcases List.mem_append.1 hm with hm | hm
    · exact hdistinct m (List.mem_append_left _ hm)
    · rcases List.mem_cons.1 hm with rfl | hm
      · exact hlevel
      · exact hdistinct m (List.mem_append_right _ hm)
  rw [parse_eq hprogram (List.rel_append hms hms') hdistinct, List.foldlM_append] at h
  rw [parse_eq hprogram (List.rel_append hms (.cons hts hms')) hall, List.foldlM_append]
  obtain ⟨q, hread, hout⟩ := Config.bind_eq_ok h
  obtain ⟨p, hp, hq⟩ := Config.bind_eq_ok hread
  have hpending := pending_foldlM (p := {}) rfl hp
  have hspares' : ∀ m ∈ ms, m.Spares ch := fun m hm => hspares m (List.mem_append_left _ hm)
  have hfree : ch.level p.options = none := (level_foldlM (p := {}) rfl hspares' hp).trans (by cases ch <;> rfl)
  rw [hp]
  show ((List.foldlM apply p (_ :: ms')) >>= outcome) = _
  rw [List.foldlM_cons, apply_level hfree]
  by_cases hn : 0 ≤ n ∧ n ≤ 5
  · rw [if_pos hn, if_pos hn]
    have hrest := foldlM_give hpending (fun m hm => hspares m (List.mem_append_right _ hm)) hq (some n.toNat)
    show (ms'.foldlM apply (p.give ch (some n.toNat)) >>= outcome) = _
    rw [hrest]
    show outcome (q.give ch (some n.toNat)) = _
    rw [outcome_give, hout]
    rfl
  · rw [if_neg hn, if_neg hn]
    rfl

end Arguments

end GradleBuild
