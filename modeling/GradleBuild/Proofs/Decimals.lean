import GradleBuild.Config.Decode
import GradleBuild.Config.Environment
import GradleBuild.Text.Blank
import Mathlib.Data.List.Basic
import Mathlib.Data.List.TakeWhile

/-!
# Decimal texts of integers

Each source has a reader of its own for an integer.  Here is what they make of one that is written in decimal: a minus
sign, if it is negative, and its digits without a zero in front.

* `readInt64?_eq`, `readUInt64?_eq`: the integer is read back, within the bounds of the reader.
* `binary64_eq`: as a number it is the closest one; that of a large integer is large (`le_roundToUInt64`).
* `word_eq`: as a word of TOML it is the integer, whatever its size.
* `wantLevel_integer`, `wantLevel_text`: what an integer and its text are as a level.
* `wantLevel_guess`: the same for a variable, where a negative integer that does not fit is level 0.
-/

namespace GradleBuild

namespace Decimal

variable {n : Int} {m : Nat} {c : Char} {o : Option String}

/-! ### Characters -/

/-- The sign of an integer as it is written. -/
def sign (n : Int) : List Char := if n < 0 then ['-'] else []

theorem toList_eq (n : Int) : (toString n).toList = sign n ++ Nat.toDigits 10 n.natAbs := by
  cases n with
  | ofNat m =>
    have hsign : sign (Int.ofNat m) = [] := if_neg (by simp)
    rw [hsign]
    exact Nat.toList_repr
  | negSucc m =>
    have hsign : sign (Int.negSucc m) = ['-'] := if_pos (Int.negSucc_lt_zero m)
    have htext : toString (Int.negSucc m) = "-" ++ Nat.repr (m + 1) := rfl
    rw [hsign, htext, String.toList_append, Nat.toList_repr]
    rfl

theorem isDigit_of_mem (h : c ∈ Nat.toDigits 10 m) : c.isDigit = true :=
  Nat.isDigit_of_mem_toDigits (by omega) (by omega) h

theorem digit_bounds (h : c.isDigit = true) : 48 ≤ c.toNat ∧ c.toNat ≤ 57 := Char.isDigit_iff_toNat.1 h

theorem minus_or_digit (h : c ∈ (toString n).toList) : c = '-' ∨ c.isDigit = true := by
  rw [toList_eq, List.mem_append] at h
  rcases h with h | h
  · unfold sign at h
    split at h
    · exact Or.inl (List.mem_singleton.1 h)
    · cases h
  · exact Or.inr (isDigit_of_mem h)

theorem bounds_of_mem (h : c ∈ (toString n).toList) : 45 ≤ c.toNat ∧ c.toNat ≤ 57 := by
  rcases minus_or_digit h with rfl | h
  · decide
  · have := digit_bounds h
    omega

theorem exists_cons (n : Int) : ∃ c cs, (toString n).toList = c :: cs := by
  refine List.exists_cons_of_ne_nil fun hnil => ?_
  rw [toList_eq] at hnil
  exact Nat.toDigits_ne_nil (List.append_eq_nil_iff.1 hnil).2

/-- A text with a letter in it is not that of an integer. -/
theorem ne_word {word : String} (h : word.toList.any (fun c => 57 < c.toNat) = true) : toString n ≠ word := by
  rintro rfl
  obtain ⟨c, hc, hlarge⟩ := List.any_eq_true.1 h
  have := bounds_of_mem hc
  have := of_decide_eq_true hlarge
  omega

theorem lowercase_eq (n : Int) : lowercase (toString n) = toString n := by
  have hascii : ∀ c ∈ (toString n).toList, c.toNat < 0x80 := by
    intro c hc
    have := bounds_of_mem hc
    omega
  have hlower : (toString n).toList.map Char.toLower = (toString n).toList := by
    refine (List.map_congr_left fun c hc => ?_).trans (List.map_id' _)
    have hupper : ¬(65 ≤ c.toNat) := by
      have := bounds_of_mem hc
      omega
    exact dif_neg fun h => hupper h.1
  rw [lowercase_ascii hascii, hlower, String.ofList_toList]

private theorem not_blank (h : c ∈ (toString n).toList) : isBlank c = false := by
  have hranges : ∀ r ∈ Blank.ranges, ¬(r.1 ≤ 57 ∧ 45 ≤ r.2) := by decide
  unfold isBlank inRanges
  rw [List.any_eq_false]
  intro r hr
  have := hranges r hr
  have := bounds_of_mem h
  simp only [Bool.and_eq_true, decide_eq_true_eq]
  omega

theorem trim_eq (n : Int) : trim (toString n) = toString n := by
  have hkeep : ∀ cs : List Char, (∀ c ∈ cs, isBlank c = false) → cs.dropWhile isBlank = cs := by
    intro cs hcs
    rw [List.dropWhile_eq_self_iff]
    intro hl
    simp [hcs _ (List.getElem_mem hl)]
  unfold trim trimChars
  rw [hkeep _ fun c hc => not_blank hc, hkeep _ fun c hc => not_blank (List.mem_reverse.1 hc), List.reverse_reverse,
    String.ofList_toList]

/-! ### Integers -/

theorem splitSign_toDigits (m : Nat) : splitSign (Nat.toDigits 10 m) = (false, Nat.toDigits 10 m) := by
  unfold splitSign
  split
  · rename_i heq
    have hplus := isDigit_of_mem (m := m) (c := '+') (by rw [heq]; exact List.mem_cons_self)
    simp at hplus
  · rename_i heq
    have hminus := isDigit_of_mem (m := m) (c := '-') (by rw [heq]; exact List.mem_cons_self)
    simp at hminus
  · rfl

theorem splitSign_eq (n : Int) : splitSign (toString n).toList = (decide (n < 0), Nat.toDigits 10 n.natAbs) := by
  rw [toList_eq]
  unfold sign
  split
  · rename_i hneg
    rw [decide_eq_true hneg]
    rfl
  · rename_i hpos
    rw [decide_eq_false hpos, List.nil_append, splitSign_toDigits]

/-- The value of a sign and digits. -/
private theorem signed_natAbs (n : Int) : (if decide (n < 0) = true then -(n.natAbs : Int) else n.natAbs) = n := by
  split
  · rename_i hneg
    have := of_decide_eq_true hneg
    omega
  · rename_i hpos
    simp only [decide_eq_true_eq] at hpos
    omega

theorem readInt?_eq (n : Int) : readInt? (toString n) = some n := by
  unfold readInt?
  rw [splitSign_eq]
  dsimp only
  rw [Digits.read?_toDigits]
  exact congrArg some (signed_natAbs n)

theorem readInt64?_eq (n : Int) : readInt64? (toString n) = if fitsInt64 n then some n else none := by
  unfold readInt64?
  rw [readInt?_eq, Option.filter_some]

/-- A minus sign is no digit. -/
theorem readUInt64?_eq (n : Int) :
    readUInt64? (toString n) = if 0 ≤ n ∧ n < Nat.pow 2 64 then some n.toNat else none := by
  unfold readUInt64?
  cases n with
  | ofNat m =>
    have htext : toString (Int.ofNat m) = toString m := rfl
    rw [htext, readNat?_toString, Option.filter_some]
    by_cases hm : m < Nat.pow 2 64
    · rw [if_pos (decide_eq_true hm), if_pos ⟨Int.natCast_nonneg m, Int.ofNat_lt.2 hm⟩]
      rfl
    · rw [if_neg (by simpa using hm), if_neg fun h => hm (Int.ofNat_lt.1 h.2)]
  | negSucc m =>
    have hneg : Int.negSucc m < 0 := Int.negSucc_lt_zero m
    have hnone : readNat? (toString (Int.negSucc m)) = none := by
      unfold readNat?
      rw [toList_eq, sign, if_pos hneg]
      rfl
    rw [hnone, if_neg fun h => by omega]
    rfl

/-! ### Numbers -/

theorem map_toLower_toDigits (m : Nat) : (Nat.toDigits 10 m).map Char.toLower = Nat.toDigits 10 m := by
  refine (List.map_congr_left fun c hc => ?_).trans (List.map_id' _)
  have hupper : ¬(65 ≤ c.toNat) := by
    have := digit_bounds (isDigit_of_mem hc)
    omega
  exact dif_neg fun h => hupper h.1

/-- The digits of a number are not a name. -/
theorem toDigits_ne {name : List Char} (h : name.any (fun c => 57 < c.toNat) = true) : Nat.toDigits 10 m ≠ name := by
  rintro rfl
  obtain ⟨c, hc, hlarge⟩ := List.any_eq_true.1 h
  have := digit_bounds (isDigit_of_mem hc)
  have := of_decide_eq_true hlarge
  omega

private theorem ofDecimal_zero (negative : Bool) (m count : Nat) :
    Binary64.ofDecimal negative m 0 count = .nearest negative m 1 := by
  unfold Binary64.ofDecimal
  split
  · rename_i hm
    rw [hm]
    rfl
  · rw [if_neg (by omega), if_neg (by omega), if_pos (Int.le_refl 0), Int.toNat_zero]
    have hone : m * Nat.pow 10 0 = m := Nat.mul_one m
    rw [hone]

/-- An integer is read as the number closest to it. -/
theorem binary64_eq (n : Int) :
    Binary64.read? (toString n) = some (.nearest (decide (n < 0)) n.natAbs 1) := by
  have hdigits : ∀ c ∈ Nat.toDigits 10 n.natAbs, c.isDigit = true := fun c => isDigit_of_mem
  have htake : (Nat.toDigits 10 n.natAbs).takeWhile Char.isDigit = Nat.toDigits 10 n.natAbs := by
    rw [List.takeWhile_eq_self_iff]
    exact hdigits
  have hdrop : (Nat.toDigits 10 n.natAbs).dropWhile Char.isDigit = [] := by
    rw [List.dropWhile_eq_nil_iff]
    exact hdigits
  unfold Binary64.read?
  rw [splitSign_eq]
  dsimp only
  rw [map_toLower_toDigits, if_neg (not_or.2 ⟨toDigits_ne (by decide), toDigits_ne (by decide)⟩),
    if_neg (toDigits_ne (by decide))]
  unfold Binary64.readPositive?
  rw [htake, hdrop]
  dsimp only
  rw [List.append_nil, Digits.read?_toDigits]
  exact congrArg some (ofDecimal_zero _ _ _)

/-- A negative number is rounded to none but 0. -/
theorem roundToUInt64_negative (num den : Nat) : (Binary64.nearest true num den).roundToUInt64 = 0 := by
  unfold Binary64.nearest
  split
  · rfl
  · dsimp only
    split
    all_goals
      split
      all_goals rfl

/-- A quotient is not rounded to less than its whole part. -/
private theorem le_roundHalfEven (num den : Nat) : num / den ≤ Binary64.roundHalfEven num den := by
  unfold Binary64.roundHalfEven
  dsimp only
  split
  · exact Nat.le_refl _
  · split <;> omega

/-- The unit of a large integer is large, but not larger than the integer. -/
private theorem exists_unitOf (h : 63 ≤ m.log2) : ∃ e : Nat, Binary64.unitOf m 1 = e ∧ 10 ≤ e ∧ e ≤ m.log2 := by
  have hone : Nat.log2 1 = 0 := by decide
  unfold Binary64.unitOf
  rw [hone]
  dsimp only
  split
  · exact ⟨m.log2 - 52, by omega, by omega, by omega⟩
  · exact ⟨m.log2 - 53, by omega, by omega, by omega⟩

private theorem le_finite {units e : Nat} (hunits : 1 ≤ units) (he : 10 ≤ e) :
    256 ≤ (Binary64.finite false units e).roundToUInt64 := by
  have hpow : 2 ^ 10 ≤ 2 ^ e := Nat.pow_le_pow_right (by omega) he
  have hvalue : 256 ≤ units * Nat.pow 2 e := calc
    256 ≤ 1 * 2 ^ 10 := by decide
    _ ≤ units * 2 ^ e := Nat.mul_le_mul hunits hpow
  have hround : (Binary64.finite false units e).roundToUInt64 = min (units * Nat.pow 2 e) (Nat.pow 2 64 - 1) := by
    unfold Binary64.roundToUInt64
    dsimp only
    rw [if_pos (Int.natCast_nonneg e), Int.toNat_natCast]
  rw [hround]
  exact Nat.le_min.2 ⟨hvalue, by decide⟩

/-- A large integer is rounded to a large one: it has one unit at least, and that is large. -/
theorem le_roundToUInt64 (h : Nat.pow 2 63 ≤ m) : 256 ≤ (Binary64.nearest false m 1).roundToUInt64 := by
  have hm : m ≠ 0 := by
    rintro rfl
    exact absurd h (by decide)
  obtain ⟨e, he, hten, hle⟩ := exists_unitOf ((Nat.le_log2 hm).2 h)
  have hunits : 1 ≤ Binary64.inUnits m 1 e := by
    have hpow : 2 ^ e ≤ m := (Nat.pow_le_pow_right (by omega) hle).trans (Nat.log2_self_le hm)
    unfold Binary64.inUnits
    rw [if_pos (Int.natCast_nonneg e), Int.toNat_natCast, Nat.one_mul]
    exact (Nat.div_pos hpow (Nat.pow_pos (by omega))).trans_le (le_roundHalfEven _ _)
  have hinfinite : 256 ≤ (Binary64.infinite false).roundToUInt64 := by decide
  unfold Binary64.nearest
  rw [if_neg hm, he]
  dsimp only
  split
  · split
    · exact le_finite (e := e + 1) (Nat.pow_pos (by omega)) (by omega)
    · exact hinfinite
  · split
    · exact le_finite hunits hten
    · exact hinfinite

/-! ### Words of TOML -/

private theorem head?_toDigits (h : 1 ≤ m) : (Nat.toDigits 10 m).head? ≠ some '0' := by
  induction m using Nat.strong_induction_on with
  | _ m ih =>
    rcases Nat.lt_or_ge m 10 with hsmall | hlarge
    · have hdigit : ∀ m < 10, 1 ≤ m → Nat.digitChar m ≠ '0' := by decide
      rw [Nat.toDigits_of_lt_base hsmall]
      exact fun heq => hdigit m hsmall h (Option.some.inj heq)
    · rw [Nat.toDigits_of_base_le (by omega) hlarge, List.head?_append_of_ne_nil _ Nat.toDigits_ne_nil]
      exact ih (m / 10) (by omega) (by omega)

private theorem isSome_value? (h : c.isDigit = true) : (Digits.value? 10 c).isSome = true := by
  rw [Digits.value?_digit h]
  rfl

private theorem go_digits {last : Char} {cs : List Char} (h : ∀ c ∈ cs, c.isDigit = true) :
    Toml.Word.digitsOf?.go 10 last cs = some (last :: cs) := by
  induction cs generalizing last with
  | nil => rfl
  | cons c cs ih =>
    have hc := h c List.mem_cons_self
    have hunderscore : c ≠ '_' := by
      rintro rfl
      cases hc
    have hrest : Toml.Word.digitsOf?.go 10 c cs = some (c :: cs) := ih fun d hd => h d (List.mem_cons_of_mem _ hd)
    unfold Toml.Word.digitsOf?.go
    split
    · rename_i heq
      cases heq
    · rename_i heq
      exact absurd (List.cons.inj heq).1 hunderscore
    · rename_i heq
      obtain ⟨rfl, rfl⟩ := List.cons.inj heq
      rw [if_pos (isSome_value? hc), hrest]
      rfl

private theorem whole?_toDigits (m : Nat) : Toml.Word.whole? (Nat.toDigits 10 m) = some (Nat.toDigits 10 m) := by
  have hdigits : Toml.Word.digitsOf? 10 (Nat.toDigits 10 m) = some (Nat.toDigits 10 m) := by
    obtain ⟨c, cs, hcs⟩ := List.exists_cons_of_ne_nil (Nat.toDigits_ne_nil (b := 10) (n := m))
    have hall : ∀ d ∈ c :: cs, d.isDigit = true := fun d hd => isDigit_of_mem (by rwa [hcs])
    rw [hcs, Toml.Word.digitsOf?, if_pos (isSome_value? (hall c List.mem_cons_self))]
    exact go_digits fun d hd => hall d (List.mem_cons_of_mem _ hd)
  unfold Toml.Word.whole?
  rw [hdigits]
  dsimp only [bind, Option.bind]
  split
  · rename_i hcs
    rcases Nat.eq_zero_or_pos m with rfl | hpos
    · cases hcs
    · exact absurd (by rw [hcs]; rfl) (head?_toDigits hpos)
  · rfl

private theorem unsigned?_toDigits (negative : Bool) (m : Nat) : Toml.Word.unsigned? negative (Nat.toDigits 10 m) =
    some (.ofInt (if negative then -(m : Int) else m)) := by
  have hinteger : Toml.Word.integer? negative (Nat.toDigits 10 m) =
      some (.ofInt (if negative then -(m : Int) else m)) := by
    unfold Toml.Word.integer?
    rw [whole?_toDigits]
    show (do let n ← Digits.read? 10 (Nat.toDigits 10 m); pure _) = _
    rw [Digits.read?_toDigits]
    rfl
  unfold Toml.Word.unsigned?
  rw [if_neg (toDigits_ne (by decide)), if_neg (toDigits_ne (by decide)), hinteger]

/-- A word of decimal digits is the integer, even where that does not fit 64 bits. -/
theorem word_eq (n : Int) : Toml.Word.read? (toString n).toList = some (.ofInt n) := by
  have hword {word : String} (h : word.toList.any (fun c => 57 < c.toNat) = true) :
      (toString n).toList ≠ word.toList := fun heq => ne_word h (String.toList_injective heq)
  unfold Toml.Word.read?
  rw [if_neg (hword (by decide)), if_neg (hword (by decide)), toList_eq]
  have hvalue := signed_natAbs n
  unfold sign
  by_cases hneg : n < 0
  · rw [if_pos (decide_eq_true hneg)] at hvalue
    rw [if_pos hneg]
    show Toml.Word.unsigned? true (Nat.toDigits 10 n.natAbs) = _
    rw [unsigned?_toDigits, if_pos rfl, hvalue]
  · rw [if_neg (by simpa using hneg)] at hvalue
    -- digits begin neither with a sign nor with the marker of another base
    have hother {d : Char} {w rest : List Char} (heq : Nat.toDigits 10 n.natAbs = w ++ d :: rest)
        (hd : d.isDigit = false) : False := by
      rw [isDigit_of_mem (m := n.natAbs) (c := d) (by rw [heq]; simp)] at hd
      cases hd
    rw [if_neg hneg, List.nil_append]
    split
    · rename_i heq
      exact (hother (w := []) heq rfl).elim
    · rename_i heq
      exact (hother (w := []) heq rfl).elim
    · rename_i heq
      exact (hother (w := ['0']) heq rfl).elim
    · rename_i heq
      exact (hother (w := ['0']) heq rfl).elim
    · rename_i heq
      exact (hother (w := ['0']) heq rfl).elim
    · rw [unsigned?_toDigits]
      simp [hvalue]

theorem ofInt_of_fits (h : fitsInt64 n = true) : Toml.Value.ofInt n = .scalar (.integer n) := by
  unfold fitsInt64 at h
  simp only [Bool.and_eq_true, decide_eq_true_eq] at h
  unfold Toml.Value.ofInt
  rw [if_neg (by omega), if_neg (by omega)]

theorem ofInt_of_not_fits (h : ¬fitsInt64 n = true) : ∃ fault, Toml.Value.ofInt n = .unfit fault := by
  unfold fitsInt64 at h
  simp only [Bool.and_eq_true, decide_eq_true_eq, not_and_or] at h
  unfold Toml.Value.ofInt
  split
  · exact ⟨.tooSmall, rfl⟩
  · rw [if_pos (by omega)]
    exact ⟨.tooLarge, rfl⟩

/-! ### Levels -/

open Config

theorem exists_level_iff : (∃ l : Log.Level, (l.toNat : Int) = n) ↔ 0 ≤ n ∧ n ≤ 5 := by
  constructor
  · rintro ⟨l, rfl⟩
    have hbound : l.toNat ≤ 5 := l.toNat_le_highest
    omega
  · rintro ⟨hlow, hhigh⟩
    obtain ⟨l, hl⟩ := Option.isSome_iff_exists.1
      (Log.Level.isSome_ofNat?_iff.2 (by unfold Log.Level.highest; omega : n.toNat ≤ Log.Level.highest))
    have := Log.Level.ofNat?_eq_some_iff.1 hl
    exact ⟨l, by omega⟩

variable {v : Value} {l : Log.Level}

theorem fits_of_level (h : (l.toNat : Int) = n) : fitsInt64 n = true := by
  rw [← h]
  cases l <;> decide

private theorem wantLevel_of_ok (h : wantUnsigned v = .ok m) : wantLevel v = .ok l ↔ l.toNat = m := by
  have hbound : l.toNat ≤ 5 := l.toNat_le_highest
  unfold wantLevel
  rw [h]
  show (if m < 256 then _ else _) = _ ↔ _
  by_cases hm : m < 256
  · rw [if_pos hm, ← Log.Level.ofNat?_eq_some_iff]
    cases Log.Level.ofNat? m with
    | none => exact iff_of_false (by rintro ⟨⟩) (by rintro ⟨⟩)
    | some l' => exact ⟨fun heq => congrArg some (Except.ok.inj heq), fun heq => congrArg _ (Option.some.inj heq)⟩
  · rw [if_neg hm]
    exact iff_of_false (by rintro ⟨⟩) (by omega)

private theorem wantLevel_of_error {e : ValueProblem} (h : wantUnsigned v = .error e) : wantLevel v ≠ .ok l := by
  unfold wantLevel
  rw [h]
  rintro ⟨⟩

theorem wantLevel_integer : wantLevel (.scalar o (.integer n)) = .ok l ↔ (l.toNat : Int) = n := by
  have hread : wantUnsigned (.scalar o (.integer n)) = if 0 ≤ n then .ok n.toNat
      else fail (.unexpected (.signed64 n) "an unsigned 64 bit or less integer" o) := rfl
  by_cases hn : 0 ≤ n
  · rw [if_pos hn] at hread
    rw [wantLevel_of_ok hread]
    omega
  · rw [if_neg hn] at hread
    exact iff_of_false (wantLevel_of_error hread) (by omega)

private theorem wantUnsigned_text : wantUnsigned (.scalar o (.text (toString n))) =
    if 0 ≤ n ∧ n < Nat.pow 2 64 then .ok n.toNat else fail (.unexpected (.text (toString n)) "an integer" o) := by
  have hwords : ∀ word ∈ ["true", "on", "yes", "false", "off", "no"], toString n ≠ word := by
    have hletters : ∀ word ∈ ["true", "on", "yes", "false", "off", "no"],
        word.toList.any (fun c => 57 < c.toNat) = true := by decide
    exact fun word hword => ne_word (hletters word hword)
  have hyes : ¬toString n ∈ ["true", "on", "yes"] := fun hmem =>
    hwords _ (List.mem_append_left ["false", "off", "no"] hmem) rfl
  have hno : ¬toString n ∈ ["false", "off", "no"] := fun hmem =>
    hwords _ (List.mem_append_right ["true", "on", "yes"] hmem) rfl
  unfold wantUnsigned
  dsimp only
  rw [lowercase_eq, if_neg hyes, if_neg hno, readUInt64?_eq]
  by_cases hn : 0 ≤ n ∧ n < Nat.pow 2 64
  · simp only [if_pos hn]
  · simp only [if_neg hn]

theorem wantLevel_text : wantLevel (.scalar o (.text (toString n))) = .ok l ↔ (l.toNat : Int) = n := by
  have hread := wantUnsigned_text (n := n) (o := o)
  by_cases hn : 0 ≤ n ∧ n < Nat.pow 2 64
  · rw [if_pos hn] at hread
    rw [wantLevel_of_ok hread]
    omega
  · rw [if_neg hn] at hread
    refine iff_of_false (wantLevel_of_error hread) fun hl => hn ?_
    have hbound : l.toNat ≤ 5 := l.toNat_le_highest
    have hpow : Nat.pow 2 64 = 18446744073709551616 := by decide
    omega

/-- What a variable makes of an integer: the integer if it fits 64 bits, and else the number closest to it. -/
theorem guess_eq (key : String) (n : Int) : guess key (toString n) = .scalar (some environmentOrigin)
    (if fitsInt64 n then .integer n else .float (.nearest (decide (n < 0)) n.natAbs 1)) := by
  unfold guess
  dsimp only
  rw [lowercase_eq, if_neg (ne_word (by decide)), if_neg (ne_word (by decide)), readInt64?_eq]
  by_cases hn : fitsInt64 n = true
  · rw [if_pos hn, if_pos hn]
  · rw [if_neg hn, if_neg hn, binary64_eq]

/-- From a variable an integer is the level that it is, unless it is too small for 64 bits. -/
theorem wantLevel_guess (key : String) (h : -(Nat.pow 2 63 : Int) ≤ n) :
    wantLevel (guess key (toString n)) = .ok l ↔ (l.toNat : Int) = n := by
  rw [guess_eq]
  by_cases hn : fitsInt64 n = true
  · rw [if_pos hn, wantLevel_integer]
  · have hlarge : (Nat.pow 2 63 : Int) ≤ n := by
      unfold fitsInt64 at hn
      simp only [Bool.and_eq_true, decide_eq_true_eq] at hn
      omega
    have hpow : Nat.pow 2 63 = 9223372036854775808 := by decide
    have hround := le_roundToUInt64 (m := n.natAbs) (by omega)
    have hbound : l.toNat ≤ 5 := l.toNat_le_highest
    rw [if_neg hn, decide_eq_false (by omega), wantLevel_of_ok rfl]
    omega

/-- One that is too small for 64 bits is taken for 0. -/
theorem wantLevel_guess_small (key : String) (h : n < -(Nat.pow 2 63 : Int)) :
    wantLevel (guess key (toString n)) = .ok .off := by
  have hn : ¬fitsInt64 n = true := by
    unfold fitsInt64
    simp only [Bool.and_eq_true, decide_eq_true_eq]
    omega
  have hneg : n < 0 := by omega
  rw [guess_eq, if_neg hn, decide_eq_true hneg]
  exact (wantLevel_of_ok rfl).2 (roundToUInt64_negative _ _).symm

end Decimal

end GradleBuild
