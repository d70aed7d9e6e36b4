import GradleBuild.Number.Integer

/-!
# Binary floating-point numbers

A number of 64 bits is a sign, a whole mantissa below `2 ^ 53` and a power of two not below `2 ^ (-1074)`, or one of
the infinities, or not a number.  `nearest` rounds a quotient to the closest such number, of two equally close ones to
that with the even mantissa.

* `ofDecimal`: `digits * 10 ^ exponent`, rounded once.
* `read?`: the written forms, with or without a point and an exponent, `inf`, `infinity` and `nan` in any case.
* `roundToUInt64`: the closest whole number, a half going away from zero, kept inside 64 bits.
-/

namespace GradleBuild

inductive Binary64 where
  | nan
  | infinite (negative : Bool)
  /-- The number `mantissa * 2 ^ exponent` with a sign; zero has either sign. -/
  | finite (negative : Bool) (mantissa : Nat) (exponent : Int)
  deriving DecidableEq, Repr, Inhabited

namespace Binary64

def zero (negative : Bool) : Binary64 := .finite negative 0 (-1074)

/-- The closest whole number to `num / den`, a half going to the even neighbour. -/
def roundHalfEven (num den : Nat) : Nat :=
  let q := num / den
  let r := num % den
  if 2 * r < den then q
  else if den < 2 * r then q + 1
  else q + q % 2

/-- The quotient `num / den` in units of `2 ^ e`, rounded. -/
def inUnits (num den : Nat) (e : Int) : Nat :=
  if 0 ≤ e then roundHalfEven num (den * Nat.pow 2 e.toNat) else roundHalfEven (num * Nat.pow 2 (-e).toNat) den

/-- Whether `num / den` is at least `n` units of `2 ^ e`. -/
def reaches (num den : Nat) (n : Nat) (e : Int) : Bool :=
  if 0 ≤ e then n * Nat.pow 2 e.toNat * den ≤ num else n * den ≤ num * Nat.pow 2 (-e).toNat

/-- The unit in which a positive quotient has 53 bits, or the smallest unit there is. -/
def unitOf (num den : Nat) : Int :=
  let guess : Int := (num.log2 : Int) - (den.log2 : Int) - 53
  let e := if reaches num den (Nat.pow 2 53) guess then guess + 1 else guess
  max e (-1074)

/-- The number closest to `num / den`. -/
def nearest (negative : Bool) (num den : Nat) : Binary64 :=
  if num = 0 then zero negative
  else
    let e := unitOf num den
    let m := inUnits num den e
    let (m, e) := if m = Nat.pow 2 53 then (Nat.pow 2 52, e + 1) else (m, e)
    if e ≤ 971 then .finite negative m e else .infinite negative

/-- `digits * 10 ^ exponent` rounded to the closest number; `count` is at least the number of digits, so that values
far outside the range are not computed. -/
def ofDecimal (negative : Bool) (digits : Nat) (exponent : Int) (count : Nat) : Binary64 :=
  if digits = 0 then zero negative
  else if 310 < exponent then .infinite negative
  else if exponent + count < -330 then zero negative
  else if 0 ≤ exponent then nearest negative (digits * Nat.pow 10 exponent.toNat) 1
  else nearest negative digits (Nat.pow 10 (-exponent).toNat)

/-- The exponent after `e`, if there is one: an optional sign and at least one digit. -/
def readExponent? (cs : List Char) : Option Int :=
  let (negative, digits) := splitSign cs
  (Digits.read? 10 digits).map fun n => if negative then -(n : Int) else n

/-- Digits with an optional point among them, at least one digit in all, and an optional exponent. -/
def readPositive? (negative : Bool) (cs : List Char) : Option Binary64 :=
  let whole := cs.takeWhile Char.isDigit
  let rest := cs.dropWhile Char.isDigit
  let (fraction, rest) :=
    match rest with
    | '.' :: r => (r.takeWhile Char.isDigit, r.dropWhile Char.isDigit)
    | r => ([], r)
  let digits := whole ++ fraction
  match Digits.read? 10 digits with
  | none => none
  | some n =>
    let finish (e : Int) := some (ofDecimal negative n (e - fraction.length) digits.length)
    match rest with
    | [] => finish 0
    | c :: r => if c = 'e' ∨ c = 'E' then (readExponent? r).bind finish else none

/-- A written number. -/
def read? (s : String) : Option Binary64 :=
  let (negative, cs) := splitSign s.toList
  let name := cs.map Char.toLower
  if name = "inf".toList ∨ name = "infinity".toList then some (.infinite negative)
  else if name = "nan".toList then some .nan
  else readPositive? negative cs

def isInfinite : Binary64 → Bool
  | .infinite _ => true
  | _ => false

/-- Only the two zeros are zero; in particular what is not a number is not. -/
def isZero : Binary64 → Bool
  | .finite _ m _ => m == 0
  | _ => false

/-- The closest whole number, a half going away from zero; negative numbers and what is not a number give 0, large
ones the largest value of 64 bits. -/
def roundToUInt64 : Binary64 → Nat
  | .nan => 0
  | .infinite negative => if negative then 0 else Nat.pow 2 64 - 1
  | .finite true _ _ => 0
  | .finite false m e =>
    let n := if 0 ≤ e then m * Nat.pow 2 e.toNat else (2 * m + Nat.pow 2 (-e).toNat) / (2 * Nat.pow 2 (-e).toNat)
    min n (Nat.pow 2 64 - 1)

end Binary64

end GradleBuild
