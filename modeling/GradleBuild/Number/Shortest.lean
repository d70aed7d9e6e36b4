import GradleBuild.Number.Binary64

/-!
# The shortest decimal text of a number

The reals that round to a number form an interval: from halfway to the neighbour below it to halfway to the neighbour
above, ends included exactly if its mantissa is even.  The text of a number shows the fewest digits that lie in this
interval, of two such values the closer one, and of two equally close ones the larger.

Texts are positional: no exponent, and no point without digits after it.
-/

namespace GradleBuild

namespace Binary64

/-- A number of quarters of the unit `2 ^ exponent`. -/
structure Quarters where
  low : Nat
  value : Nat
  high : Nat
  closed : Bool
  exponent : Int
  deriving DecidableEq, Repr

/-- The interval of reals that round to `mantissa * 2 ^ exponent`.  Below a power of two the neighbours are twice as
close as above it. -/
def interval (mantissa : Nat) (exponent : Int) : Quarters where
  low := if mantissa = Nat.pow 2 52 ∧ -1074 < exponent then 4 * mantissa - 1 else 4 * mantissa - 2
  value := 4 * mantissa
  high := 4 * mantissa + 2
  closed := mantissa % 2 = 0
  exponent := exponent - 2

/-- Whether a value lies between the ends; `num` counts the same unit as the ends do when taken `den` times. -/
def Quarters.holds (q : Quarters) (num den : Nat) : Bool :=
  let inside (a b : Nat) : Bool := if q.closed then a ≤ b else a < b
  inside (q.low * den) num && inside num (q.high * den)

/-- Numerator and denominator by which a value on the grid `10 ^ k` is compared with units of `2 ^ e`. -/
def scale (k e : Int) : Nat × Nat :=
  (Nat.pow 10 k.toNat * Nat.pow 2 (-e).toNat, Nat.pow 10 (-k).toNat * Nat.pow 2 e.toNat)

/-- The value on the grid `10 ^ k` that lies in the interval, if there is one: the neighbour below or the one above,
whichever is closer. -/
def Quarters.onGrid? (q : Quarters) (k : Int) : Option Nat :=
  let (num, den) := scale k q.exponent
  let below := q.value * den / num
  let beneath := below * num
  let above := (below + 1) * num
  let value := q.value * den
  match 0 < below && q.holds beneath den, q.holds above den with
  | true, true => some (if value - beneath < above - value then below else below + 1)
  | true, false => some below
  | false, true => some (below + 1)
  | false, false => none

/-- The first grid from `10 ^ k` downwards with a value in the interval. -/
def Quarters.search (q : Quarters) (k : Int) : Nat → Nat × Int
  | 0 => (q.value / 4, q.exponent + 2)
  | fuel + 1 =>
    match q.onGrid? k with
    | some n => (n, k)
    | none => q.search (k - 1) fuel

/-- A bound on the power of ten of the first digit. -/
def topGrid (mantissa : Nat) (exponent : Int) : Int :=
  ((mantissa.log2 : Int) + exponent) * 30103 / 100000 + 2

/-- The fewest digits that read back as `mantissa * 2 ^ exponent`, and their power of ten. -/
def shortest (mantissa : Nat) (exponent : Int) : Nat × Int :=
  if mantissa = 0 then (0, 0) else (interval mantissa exponent).search (topGrid mantissa exponent) 400

/-- The digits of `n * 10 ^ k` with a point where one is needed. -/
def positional (n : Nat) (k : Int) : List Char :=
  let digits := Nat.toDigits 10 n
  if 0 ≤ k then (if n = 0 then digits else digits ++ List.replicate k.toNat '0')
  else
    let places := (-k).toNat
    let padded := List.replicate (places + 1 - digits.length) '0' ++ digits
    let cut := padded.length - places
    padded.take cut ++ '.' :: padded.drop cut

/-- The shortest text that reads back. -/
def text : Binary64 → String
  | .nan => "NaN"
  | .infinite negative => if negative then "-inf" else "inf"
  | .finite negative m e =>
    let (n, k) := shortest m e
    String.ofList ((if negative then ['-'] else []) ++ positional n k)

/-- The same text, with `.0` where a finite number shows no point. -/
def textWithPoint (x : Binary64) : String :=
  match x with
  | .finite .. => if x.text.toList.contains '.' then x.text else x.text ++ ".0"
  | _ => x.text

end Binary64

end GradleBuild
