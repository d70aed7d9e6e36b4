/-!
# Written integers

An integer is written as decimal digits with an optional sign in front; an unsigned one admits no minus sign.  The
value may have any size; the bounds of a fixed width are asked for separately.

* `readNat?_toString`: a number is read back from its digits.
-/

namespace GradleBuild

namespace Digits

/-- The value of a character as a digit, `none` from the base on. -/
def value? (base : Nat) (c : Char) : Option Nat :=
  let d :=
    if '0' ≤ c ∧ c ≤ '9' then c.toNat - '0'.toNat
    else if 'a' ≤ c ∧ c ≤ 'z' then c.toNat - 'a'.toNat + 10
    else if 'A' ≤ c ∧ c ≤ 'Z' then c.toNat - 'A'.toNat + 10
    else base
  if d < base then some d else none

/-- The value of a row of digits, read on from `n`. -/
def foldFrom? (base n : Nat) : List Char → Option Nat
  | [] => some n
  | c :: cs =>
    match value? base c with
    | some d => foldFrom? base (n * base + d) cs
    | none => none

/-- The value of one or more digits. -/
def read? (base : Nat) (cs : List Char) : Option Nat :=
  if cs.isEmpty then none else foldFrom? base 0 cs

theorem value?_digit {c : Char} (h : c.isDigit = true) : value? 10 c = some (c.toNat - '0'.toNat) := by
  have hc : 48 ≤ c.toNat ∧ c.toNat ≤ 57 := Char.isDigit_iff_toNat.1 h
  have hbounds : '0' ≤ c ∧ c ≤ '9' := ⟨Char.le_def.2 hc.1, Char.le_def.2 hc.2⟩
  have hzero : '0'.toNat = 48 := rfl
  have hsmall : c.toNat - '0'.toNat < 10 := by omega
  simp only [value?, if_pos hbounds, if_pos hsmall]

theorem foldFrom?_digits {cs : List Char} (h : ∀ c ∈ cs, c.isDigit = true) (n : Nat) :
    foldFrom? 10 n cs = some (Nat.ofDigitChars 10 cs n) := by
  induction cs generalizing n with
  | nil => rfl
  | cons c cs ih =>
    rw [foldFrom?, value?_digit (h c List.mem_cons_self), Nat.ofDigitChars_cons, Nat.mul_comm 10 n]
    exact ih (fun c hc => h c (List.mem_cons_of_mem _ hc)) _

/-- A number is read back from its digits. -/
theorem read?_toDigits (n : Nat) : read? 10 (Nat.toDigits 10 n) = some n := by
  have hne : (Nat.toDigits 10 n).isEmpty = false := by simp [Nat.toDigits_ne_nil]
  have hdigits : ∀ c ∈ Nat.toDigits 10 n, c.isDigit = true := fun _ hc =>
    Nat.isDigit_of_mem_toDigits (by omega) (by omega) hc
  rw [read?, hne, foldFrom?_digits hdigits, Nat.ofDigitChars_toDigits (by omega) (by omega)]
  rfl

end Digits

/-- An optional sign: whether it is a minus, and what follows it. -/
def splitSign : List Char → Bool × List Char
  | '+' :: cs => (false, cs)
  | '-' :: cs => (true, cs)
  | cs => (false, cs)

/-- A written integer with an optional sign. -/
def readInt? (s : String) : Option Int :=
  let (negative, digits) := splitSign s.toList
  (Digits.read? 10 digits).map fun n => if negative then -(n : Int) else n

/-- A written integer that admits a plus sign only. -/
def readNat? (s : String) : Option Nat :=
  match s.toList with
  | '+' :: cs => Digits.read? 10 cs
  | cs => Digits.read? 10 cs

theorem readNat?_toString (n : Nat) : readNat? (toString n) = some n := by
  have hread := Digits.read?_toDigits n
  have hplus : '+' ∉ Nat.toDigits 10 n := fun hmem => by
    simpa using Nat.isDigit_of_mem_toDigits (by omega) (by omega) hmem
  rw [readNat?, Nat.toString_eq_repr, Nat.toList_repr]
  split
  · rename_i cs heq
    rw [heq] at hplus
    exact absurd List.mem_cons_self hplus
  · exact hread

def fitsInt64 (n : Int) : Bool := -(Nat.pow 2 63 : Int) ≤ n && n < Nat.pow 2 63

/-- A written integer of 64 bits with a sign. -/
def readInt64? (s : String) : Option Int := (readInt? s).filter fitsInt64

/-- A written integer of 64 bits without a minus sign. -/
def readUInt64? (s : String) : Option Nat := (readNat? s).filter (· < Nat.pow 2 64)

end GradleBuild
