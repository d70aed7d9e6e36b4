import GradleBuild.Toml.Moment
import GradleBuild.Toml.Value

/-!
# Words of TOML

A value without brackets or quotation marks is one word: a truth value, a number, a date or a time.
-/

namespace GradleBuild.Toml.Word

def isWordChar (c : Char) : Bool := c.isAlphanum || c ∈ ['_', '+', '-', '.', ':']

/-- Whether a date ends here and a time follows after a blank. -/
def timeFollows (word rest : List Char) : Bool :=
  match rest with
  | ' ' :: d :: _ => d.isDigit && (match Moment.date? word with | some (_, []) => true | _ => false)
  | _ => false

/-- The word at the start of a text, and the rest. -/
def take (cs : List Char) : List Char × List Char :=
  let word := cs.takeWhile isWordChar
  let rest := cs.drop word.length
  if timeFollows word rest then
    let more := rest.tail.takeWhile isWordChar
    (word ++ ' ' :: more, rest.drop (more.length + 1))
  else (word, rest)

/-- Digits to a base, with single underscores between them only; the underscores are left out. -/
def digitsOf? (base : Nat) (cs : List Char) : Option (List Char) :=
  match cs with
  | [] => none
  | c :: rest => if (Digits.value? base c).isSome then go c rest else none
where
  go (last : Char) : List Char → Option (List Char)
    | [] => some [last]
    | '_' :: d :: rest => if (Digits.value? base d).isSome then (go d rest).map (last :: ·) else none
    | c :: rest => if (Digits.value? base c).isSome then (go c rest).map (last :: ·) else none

/-- An integer to the base of its marker, which admits no sign. -/
def marked? (base : Nat) (cs : List Char) : Option Value := do
  let ds ← digitsOf? base cs
  let n ← Digits.read? base ds
  return .ofInt n

/-- Digits of a decimal integer: no zero stands in front of others. -/
def whole? (cs : List Char) : Option (List Char) := do
  let ds ← digitsOf? 10 cs
  match ds with
  | '0' :: _ :: _ => none
  | _ => return ds

def integer? (negative : Bool) (cs : List Char) : Option Value := do
  let ds ← whole? cs
  let n ← Digits.read? 10 ds
  return .ofInt (if negative then -(n : Int) else n)

def isExponentMark (c : Char) : Bool := c = 'e' || c = 'E'

/-- A number with a fraction, an exponent or both. -/
def float? (negative : Bool) (cs : List Char) : Option Value := do
  let mantissa := cs.takeWhile (!isExponentMark ·)
  let exponent ←
    match cs.drop mantissa.length with
    | [] => some 0
    | _ :: e => do
      let (minus, ds) := splitSign e
      let n ← Digits.read? 10 (← digitsOf? 10 ds)
      some (if minus then -(n : Int) else n)
  let whole := mantissa.takeWhile (· != '.')
  let wholeDigits ← whole? whole
  let fraction ←
    match mantissa.drop whole.length with
    | [] => if mantissa.length = cs.length then none else some []
    | _ :: f => digitsOf? 10 f
  let n ← Digits.read? 10 (wholeDigits ++ fraction)
  return .ofBinary64 (.ofDecimal negative n (exponent - fraction.length) (wholeDigits.length + fraction.length))

/-- A number after its sign. -/
def unsigned? (negative : Bool) (cs : List Char) : Option Value :=
  if cs = "inf".toList then some (.scalar (.float (.infinite negative)))
  else if cs = "nan".toList then some (.scalar (.float .nan))
  else
    match integer? negative cs with
    | some v => some v
    | none => float? negative cs

/-- The value of a word. -/
def read? (cs : List Char) : Option Value :=
  if cs = "true".toList then some (.scalar (.bool true))
  else if cs = "false".toList then some (.scalar (.bool false))
  else
    match cs with
    | '+' :: rest => unsigned? false rest
    | '-' :: rest => unsigned? true rest
    | '0' :: 'x' :: rest => marked? 16 rest
    | '0' :: 'o' :: rest => marked? 8 rest
    | '0' :: 'b' :: rest => marked? 2 rest
    | _ =>
      match unsigned? false cs with
      | some v => some v
      | none => (Moment.read? cs).map fun s => .scalar (.text (String.ofList s))

end GradleBuild.Toml.Word
