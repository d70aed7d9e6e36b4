import GradleBuild.Number.Integer

/-!
# Dates and times of TOML

A date, a time, or both with an optional distance from universal time.  Dates and times are read for their validity
and written in one form: a `T` between date and time, `Z` for universal time, no zeros at the end of a fraction.
-/

namespace GradleBuild.Toml.Moment

def number (cs : List Char) : Nat := (Digits.read? 10 cs).getD 0

/-- Exactly `count` decimal digits. -/
def digits? (count : Nat) (cs : List Char) : Option (Nat × List Char) :=
  let ds := cs.take count
  if ds.length = count && ds.all Char.isDigit then some (number ds, cs.drop count) else none

def expect? (c : Char) : List Char → Option (List Char)
  | d :: cs => if c = d then some cs else none
  | [] => none

/-- Decimal digits of `n`, at least `width` of them. -/
def padded (width n : Nat) : List Char :=
  let ds := Nat.toDigits 10 n
  List.replicate (width - ds.length) '0' ++ ds

def isLeapYear (year : Nat) : Bool := year % 4 == 0 && (year % 100 != 0 || year % 400 == 0)

def daysInMonth (year month : Nat) : Nat :=
  if month = 2 then (if isLeapYear year then 29 else 28)
  else if month ∈ [4, 6, 9, 11] then 30
  else 31

/-- A date of the calendar: its text and the rest. -/
def date? (cs : List Char) : Option (List Char × List Char) := do
  let (year, cs) ← digits? 4 cs
  let cs ← expect? '-' cs
  let (month, cs) ← digits? 2 cs
  let cs ← expect? '-' cs
  let (day, cs) ← digits? 2 cs
  if 1 ≤ month && month ≤ 12 && 1 ≤ day && day ≤ daysInMonth year month then
    some (padded 4 year ++ '-' :: padded 2 month ++ '-' :: padded 2 day, cs)
  else none

/-- A fraction of a second is kept to nine places, and at least to one. -/
def fractionText (ds : List Char) : List Char :=
  let kept := ((ds.take 9).reverse.dropWhile (· == '0')).reverse
  '.' :: (if kept.isEmpty then ['0'] else kept)

/-- What follows the minutes: nothing, or seconds with or without a fraction.  A minute may have a second 60. -/
def seconds? (cs : List Char) : Option (List Char × List Char) :=
  match cs with
  | ':' :: cs => do
    let (second, cs) ← digits? 2 cs
    if 60 < second then none
    else
      match cs with
      | '.' :: cs =>
        let ds := cs.takeWhile Char.isDigit
        if ds.isEmpty then none else some (':' :: padded 2 second ++ fractionText ds, cs.drop ds.length)
      | cs => some (':' :: padded 2 second, cs)
  | cs => some ([], cs)

/-- A time of the day: its text and the rest. -/
def time? (cs : List Char) : Option (List Char × List Char) := do
  let (hour, cs) ← digits? 2 cs
  let cs ← expect? ':' cs
  let (minute, cs) ← digits? 2 cs
  if 23 < hour || 59 < minute then none
  else
    let (rest, cs) ← seconds? cs
    some (padded 2 hour ++ ':' :: padded 2 minute ++ rest, cs)

/-- The distance from universal time, at most a day; none at all for a local time. -/
def offset? (cs : List Char) : Option (List Char × List Char) :=
  match cs with
  | [] => some ([], [])
  | c :: cs =>
    if c = 'Z' ∨ c = 'z' then some (['Z'], cs)
    else if c = '+' ∨ c = '-' then do
      let (hours, cs) ← digits? 2 cs
      let cs ← expect? ':' cs
      let (minutes, cs) ← digits? 2 cs
      let total := 60 * hours + minutes
      if 24 * 60 < total then none
      else
        let sign := if c = '-' ∧ total ≠ 0 then '-' else '+'
        some (sign :: padded 2 (total / 60) ++ ':' :: padded 2 (total % 60), cs)
    else none

def isDelimiter (c : Char) : Bool := c = 'T' || c = 't' || c = ' '

/-- The text of a date, a time, or both. -/
def read? (cs : List Char) : Option (List Char) :=
  match date? cs with
  | some (date, []) => some date
  | some (date, c :: rest) =>
    if isDelimiter c then do
      let (time, rest) ← time? rest
      match ← offset? rest with
      | (offset, []) => some (date ++ 'T' :: time ++ offset)
      | _ => none
    else none
  | none =>
    match time? cs with
    | some (time, []) => some time
    | _ => none

end GradleBuild.Toml.Moment
