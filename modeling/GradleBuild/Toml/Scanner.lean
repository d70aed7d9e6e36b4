import GradleBuild.Number.Integer

/-!
# Characters, blanks and strings of TOML

A reader takes the characters that are left and gives what it has read with the rest, or nothing where the text is no
TOML.  Lines end in a line feed with or without a carriage return before it.
-/

namespace GradleBuild.Toml

/-- A blank within a line. -/
def isInlineBlank (c : Char) : Bool := c = ' ' || c = '\t'

/-- Whether a character may stand in a comment or a string: no control character but the tab. -/
def isPlain (c : Char) : Bool := c = '\t' || (0x20 ≤ c.toNat && c.toNat != 0x7F)

def skipBlanks (cs : List Char) : List Char := cs.dropWhile isInlineBlank

/-- The rest after the end of a line. -/
def newline? : List Char → Option (List Char)
  | '\n' :: cs => some cs
  | '\r' :: '\n' :: cs => some cs
  | _ => none

/-- A comment up to the end of its line, which is left. -/
def skipComment : List Char → List Char
  | '#' :: cs => cs.dropWhile isPlain
  | cs => cs

/-- Blanks and a comment, and then the end of the line or of the text. -/
def endOfLine? (cs : List Char) : Option (List Char) :=
  match skipComment (skipBlanks cs) with
  | [] => some []
  | rest => newline? rest

/-- Blanks, comments and ends of lines, as often as they come; `comment` says whether a comment has begun. -/
def skipTriviaFrom (comment : Bool) : List Char → List Char
  | [] => []
  | '\n' :: cs => skipTriviaFrom false cs
  | '\r' :: '\n' :: cs => skipTriviaFrom false cs
  | c :: cs =>
    if comment then
      if isPlain c then skipTriviaFrom true cs else c :: cs
    else if isInlineBlank c then skipTriviaFrom false cs
    else if c = '#' then skipTriviaFrom true cs
    else c :: cs

def skipTrivia (cs : List Char) : List Char := skipTriviaFrom false cs

/-- Blanks and ends of lines, as often as they come. -/
def skipBlankLines : List Char → List Char
  | [] => []
  | '\n' :: cs => skipBlankLines cs
  | '\r' :: '\n' :: cs => skipBlankLines cs
  | c :: cs => if isInlineBlank c then skipBlankLines cs else c :: cs

/-! ### Strings -/

/-- The character with a given code point, if there is one. -/
def character? (n : Nat) : Option Char :=
  if n < 0xD800 ∨ (0xE000 ≤ n ∧ n < 0x110000) then some (Char.ofNat n) else none

/-- A character written with `count` hexadecimal digits. -/
def hexEscape? (count : Nat) (cs : List Char) : Option (Char × List Char) :=
  let digits := cs.take count
  if digits.length = count then
    match (Digits.read? 16 digits).bind character? with
    | some c => some (c, cs.drop count)
    | none => none
  else none

/-- What a backslash stands for with the characters behind it. -/
def escape? : List Char → Option (Char × List Char)
  | 'b' :: cs => some ('\x08', cs)
  | 't' :: cs => some ('\t', cs)
  | 'n' :: cs => some ('\n', cs)
  | 'f' :: cs => some ('\x0c', cs)
  | 'r' :: cs => some ('\r', cs)
  | 'e' :: cs => some ('\x1b', cs)
  | '"' :: cs => some ('"', cs)
  | '\\' :: cs => some ('\\', cs)
  | 'x' :: cs => hexEscape? 2 cs
  | 'u' :: cs => hexEscape? 4 cs
  | 'U' :: cs => hexEscape? 8 cs
  | _ => none

/-- A string on one line with escapes, after its opening quotation mark.  The number bounds the characters read. -/
def basicFrom : Nat → List Char → Option (List Char × List Char)
  | 0, _ => none
  | fuel + 1, cs =>
    match cs with
    | [] => none
    | '"' :: rest => some ([], rest)
    | '\\' :: rest =>
      match escape? rest with
      | some (c, rest) => (basicFrom fuel rest).map fun (s, r) => (c :: s, r)
      | none => none
    | c :: rest => if isPlain c then (basicFrom fuel rest).map fun (s, r) => (c :: s, r) else none

/-- A string on one line without escapes, after its opening quotation mark. -/
def literal? (cs : List Char) : Option (List Char × List Char) :=
  let body := cs.takeWhile fun c => isPlain c && c != '\''
  match cs.drop body.length with
  | '\'' :: rest => some (body, rest)
  | _ => none

/-- Of a row of quotation marks at least three long, at most two belong to the string before the three that end it. -/
def closing? (quote : Char) (cs : List Char) : Option (List Char × List Char) :=
  let count := (cs.takeWhile (· == quote)).length
  if count < 3 then none
  else
    let kept := min (count - 3) 2
    some (List.replicate kept quote, cs.drop (kept + 3))

/-- After a backslash at the end of a line: the rest from the next character that is neither blank nor the end of a
line. -/
def continuation? (cs : List Char) : Option (List Char) := (newline? (skipBlanks cs)).map skipBlankLines

/-- A string over several lines, after its opening quotation marks, with escapes if `escapes` holds. -/
def multilineFrom (quote : Char) (escapes : Bool) : Nat → List Char → Option (List Char × List Char)
  | 0, _ => none
  | fuel + 1, cs =>
    match closing? quote cs with
    | some done => some done
    | none =>
      match cs with
      | [] => none
      | '\\' :: rest =>
        if escapes then
          match escape? rest with
          | some (c, rest) => (multilineFrom quote escapes fuel rest).map fun (s, r) => (c :: s, r)
          | none => (continuation? rest).bind (multilineFrom quote escapes fuel)
        else (multilineFrom quote escapes fuel rest).map fun (s, r) => ('\\' :: s, r)
      | '\r' :: '\n' :: rest => (multilineFrom quote escapes fuel rest).map fun (s, r) => ('\r' :: '\n' :: s, r)
      | c :: rest =>
        if isPlain c || c = '\n' then (multilineFrom quote escapes fuel rest).map fun (s, r) => (c :: s, r) else none

/-- An end of line right behind the opening quotation marks does not belong to the string. -/
def dropFirstNewline (cs : List Char) : List Char := (newline? cs).getD cs

/-- A string in any of the four notations. -/
def string? (cs : List Char) : Option (String × List Char) :=
  let read :=
    match cs with
    | '"' :: '"' :: '"' :: rest => multilineFrom '"' true (cs.length + 1) (dropFirstNewline rest)
    | '\'' :: '\'' :: '\'' :: rest => multilineFrom '\'' false (cs.length + 1) (dropFirstNewline rest)
    | '"' :: rest => basicFrom (cs.length + 1) rest
    | '\'' :: rest => literal? rest
    | _ => none
  read.map fun (s, rest) => (String.ofList s, rest)

/-! ### Keys -/

def isBareKeyChar (c : Char) : Bool := c.isAlphanum || c = '_' || c = '-'

/-- One name of a key: bare, or a string on one line. -/
def keyName? (cs : List Char) : Option (String × List Char) :=
  match cs with
  | '"' :: rest => (basicFrom (rest.length + 1) rest).map fun (s, r) => (String.ofList s, r)
  | '\'' :: rest => (literal? rest).map fun (s, r) => (String.ofList s, r)
  | _ =>
    let name := cs.takeWhile isBareKeyChar
    if name.isEmpty then none else some (String.ofList name, cs.drop name.length)

/-- Names with dots between them; blanks may stand around each.  The number bounds the names read. -/
def keyFrom : Nat → List Char → Option (List String × List Char)
  | 0, _ => none
  | fuel + 1, cs =>
    match keyName? (skipBlanks cs) with
    | none => none
    | some (name, rest) =>
      match skipBlanks rest with
      | '.' :: rest => (keyFrom fuel rest).map fun (names, r) => (name :: names, r)
      | rest => some ([name], rest)

def key? (cs : List Char) : Option (List String × List Char) := keyFrom (cs.length + 1) cs

end GradleBuild.Toml
