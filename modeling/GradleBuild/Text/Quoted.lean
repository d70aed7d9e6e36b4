import GradleBuild.Text.Printable
import GradleBuild.Text.Utf8

/-!
# Quoted text

Messages show a foreign text between double quotes with everything escaped that would not show as itself: five
characters have short escapes, the others are written by their code point in hexadecimal.  Bytes that are not UTF-8
are written one by one as `\xFF`.
-/

namespace GradleBuild

namespace Quoted

/-- The digits of `n` to the base 16, in lower case and without leading zeros. -/
def hex (n : Nat) : List Char := Nat.toDigits 16 n

/-- A character inside quotes; `quotes` are the quotation marks that get a backslash. -/
def char (quotes : List Char) (c : Char) : List Char :=
  match c with
  | '\x00' => ['\\', '0']
  | '\t' => ['\\', 't']
  | '\n' => ['\\', 'n']
  | '\r' => ['\\', 'r']
  | '\\' => ['\\', '\\']
  | c =>
    if c ∈ quotes then ['\\', c]
    else if isShownAsIs c then [c]
    else ['\\', 'u', '\x7b'] ++ hex c.toNat ++ ['\x7d']

def upperHexDigit (n : Nat) : Char := (Nat.digitChar n).toUpper

/-- A byte that belongs to no character. -/
def byte (b : UInt8) : List Char := ['\\', 'x', upperHexDigit (b.toNat / 16), upperHexDigit (b.toNat % 16)]

end Quoted

/-- A text between double quotes. -/
def quoted (s : String) : String :=
  String.ofList ('"' :: s.toList.flatMap (Quoted.char ['"']) ++ ['"'])

/-- Bytes between double quotes; here a single quote is escaped as well. -/
def quotedBytes (bs : Bytes) : String :=
  String.ofList ('"' :: (Utf8.parts bs).flatMap (fun
    | .inl c => Quoted.char ['"', '\''] c
    | .inr broken => broken.flatMap Quoted.byte) ++ ['"'])

end GradleBuild
