import Sexpr.Unicode.Printable

/-!
# Text as a quoted literal

`literal s` shows a text between quotes so that every character of it can be told: the quote in
use and the backslash are escaped, line breaks and tabs have letters, and what does not print is
given by its code point.
-/

namespace Sexpr

namespace Text

/-- The hexadecimal digits of `n`, with zeros in front up to `width`. -/
def hexDigits (width n : Nat) : List Char :=
  let digits := Nat.toDigits 16 n
  List.replicate (width - digits.length) '0' ++ digits

/-- A code point in the shortest of the three escapes that hold it. -/
def escapeCode (code : Nat) : List Char :=
  if code < 0x100 then '\\' :: 'x' :: hexDigits 2 code
  else if code < 0x10000 then '\\' :: 'u' :: hexDigits 4 code
  else '\\' :: 'U' :: hexDigits 8 code

/-- A character inside a literal that stands between two `mark`s. -/
def escape (mark c : Char) : List Char :=
  if c = mark || c = '\\' then ['\\', c]
  else if c = '\n' then ['\\', 'n']
  else if c = '\r' then ['\\', 'r']
  else if c = '\t' then ['\\', 't']
  else if Unicode.isPrintable c then [c]
  else escapeCode c.toNat

/-- The apostrophe. -/
def apostrophe : Char := '\x27'

/-- The double quote. -/
def doubleQuote : Char := '\x22'

/-- The mark around a literal: the double quote for a text that holds an apostrophe and no double
quote, else the apostrophe. -/
def literalMark (cs : List Char) : Char :=
  if apostrophe ∈ cs ∧ doubleQuote ∉ cs then doubleQuote else apostrophe

/-- A text between quotes. -/
def literal (s : String) : String :=
  let mark := literalMark s.toList
  String.ofList (mark :: s.toList.flatMap (escape mark) ++ [mark])

end Text

end Sexpr
