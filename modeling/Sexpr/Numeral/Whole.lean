import Sexpr.Numeral.Blocks
import Sexpr.Numeral.Decimal
import Sexpr.Unicode.Blank
import Sexpr.Unicode.Digit

/-!
# Integers in one piece

An integer that a user types as a setting, and one that a report shows, is converted in one piece.
That takes at most `maxDigits` digits, unlike the blocks that the numerals of a text are cut into.

* `readInteger` reads a setting: blanks around the integer do not count, one sign may stand in
  front, the digits may be of any script, and one underscore may stand between two digits. A
  `Refusal` tells why a text is not read.
* `shortText?` writes an integer that is short enough.
-/

namespace Sexpr

namespace Numeral

/-- The most digits that are converted in one piece. -/
@[irreducible] def maxDigits : Nat := 4300

theorem maxDigits_eq : maxDigits = 4300 := by unfold maxDigits; rfl

/-- The wording for an integer with more digits; `detail` may say with how many. -/
def tooLongText (detail : String) : String :=
  "Exceeds the limit (" ++ toString maxDigits ++ " digits) for integer string conversion" ++
    detail ++ "; use sys.set_int_max_str_digits() to increase the limit"

/-! ## Reading -/

/-- Why a text is not read as an integer. -/
inductive Refusal where
  /-- It is none. -/
  | notInteger
  /-- It has more digits than are converted in one piece. -/
  | tooLong (count : Nat)
  deriving DecidableEq

/-- Digits at the front of a text: their value, their number, and what stands behind them. -/
structure Scan where
  value : Nat
  count : Nat
  rest : List Char
  deriving DecidableEq

/-- Goes along digits with single underscores between them, behind `count` digits that amount to
`value`. `must` says that a digit has to come next. -/
def scan? (must : Bool) (value count : Nat) : List Char → Option Scan
  | [] => if must then none else some ⟨value, count, []⟩
  | c :: cs =>
    match Unicode.digitValue? c with
    | some d => scan? false (10 * value + d) (count + 1) cs
    | none =>
      if must then none
      else if c = '_' then scan? true value count cs
      else some ⟨value, count, c :: cs⟩

/-- The integer that a setting spells. The digits are counted before it is looked at what stands
behind them. -/
def readInteger (cs : List Char) : Except Refusal Int :=
  let (negative, body) := Decimal.splitSign (cs.dropWhile Unicode.isBlank)
  match scan? true 0 0 body with
  | none => .error .notInteger
  | some digits =>
    if maxDigits < digits.count then .error (.tooLong digits.count)
    else if digits.rest.all Unicode.isBlank then
      .ok (if negative then -(digits.value : Int) else digits.value)
    else .error .notInteger

/-! ## Writing -/

/-- Whether the numeral of an integer has no more digits than are converted in one piece. -/
def isShort (n : Int) : Bool := n.natAbs < Nat.pow 10 maxDigits

theorem isShort_natCast (n : Nat) : isShort n = decide (n < Nat.pow 10 maxDigits) := rfl

/-- The least integer that is too long. -/
theorem isShort_pow : isShort (Nat.pow 10 maxDigits) = false := by
  rw [isShort_natCast]
  exact decide_eq_false (Nat.lt_irrefl _)

/-- The numeral of an integer, written in one piece. -/
def shortText? (n : Int) : Option String := if isShort n then some (intText n) else none

end Numeral

end Sexpr
