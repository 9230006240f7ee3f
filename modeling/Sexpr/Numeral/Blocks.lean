/-!
# Whole numbers in blocks of digits

A numeral of any length is read and written in blocks of a thousand digits, so that no single
conversion meets a longer one.

* `blocks` cuts a numeral from its first digit on, `readBlock?` converts one block, and `value?`
  puts them together.
* `digits` writes a number, with the blocks cut from its last digit on; `intText` adds the sign.
-/

namespace Sexpr

namespace Numeral

/-- The most digits that are converted at once. -/
@[irreducible] def blockSize : Nat := 1000

theorem blockSize_eq : blockSize = 1000 := by unfold blockSize; rfl

theorem blockSize_pos : 0 < blockSize := by rw [blockSize_eq]; decide

/-! ## Reading -/

/-- The digits in blocks of `blockSize`, the last one as long as it comes. -/
def blocks : List Char → List (List Char)
  | [] => []
  | d :: ds => (d :: ds).take blockSize :: blocks ((d :: ds).drop blockSize)
termination_by ds => ds.length
decreasing_by
  have := blockSize_pos
  simp only [List.length_drop, List.length_cons]
  omega

/-- The value of one block: between one and `blockSize` decimal digits, and nothing else. -/
def readBlock? (block : List Char) : Option Nat :=
  if block ≠ [] ∧ block.length ≤ blockSize ∧ block.all Char.isDigit then
    some (Nat.ofDigitChars 10 block 0)
  else none

/-- The value of a row of digits, block by block. -/
def value? (ds : List Char) : Option Nat :=
  (blocks ds).foldlM
    (fun high block => (readBlock? block).map (high * Nat.pow 10 block.length + ·)) 0

/-! ## Writing -/

/-- The least number that does not fit into a block. -/
def blockLimit : Nat := Nat.pow 10 blockSize

theorem one_lt_blockLimit : 1 < blockLimit :=
  Nat.one_lt_pow (Nat.ne_of_gt blockSize_pos) (by decide)

/-- A block behind the first one, with the zeros that fill it. -/
def fullBlock (n : Nat) : List Char :=
  let ds := Nat.toDigits 10 n
  List.replicate (blockSize - ds.length) '0' ++ ds

/-- The digits of `n`, in front of `behind`. -/
def digitsOnto (n : Nat) (behind : List Char) : List Char :=
  if n < blockLimit then Nat.toDigits 10 n ++ behind
  else digitsOnto (n / blockLimit) (fullBlock (n % blockLimit) ++ behind)
termination_by n
decreasing_by
  have := one_lt_blockLimit
  exact Nat.div_lt_self (by omega) this

/-- The decimal digits of a number. -/
def digits (n : Nat) : List Char := digitsOnto n []

/-- The decimal numeral of an integer. -/
def intText : Int → String
  | .ofNat n => String.ofList (digits n)
  | .negSucc n => String.ofList ('-' :: digits (n + 1))

end Numeral

end Sexpr
