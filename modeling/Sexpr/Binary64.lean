import Sexpr.Numeral.Decimal

/-!
# Binary floating-point numbers of 64 bits

A number is its sign and the natural number that its other 63 bits spell. Finite numbers are
`± significand * 2 ^ exponent`, and since the codes of the finite magnitudes come in the order of
their values, rounding ends in a sum: the code of `m * 2 ^ q` is `(q + 1074) * 2 ^ 52 + m`.

* `Binary64.same` is the comparison of IEEE 754: the two zeros are equal, and a NaN is equal to
  nothing.
* `Binary64.ofQuotient` is the number nearest to a quotient of natural numbers, of two equally
  near ones the one with an even significand, and `Binary64.ofDecimal` the one nearest to a
  decimal number.
-/

namespace Sexpr

/-- A floating-point number: its sign, and the code of its magnitude, which has 63 bits. -/
structure Binary64 where
  negative : Bool
  magnitude : Fin 0x8000000000000000
  deriving DecidableEq

namespace Binary64

/-- The number of codes that share an exponent: `2 ^ 52`. -/
def binade : Nat := 0x10000000000000

/-- The code of infinity; the codes above it are those of NaN. -/
def infinityCode : Nat := 2047 * binade

theorem infinityCode_lt : infinityCode < 0x8000000000000000 := by decide

/-- Zero, with a sign. -/
def zero (negative : Bool) : Binary64 := ⟨negative, 0⟩

/-- Infinity, with a sign. -/
def infinity (negative : Bool) : Binary64 := ⟨negative, ⟨infinityCode, infinityCode_lt⟩⟩

def isNaN (x : Binary64) : Bool := infinityCode < x.magnitude

def isInfinite (x : Binary64) : Bool := x.magnitude = infinityCode

def isZero (x : Binary64) : Bool := x.magnitude.val = 0

/-- Equality of numbers: the two zeros are equal, a NaN differs from everything. -/
def same (x y : Binary64) : Bool :=
  !x.isNaN && !y.isNaN && (x = y || x.isZero && y.isZero)

/-! ## The value of a finite number -/

/-- The significand: 53 bits, or less next to zero. -/
def significand (x : Binary64) : Nat :=
  if x.magnitude < binade then x.magnitude else binade + x.magnitude % binade

/-- The exponent of the last bit of the significand. -/
def exponent (x : Binary64) : Int :=
  ((if x.magnitude < binade then 1 else x.magnitude / binade : Nat) : Int) - 1075

/-! ## Bits -/

/-- The 64 bits as a natural number. -/
def toBits (x : Binary64) : Nat :=
  (if x.negative then 0x8000000000000000 else 0) + x.magnitude

/-- The number that 64 bits spell. -/
def ofBits (bits : Nat) : Binary64 :=
  ⟨bits / 0x8000000000000000 % 2 = 1,
    ⟨bits % 0x8000000000000000, Nat.mod_lt _ (by decide)⟩⟩

/-! ## Rounding -/

/-- The whole number nearest to `num / den`; a half goes to the even neighbour. -/
def divNearest (num den : Nat) : Nat :=
  let quotient := num / den
  let twice := 2 * (num % den)
  if den < twice ∨ (twice = den ∧ quotient % 2 = 1) then quotient + 1 else quotient

/-- `num / den / 2 ^ q` as a quotient of natural numbers. -/
def scale (num den : Nat) (q : Int) : Nat × Nat :=
  if 0 ≤ q then (num, den <<< q.toNat) else (num <<< (-q).toNat, den)

/-- The exponent at which `num / den` has a significand of 53 bits, or the least exponent. -/
def roundingExponent (num den : Nat) : Int :=
  let q : Int := (num.log2 : Int) - den.log2 - 52
  let (n, d) := scale num den q
  max (if n < d * binade then q - 1 else q) (-1074)

/-- The number with a code, which stops at infinity. -/
def ofCode (negative : Bool) (code : Nat) : Binary64 :=
  ⟨negative, ⟨min code infinityCode, Nat.lt_of_le_of_lt (Nat.min_le_right _ _) infinityCode_lt⟩⟩

/-- The number nearest to `num / den`, of two equally near ones the even one; infinity from
`2 ^ 1024 - 2 ^ 970` on. -/
def ofQuotient (negative : Bool) (num den : Nat) : Binary64 :=
  if num = 0 then zero negative
  else
    let q := roundingExponent num den
    let scaled := scale num den q
    ofCode negative ((q + 1074).toNat * binade + divNearest scaled.1 scaled.2)

/-- The number nearest to a decimal number. A number of at least `10 ^ 400` is not worked out, nor
one below `10 ^ (-400)`: the first is infinite and the second zero. -/
def ofDecimal (d : Decimal) : Binary64 :=
  if d.coefficient = 0 then zero d.negative
  else if 400 < d.exponent then infinity d.negative
  else if d.exponent < -(400 + d.coefficient.log2 : Int) then zero d.negative
  else if 0 ≤ d.exponent then ofQuotient d.negative (d.coefficient * Nat.pow 10 d.exponent.toNat) 1
  else ofQuotient d.negative d.coefficient (Nat.pow 10 (-d.exponent).toNat)

end Binary64

end Sexpr
