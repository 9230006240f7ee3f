import Sexpr.Binary64
import Sexpr.Numeral.Blocks

/-!
# Shortest decimal text

`Binary64.shortest` is the decimal number with the fewest digits among those that round to a
given finite number, and of these the nearest. The grids of multiples of `10 ^ k` are tried from
the coarsest down. If a grid has a point that rounds to the number, then one of the number's two
neighbours on that grid does, so two candidates are enough.

A `Spelling` holds what is left open after the digits are known, and `Binary64.spell` writes a
number by it: positional from `10 ^ (-4)` up to `10 ^ 16`, with an exponent outside of that.
-/

namespace Sexpr

namespace Binary64

/-- The magnitude of a finite number in units of `10 ^ k`, as a quotient of natural numbers. -/
def inUnits (x : Binary64) (k : Int) : Nat × Nat :=
  let (n, d) := scale x.significand 1 (-x.exponent)
  if 0 ≤ k then (n, d * Nat.pow 10 k.toNat) else (n * Nat.pow 10 (-k).toNat, d)

/-- Whether a decimal number rounds to `x`. -/
def readsAs (d : Decimal) (x : Binary64) : Bool := ofDecimal d = x

/-- The multiple of `10 ^ k` that rounds to `x`, the nearer one if both neighbours do, and the even
one if they are equally near. -/
def onGrid? (x : Binary64) (k : Int) : Option Decimal :=
  let (n, d) := x.inUnits k
  let near := divNearest n d
  let far := if near = n / d then near + 1 else n / d
  [⟨x.negative, near, k⟩, ⟨x.negative, far, k⟩].find? (readsAs · x)

/-- Tries `count` grids, from `10 ^ k` to the finer ones. -/
def searchGrids (x : Binary64) : Nat → Int → Option Decimal
  | 0, _ => none
  | count + 1, k => (x.onGrid? k).or (x.searchGrids count (k - 1))

/-- A power of ten above the magnitude: the number of its bits times a little more than the
logarithm of two. -/
def topGrid (x : Binary64) : Int :=
  (x.exponent + x.significand.log2 + 1) * 30103 / 100000 + 1

/-- The value of a finite number, digit for digit. -/
def exactDecimal (x : Binary64) : Decimal :=
  if 0 ≤ x.exponent then ⟨x.negative, x.significand <<< x.exponent.toNat, 0⟩
  else ⟨x.negative, x.significand * Nat.pow 5 (-x.exponent).toNat, x.exponent⟩

/-- The decimal number with the fewest digits that rounds to `x`. Seventeen digits are always
enough, and `topGrid` lies at most a few grids above the first of them. -/
def shortest (x : Binary64) : Decimal :=
  if x.isZero then ⟨x.negative, 0, 0⟩ else (x.searchGrids 24 x.topGrid).getD x.exactDecimal

/-! ## Text -/

/-- The texts that differ between one way of writing numbers and another. -/
structure Spelling where
  /-- An infinite magnitude. -/
  infinite : String
  /-- A NaN, which shows no sign. -/
  nan : String
  /-- The sign of an exponent that is not negative. -/
  plus : String
  /-- What stands between a single digit and its exponent. -/
  pointAfterOne : String

/-- The short form of a number, for reports. -/
def plainSpelling : Spelling := ⟨"inf", "nan", "+", ""⟩

/-- The form that reads back as a number: it always has a point, and infinity is a number too
large to be finite. -/
def sourceSpelling : Spelling := ⟨"1.0e999", "nan.0", "", ".0"⟩

/-- Digits without an exponent. The first of them stands for a multiple of `10 ^ place`. -/
def positional (ds : List Char) (place : Int) : List Char :=
  if place < 0 then '0' :: '.' :: List.replicate (-place - 1).toNat '0' ++ ds
  else
    let whole := place.toNat + 1
    if ds.length ≤ whole then ds ++ List.replicate (whole - ds.length) '0' ++ ['.', '0']
    else ds.take whole ++ '.' :: ds.drop whole

/-- An exponent of at least two digits. -/
def exponentText (spelling : Spelling) (place : Int) : List Char :=
  let ds := Nat.toDigits 10 place.natAbs
  'e' :: (if place < 0 then ['-'] else spelling.plus.toList) ++
    List.replicate (2 - ds.length) '0' ++ ds

/-- Digits with an exponent: one digit stands before the point. -/
def scientific (spelling : Spelling) (ds : List Char) (place : Int) : List Char :=
  match ds with
  | [] => []
  | [d] => d :: spelling.pointAfterOne.toList ++ exponentText spelling place
  | d :: more => d :: '.' :: more ++ exponentText spelling place

/-- The text of a decimal number. -/
def spellDecimal (spelling : Spelling) (d : Decimal) : List Char :=
  let ds := Nat.toDigits 10 d.coefficient
  let place : Int := d.exponent + ds.length - 1
  (if d.negative then ['-'] else []) ++
    (if -4 ≤ place ∧ place < 16 then positional ds place else scientific spelling ds place)

/-- The text of a number, in the fewest digits that read back. -/
def spell (spelling : Spelling) (x : Binary64) : String :=
  if x.isNaN then spelling.nan
  else if x.isInfinite then (if x.negative then "-" else "") ++ spelling.infinite
  else String.ofList (spellDecimal spelling x.shortest)

end Binary64

end Sexpr
