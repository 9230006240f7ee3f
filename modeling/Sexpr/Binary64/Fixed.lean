import Sexpr.Binary64
import Sexpr.Numeral.Blocks

/-!
# Text with six decimal places

`Binary64.fixed` writes a number with six places behind the point. The last one is rounded from
the exact value, and a half goes to the even neighbour.
-/

namespace Sexpr

namespace Binary64

/-- The number of places behind the point. -/
def places : Nat := 6

/-- The number of last places in one. -/
def lastPlaces : Nat := Nat.pow 10 places

/-- The magnitude of a finite number in units of the last place, rounded. -/
def inLastPlaces (x : Binary64) : Nat :=
  let (n, d) := scale x.significand 1 (-x.exponent)
  divNearest (n * lastPlaces) d

/-- A count of last places, with a point in front of them. -/
def fixedDigits (n : Nat) : List Char :=
  let whole := Numeral.digits (n / lastPlaces)
  let fraction := Nat.toDigits 10 (n % lastPlaces)
  whole ++ '.' :: List.replicate (places - fraction.length) '0' ++ fraction

/-- The text of a number with six decimal places. A minus stands also before a zero. -/
def fixed (x : Binary64) : String :=
  if x.isNaN then "nan"
  else
    let sign := if x.negative then "-" else ""
    if x.isInfinite then sign ++ "inf" else sign ++ String.ofList (fixedDigits x.inLastPlaces)

end Binary64

end Sexpr
