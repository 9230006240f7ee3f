import Sexpr.Atom

/-!
# Tokens

A token is a row of characters that the reader has put together. Five predicates say which literal
it is; they are independent of each other, and `ofToken` asks them in a fixed order.

* `isInt`, `isFloat`, `isString`, `isSymbol` and `isQuote` are the predicates.
* `intValue?` and `floatValue?` convert a token. Both can refuse, and neither does for a token that
  passes its predicate.
* `Atom.ofToken` is the atom of a token: the first literal that fits, or an error.
-/

namespace Sexpr

namespace Token

/-- The characters that end a token and mean nothing else. -/
def isSpace (c : Char) : Bool := c = ' ' || c = '\t' || c = '\n' || c = '\r'

/-! ## Predicates -/

/-- One or more decimal digits of ASCII. -/
def isNatural (t : List Char) : Bool := t ≠ [] && t.all Char.isDigit

/-- A natural number, perhaps with a minus in front. -/
def isInt : List Char → Bool
  | '-' :: ds => isNatural ds
  | t => isNatural t

/-- What stands before the first `c` and what stands behind it. -/
def splitFirst? (c : Char) : List Char → Option (List Char × List Char)
  | [] => none
  | d :: t => if d = c then some ([], t) else (splitFirst? c t).map fun (a, b) => (d :: a, b)

/-- What stands before and behind the first `e`, or the first `E` if there is no `e`. -/
def splitExponent? (t : List Char) : Option (List Char × List Char) :=
  (splitFirst? 'e' t).or (splitFirst? 'E' t)

/-- What may stand behind the point of a float: digits or nothing, and then perhaps an exponent. -/
def isFraction (t : List Char) : Bool :=
  match splitExponent? t with
  | none => t = [] || isNatural t
  | some (ds, exponent) => (ds = [] || isNatural ds) && isInt exponent

/-- An integer or nothing, a point, and a fraction. A point alone is not a float. -/
def isFloat (t : List Char) : Bool :=
  match splitFirst? '.' t with
  | none => false
  | some (whole, fraction) =>
    (whole = [] || isInt whole) && !(whole = [] && fraction = []) && isFraction fraction

/-- At least two characters, the first and the last a double quote. -/
def isString (t : List Char) : Bool :=
  1 < t.length && t.head? = some '"' && t.getLast? = some '"'

/-- The characters that no symbol holds. -/
def breaksSymbol (c : Char) : Bool := c = Text.apostrophe || c = '"' || c = '\\'

/-- Not empty, without quotes and backslashes, and not starting with a digit. -/
def isSymbol : List Char → Bool
  | [] => false
  | c :: t => !c.isDigit && !(c :: t).any breaksSymbol

/-- The mark of a quotation. -/
def isQuote (t : List Char) : Bool := t = [Text.apostrophe]

/-! ## Conversion -/

/-- The integer that a token spells, read in blocks of digits. -/
def intValue? : List Char → Option Int
  | '-' :: ds => (Numeral.value? ds).map fun n => -(n : Int)
  | ds => (Numeral.value? ds).map fun n => (n : Int)

/-- The digits of a float before its exponent, with its sign. -/
def mantissa (t : List Char) : List Char :=
  match splitFirst? '.' t with
  | none => t
  | some (whole, fraction) => whole ++ ((splitExponent? fraction).map (·.1)).getD fraction

/-- The float nearest to the decimal number that a token spells. Without a digit before the
exponent it is zero, and the token is not read as a number. -/
def floatValue? (t : List Char) : Option Binary64 :=
  if (mantissa t).any Char.isDigit then (Decimal.read? t).map Binary64.ofDecimal
  else some (Binary64.zero false)

end Token

namespace Atom

/-- The error of a token that is no literal. -/
def unreadable (t : List Char) : Atom := error ("Can't parse: <" ++ String.ofList t ++ ">")

/-- The atom of a token, or nothing if a conversion refuses the token. -/
def ofToken? (t : List Char) : Option Atom :=
  if Token.isInt t then (Token.intValue? t).map int
  else if Token.isFloat t then (Token.floatValue? t).map float
  else if Token.isString t then some (string (String.ofList (t.drop 1).dropLast))
  else if Token.isSymbol t then some (symbol (String.ofList t))
  else if Token.isQuote t then some quote
  else some (unreadable t)

/-- The atom of a token. -/
def ofToken (t : List Char) : Atom := (ofToken? t).getD (unreadable t)

end Atom

end Sexpr
