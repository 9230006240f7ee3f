import Sexpr.Numeral.Whole

/-!
# Settings of the reader

A `ReaderConfig` bounds the nesting and says whether a truncated text shows in the tree.
`ReaderConfig.ofSettings` makes one from values of any type, and `ConfigError` tells what is wrong
with them.
-/

namespace Sexpr

/-- A count as it was given: an integer, or a truth value, which counts as one or zero. -/
inductive Count where
  | integer (n : Int)
  | truth (b : Bool)
  deriving DecidableEq

namespace Count

def value : Count → Int
  | integer n => n
  | truth b => if b then 1 else 0

/-- A count prints the way it was given. -/
def text : Count → String
  | integer n => Numeral.intText n
  | truth b => if b then "True" else "False"

end Count

/-- The deepest nesting that is kept: a positive count. -/
structure Limit where
  count : Count
  pos : 0 < count.value
  deriving DecidableEq

/-- The limit as it prints. -/
def Limit.text (limit : Limit) : String := limit.count.text

/-- How a text is read. -/
structure ReaderConfig where
  /-- Lists nested deeper become errors; without a limit none does. -/
  maxDepth : Option Limit := none
  /-- Whether an error stands where the text ends inside a string or a list. -/
  reportUnterminated : Bool := false
  deriving DecidableEq

/-- What can be wrong with a setting. -/
inductive ConfigError where
  /-- A value of a type that the setting does not take. -/
  | wrongType
  /-- A limit of zero or less. -/
  | notPositive (count : Count)
  deriving DecidableEq

/-- The wording of the error; a wrong type has none, and a long count cannot be shown. -/
def ConfigError.message : ConfigError → String
  | wrongType => ""
  | notPositive count =>
    if Numeral.isShort count.value then "max_depth must be positive, got " ++ count.text
    else Numeral.tooLongText ""

/-- A value that a setting was given. -/
inductive Setting where
  | null
  | count (c : Count)
  /-- A value of any other type. -/
  | other
  deriving DecidableEq

/-- A positive count as a limit. -/
def Limit.ofCount (c : Count) : Except ConfigError Limit :=
  if h : 0 < c.value then .ok ⟨c, h⟩ else .error (.notPositive c)

namespace ReaderConfig

/-- The limit that a setting stands for. -/
def limitOf : Setting → Except ConfigError (Option Limit)
  | .null => .ok none
  | .count c => (Limit.ofCount c).map some
  | .other => .error .wrongType

/-- The truth value that a setting stands for. -/
def truthOf : Setting → Except ConfigError Bool
  | .count (.truth b) => .ok b
  | _ => .error .wrongType

/-- The settings of a reader, the limit checked first. -/
def ofSettings (maxDepth reportUnterminated : Setting) : Except ConfigError ReaderConfig := do
  let limit ← limitOf maxDepth
  let strict ← truthOf reportUnterminated
  return ⟨limit, strict⟩

end ReaderConfig

end Sexpr
