import Sexpr.Binary64.Shortest
import Sexpr.Binary64.Fixed
import Sexpr.Numeral.Whole
import Sexpr.Text.Literal

/-!
# Atoms

An `Atom` is what one node of a tree holds: a value, the mark of a quotation, an error, the
opening of a list, or the end of a chain.

* `Atom.same` compares two atoms, floats as numbers.
* `Atom.describe?` shows an atom in a report.
* `Style` lists the four ways of writing a tree, and `Atom.text` writes one atom.
-/

namespace Sexpr

/-- The kinds of atoms. -/
inductive Kind where
  | nil
  | error
  | int
  | float
  | string
  | symbol
  | quote
  | branch
  deriving DecidableEq

/-- The name of a kind in reports. -/
def Kind.name : Kind → String
  | .nil => "NIL"
  | .error => "ERROR"
  | .int => "INT"
  | .float => "FLOAT"
  | .string => "STRING"
  | .symbol => "SYMBOL"
  | .quote => "QUOTE"
  | .branch => "BRANCH"

/-- What a node of a tree holds. -/
inductive Atom where
  /-- The end of a chain. -/
  | nil
  /-- What could not be read, with the reason. -/
  | error (message : String)
  | int (n : Int)
  | float (x : Binary64)
  /-- The characters between two double quotes. -/
  | string (s : String)
  | symbol (s : String)
  /-- The mark in front of a quoted form. -/
  | quote
  /-- A list, whose chain the node owns as its child. -/
  | branch
  deriving DecidableEq

namespace Atom

def kind : Atom → Kind
  | nil => .nil
  | error _ => .error
  | int _ => .int
  | float _ => .float
  | string _ => .string
  | symbol _ => .symbol
  | quote => .quote
  | branch => .branch

/-- Equal kinds and equal values; floats are compared as numbers. -/
def same : Atom → Atom → Bool
  | float x, float y => x.same y
  | a, b => a = b

/-- An atom in a report, with what is shown of its value. -/
def showing (a : Atom) (value : String) : String := "Atom(" ++ a.kind.name ++ ", " ++ value ++ ")"

/-- An atom in a report: its kind, and its value if the kind has one. A long integer cannot be
shown. -/
def describe? : Atom → Option String
  | int n => (Numeral.shortText? n).map (int n).showing
  | float x => some ((float x).showing (x.spell Binary64.plainSpelling))
  | error message => some ((error message).showing (Text.literal message))
  | string s => some ((string s).showing (Text.literal s))
  | symbol s => some ((symbol s).showing (Text.literal s))
  | quote => some (quote.showing (Text.literal "'"))
  | nil => some ("Atom(" ++ Kind.name .nil ++ ")")
  | branch => some ("Atom(" ++ Kind.name .branch ++ ")")

/-- A long integer is all that cannot be shown. -/
theorem exists_of_describe?_eq_none {a : Atom} (h : a.describe? = none) :
    ∃ m, a = int m ∧ Numeral.isShort m = false := by
  cases a with
  | int m =>
    refine ⟨m, rfl, Bool.eq_false_iff.2 fun hshort => ?_⟩
    simp [describe?, Numeral.shortText?, hshort] at h
  | _ => exact absurd h (Option.some_ne_none _)

end Atom

/-! ## Writing -/

/-- The ways of writing a tree. -/
inductive Style where
  /-- The forms as they are written, strings without their quotes. -/
  | plain
  /-- The forms so that they can be read again. -/
  | source
  /-- Every node, with marks for symbols and for the ends of chains. -/
  | unicode
  /-- Every node, without marks. -/
  | ascii
  deriving DecidableEq

/-- Whether the style shows the ends of chains. -/
def Style.decorated : Style → Bool
  | plain => false
  | source => false
  | unicode => true
  | ascii => true

namespace Atom

/-- A string between double quotes. Only a double quote can be escaped, for the reader drops every
backslash. -/
def quoted (s : String) : String :=
  String.ofList ('"' :: s.toList.flatMap (fun c => if c = '"' then ['\\', '"'] else [c]) ++ ['"'])

/-- The text of an atom alone; of a list, its opening. -/
def text (style : Style) : Atom → String
  | nil => if style = .unicode then "⦉" else ""
  | error message => "<Error: " ++ message ++ ">"
  | int n => Numeral.intText n
  | float x => if style = .source then x.spell Binary64.sourceSpelling else x.fixed
  | string s => if style = .plain then s else quoted s
  | symbol s => if style = .unicode then "⧼𝔰⧽" ++ s else s
  | quote => "'"
  | branch => "("

end Atom

end Sexpr
