import Sexpr.Reader
import Sexpr.Tree.Equivalence
import Sexpr.Tree.Linked
import Sexpr.Tree.Render

/-!
# Self-check

A fixed list of small readings with what must come of them. `SelfCheck.report?` is the report if
all of them hold.
-/

namespace Sexpr

namespace SelfCheck

/-- Reads a text with the default settings. -/
def read (text : String) : Tree := parse text {}

/-- The atoms of a chain before its sentinel. -/
def atoms (t : Tree) : List Atom := t.forms.map (·.atom)

/-- A list, its elements in order, and the end of the text. -/
def listCheck : Bool :=
  let t := read "(+ 1 2)"
  t.head? = some .branch && t.next.head? = some .nil &&
    atoms t.child = [.symbol "+", .int 1, .int 2]

/-- A list inside a list. -/
def nestedCheck : Bool :=
  match (read "(a (b c) d)").child.forms with
  | [a, inner, d] =>
    a.atom = .symbol "a" && d.atom = .symbol "d" &&
      atoms inner.child = [.symbol "b", .symbol "c"]
  | _ => false

/-- A comment leaves no trace. -/
def commentCheck : Bool := (read "; comment\n(x)").equivalent (read "(x)")

/-- A quotation mark is a node of its own. -/
def quoteCheck : Bool :=
  let t := read "'x"
  t.head? = some .quote && t.next.head? = some (.symbol "x") && t.next.next.head? = some .nil

/-- A string without its quotes. -/
def stringCheck : Bool := (read "\"hello\"").head? = some (.string "hello")

/-- Numbers, and a token that is none. -/
def numberCheck : Bool :=
  atoms (read "(1 12a 2.5e1)").child =
    [.int 1, .error "Can't parse: <12a>", .float (Binary64.ofDecimal ⟨false, 25, 0⟩)]

/-- A truncated text: what was read, what is reported, and nothing more to read. -/
def truncationCheck : Bool :=
  let (t, reader) := (Reader.ofText "(a \"abc".toList {}).parse
  (Linked.validateTree t).isOk && atoms t.child = [.symbol "a"] &&
    reader.diagnostics.map (·.cause.anomaly) = [.unterminatedString, .unterminatedList] &&
    reader.parse.1.head? = some .nil

/-- Texts that are read again from their plain rendering. -/
def rereadCheck : Bool :=
  ["(+ 1 2)", "(define (f x) '(x (y) -3))", "(()) a"].all fun source =>
    let t := read source
    (read (t.render .plain)).equivalent t

/-- Deep nesting. -/
def depthCheck : Bool :=
  let source := String.ofList (List.replicate 3000 '(' ++ List.replicate 3000 ')')
  (read source).render .plain = source

/-- Whether all checks hold. -/
def holds : Bool :=
  listCheck && nestedCheck && commentCheck && quoteCheck && stringCheck && numberCheck &&
    truncationCheck && rereadCheck && depthCheck

/-- The report, if all checks hold. -/
def report? : Option String := if holds then some "all passed\n" else none

end SelfCheck

end Sexpr
