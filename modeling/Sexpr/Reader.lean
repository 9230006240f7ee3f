import Sexpr.Reader.Level

/-!
# The reader

A `Reader` is a text with a position in it. `Reader.parse` reads on from the position, to the end
of the text or past the first closing parenthesis without an open list, and gives the chain of
what it read. It never fails: what is no literal becomes an error in the tree, and what is wrong
with the structure is noted as a diagnostic. `Reader.parseLog` are the records of these in the log.
-/

namespace Sexpr

/-- A text that is being read. -/
structure Reader where
  text : List Char
  config : ReaderConfig := {}
  /-- The number of characters before the next one; it may lie past the end. -/
  position : Nat := 0
  /-- All diagnostics so far, in order. -/
  diagnostics : List Diagnostic := []
  deriving DecidableEq

namespace Reader

/-- A reader at the start of a text. -/
def ofText (text : List Char) (config : ReaderConfig) : Reader := ⟨text, config, 0, []⟩

/-- What is unread. -/
def remaining (r : Reader) : List Char := r.text.drop r.position

/-- Whether nothing is unread. -/
def exhausted (r : Reader) : Bool := r.text.length ≤ r.position

/-- Whether a text ended inside a string or a list, at any time so far. -/
def truncated (r : Reader) : Bool := r.diagnostics.any Diagnostic.isTruncation

/-- The same reader at another position. -/
def seek (r : Reader) (position : Nat) : Reader := { r with position }

/-- The cursor at the position of the reader. -/
def cursor (r : Reader) : Level.Cursor := ⟨r.remaining, r.position, []⟩

/-- Reads on from the position, and keeps what this leaves in the log: each diagnostic is recorded
as it is noted. -/
def parseLogged (r : Reader) : (Tree × Reader) × List Record :=
  let (tree, cursor) := (Level.system r.config).run ⟨0, r.position⟩ r.cursor
  let found := cursor.found.reverse
  let after := { r with
    position := cursor.position
    diagnostics := r.diagnostics ++ found }
  ((tree, after), found.map Diagnostic.record)

/-- Reads on from the position. -/
def parse (r : Reader) : Tree × Reader := r.parseLogged.1

/-- The records that reading on from the position leaves in the log. -/
def parseLog (r : Reader) : List Record := r.parseLogged.2

theorem parseLogged_eq (r : Reader) : r.parseLogged = (r.parse, r.parseLog) := rfl

/-- A new reader has noted nothing but what it records. -/
theorem parseLog_ofText (text : List Char) (config : ReaderConfig) :
    (ofText text config).parseLog =
      (ofText text config).parse.2.diagnostics.map Diagnostic.record := rfl

end Reader

/-- Reads a text from its start with a new reader. -/
def parse (text : String) (config : ReaderConfig) : Tree :=
  ((Reader.ofText text.toList config).parse).1

end Sexpr
