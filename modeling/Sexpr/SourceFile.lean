import Sexpr.Reader

/-!
# Source files

A source file is UTF-8 text. Both ways of ending a line with a carriage return count as a line
feed, and nothing else is changed.

* `SourceFile.decode?` is the text of a file.
* `SourceFile.load` reads the text once and warns if something of it is left unread.
* `FileFault` tells why a file cannot be opened.
-/

namespace Sexpr

/-- Why a file cannot be opened. -/
inductive FileFault where
  | missing
  | isDirectory
  | notDirectory
  /-- Any other reason, in the words of the system. -/
  | other (reason : String)
  deriving DecidableEq

/-- The reason in words. -/
def FileFault.reason : FileFault → String
  | missing => "No such file or directory"
  | isDirectory => "Is a directory"
  | notDirectory => "Not a directory"
  | other reason => reason

namespace SourceFile

/-- Takes one more character: `latest` holds the text so far, its last character first, and
`afterReturn` says whether a carriage return came last. -/
def addChar (latest : List Char × Bool) (c : Char) : List Char × Bool :=
  if c = '\r' then ('\n' :: latest.1, true)
  else if c = '\n' ∧ latest.2 = true then (latest.1, false)
  else (c :: latest.1, false)

/-- A text with a line feed for each line end: a carriage return, a line feed or both. -/
def lineFeeds (cs : List Char) : List Char := (cs.foldl addChar ([], false)).1.reverse

/-- The text of a file, or nothing if it is not UTF-8. -/
def decode? (bytes : ByteArray) : Option (List Char) :=
  (String.fromUTF8? bytes).map fun s => lineFeeds s.toList

/-- Reads the text of a named file, and warns if it stops before the end. -/
def load (name : String) (config : ReaderConfig) (text : List Char) : Tree × List Record :=
  let ((tree, reader), records) := (Reader.ofText text config).parseLogged
  if reader.exhausted then (tree, records)
  else
    let warning := name ++ ": stopped reading at offset " ++ toString reader.position
    (tree, records ++ [⟨.warning, .session, warning⟩])

end SourceFile

end Sexpr
