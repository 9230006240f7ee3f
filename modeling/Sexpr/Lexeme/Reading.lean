import Sexpr.Lexeme
import Sexpr.Reader

/-!
# Reading from lexemes

What the lexemes of a text mean, by recursion on the row of them. At each place of the row there
is a list that is open, or the text itself, and those around it; `Lexeme.Reading` tells of each of
them what is still to come.

* `Stretch` is what is still to come of one level: its chain, and what is reported on the way.
* `Lexeme.read` reads a row of lexemes, and `Reader.readLexemes` a text from the position of a
  reader.
-/

namespace Sexpr

/-- What is still to come of one level. -/
structure Stretch where
  chain : Tree
  reports : List Diagnostic
  deriving DecidableEq

namespace Stretch

/-- Nothing but the end of the level. -/
def nothing : Stretch := ⟨.sentinel, []⟩

/-- A stretch with one more form in front. -/
def precede (form : Form) (s : Stretch) : Stretch := { s with
  chain := .node form.atom form.child s.chain }

/-- A stretch with one more report in front. -/
def report (d : Diagnostic) (s : Stretch) : Stretch := { s with reports := d :: s.reports }

end Stretch

namespace Lexeme

/-- What is still to come at a place in a row of lexemes. -/
structure Reading where
  /-- The innermost level. -/
  here : Stretch
  /-- The levels around it, the innermost first. -/
  around : List Stretch
  /-- The offset at which the reading ends. -/
  position : Nat
  deriving DecidableEq

/-- A level that the text ends in, from the offset of its parenthesis; the text itself has none. -/
def truncated (config : ReaderConfig) (last : Nat) (openedAt : Nat) : Stretch :=
  Stretch.report ⟨.unterminatedList openedAt, last⟩ <|
    if config.reportUnterminated then
      Stretch.nothing.precede ⟨.error "Unterminated list", .absent⟩
    else .nothing

/-- The end of the text inside the lists that were opened at some offsets, innermost first. -/
def ending (config : ReaderConfig) (last : Nat) (opened : List Nat) : Reading :=
  match opened.map (truncated config last) with
  | [] => ⟨.nothing, [], last⟩
  | here :: around => ⟨here, around ++ [.nothing], last⟩

/-- A list that has been read, as a form of the level around it, which lies inside `depth` lists. A
list beyond the limit becomes an error. -/
def enclose (config : ReaderConfig) (depth offset : Nat) (inner outer : Stretch) : Stretch :=
  let kept : Stretch :=
    ⟨.node .branch inner.chain outer.chain, inner.reports ++ outer.reports⟩
  match config.maxDepth with
  | none => kept
  | some limit =>
    if limit.count.value < depth + 1 then
      ⟨.node (.error (Cause.nestingTooDeep limit.text).message) .absent outer.chain,
        inner.reports ++ ⟨.nestingTooDeep limit.text, offset⟩ :: outer.reports⟩
    else kept

/-- A reading with a change to its innermost level. -/
def Reading.mapHere (f : Stretch → Stretch) (r : Reading) : Reading := { r with here := f r.here }

/-- Reads a row of lexemes inside the lists that were opened at some offsets, innermost first.
`last` is the offset of the end of the text. A closing parenthesis outside of all lists ends the
reading. -/
def read (config : ReaderConfig) (last : Nat) (opened : List Nat) : List Lexeme → Reading
  | [] => ending config last opened
  | .token cs _ :: rest =>
    (read config last opened rest).mapHere (Stretch.precede ⟨Atom.ofToken cs, .absent⟩)
  | .string cs _ :: rest =>
    (read config last opened rest).mapHere (Stretch.precede ⟨Atom.ofToken cs, .absent⟩)
  | .droppedQuote cs offset :: rest =>
    (read config last opened rest).mapHere
      (Stretch.report ⟨.strayQuote (String.ofList cs), offset⟩)
  | .openString cs _ :: rest =>
    let pending := String.ofList cs
    let reading := (read config last opened rest).mapHere
      (Stretch.report ⟨.unterminatedString pending, last⟩)
    if config.reportUnterminated then
      reading.mapHere
        (Stretch.precede ⟨.error ("Unterminated string: <" ++ pending ++ ">"), .absent⟩)
    else reading
  | .closing offset :: rest =>
    match opened with
    | [] => ⟨Stretch.nothing.report ⟨.strayClose, offset⟩, [], offset + 1⟩
    | _ :: opened =>
      let reading := read config last opened rest
      ⟨.nothing, reading.here :: reading.around, reading.position⟩
  | .opening offset :: rest =>
    let reading := read config last (offset :: opened) rest
    match reading.around with
    | [] => reading
    | outer :: around =>
      ⟨enclose config opened.length offset reading.here outer, around, reading.position⟩

end Lexeme

namespace Reader

/-- Reads on from the position by way of lexemes. -/
def readLexemes (r : Reader) : Tree × Reader :=
  let lexemes := Lexeme.cut (.plain [] r.position) r.position r.remaining
  let reading := Lexeme.read r.config (r.position + r.remaining.length) [] lexemes
  (reading.here.chain, { r with
    position := reading.position
    diagnostics := r.diagnostics ++ reading.here.reports })

end Reader

end Sexpr
