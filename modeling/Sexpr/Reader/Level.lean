import Sexpr.Coroutine
import Sexpr.Diagnostic
import Sexpr.Reader.Config
import Sexpr.Tree

/-!
# Nesting levels

The reader works on one nesting level at a time: the text itself, or the inside of a list. Each
level is a coroutine with a scanning state of its own, and the levels share one cursor. At an
opening parenthesis a level calls the next one and waits for the chain of the list.

* `Level` is the state of a level, and `Level.step` what one character does to it.
* `Level.finish` ends a level at the end of the text, and `Level.receive` takes the chain of an
  inner list.
* `Level.scan` runs a level up to its next inner list or to its end.
* `Level.system` is the system of these coroutines over the cursor.
-/

namespace Sexpr

open Coroutine

/-- Where a level is in the text: between and in tokens, in a string, or in a comment. -/
inductive Mode where
  | plain
  | string
  | comment
  deriving DecidableEq

/-- The state of a nesting level. -/
structure Level where
  /-- The number of lists around it. -/
  depth : Nat
  /-- The offset of its opening parenthesis. -/
  openedAt : Nat
  mode : Mode := .plain
  /-- The characters of the pending token, the latest first. -/
  token : List Char := []
  /-- Whether the last character of the string was a backslash. -/
  escaped : Bool := false
  /-- What has been read, the latest first. -/
  forms : List Form := []
  deriving DecidableEq

namespace Level

/-- Adds a node that owns nothing. -/
def push (l : Level) (a : Atom) : Level := { l with forms := ⟨a, .absent⟩ :: l.forms }

/-- The pending token as text. -/
def tokenText (l : Level) : String := String.ofList l.token.reverse

/-- Turns the token into an atom. -/
def flush (l : Level) : Level := { l.push (Atom.ofToken l.token.reverse) with token := [] }

/-- Turns the token into an atom if there is one. -/
def flushPending (l : Level) : Level := if l.token = [] then l else l.flush

/-- Adds a character to the token. -/
def add (l : Level) (c : Char) : Level := { l with token := c :: l.token }

/-- The chain of what has been read. -/
def chain (l : Level) : Tree := Tree.unwind l.forms .sentinel

/-! ## One character -/

/-- What a character does to a level. -/
inductive Step where
  /-- The level goes on, and may have something to report. -/
  | stay (level : Level) (report : Option Cause)
  /-- An inner list begins. -/
  | descend (level : Level)
  /-- The level ends. -/
  | leave (level : Level)

/-- A character outside of strings and comments. An apostrophe is a quotation mark unless a token
is pending, and a double quote starts a string unless a token is pending. -/
def plainStep (l : Level) (c : Char) : Step :=
  if c = '(' then .descend l.flushPending
  else if c = ')' then .leave l.flushPending
  else if c = ';' then .stay { l.flushPending with mode := .comment } none
  else if c = Text.apostrophe then
    .stay (if l.token = [] then l.push (Atom.ofToken [c]) else l.add c) none
  else if Token.isSpace c then .stay l.flushPending none
  else if c = '"' then
    if l.token = [] then .stay { l.add c with mode := .string, escaped := false } none
    else .stay l (some (.strayQuote l.tokenText))
  else .stay (l.add c) none

/-- A character inside a comment, which ends with the line. -/
def commentStep (l : Level) (c : Char) : Step :=
  .stay (if c = '\n' then { l with mode := .plain, token := [] } else l) none

/-- A character inside a string. A backslash is dropped and keeps a double quote behind it from
ending the string. -/
def stringStep (l : Level) (c : Char) : Step :=
  if c = '\\' then .stay { l with escaped := true } none
  else if c = '"' ∧ l.escaped = false then .stay { (l.add c).flush with mode := .plain } none
  else .stay { l.add c with escaped := false } none

/-- What a character does to a level. -/
def step (l : Level) (c : Char) : Step :=
  match l.mode with
  | .plain => l.plainStep c
  | .comment => l.commentStep c
  | .string => l.stringStep c

/-! ## The ends of lists -/

/-- Adds a list. -/
def pushList (l : Level) (inner : Tree) : Level := { l with forms := ⟨.branch, inner⟩ :: l.forms }

/-- Takes the chain of the inner list that was opened at an offset: a list that lies deeper than
the limit becomes an error. -/
def receive (config : ReaderConfig) (l : Level) (offset : Nat) (inner : Tree) :
    Level × List Diagnostic :=
  match config.maxDepth with
  | none => (l.pushList inner, [])
  | some limit =>
    if limit.count.value < l.depth + 1 then
      let cause := Cause.nestingTooDeep limit.text
      (l.push (.error cause.message), [⟨cause, offset⟩])
    else (l.pushList inner, [])

/-- Ends the token or the string at the end of the text. -/
def finishToken (config : ReaderConfig) (l : Level) (position : Nat) : Level × List Diagnostic :=
  match l.mode with
  | .plain => (l.flushPending, [])
  | .comment => (l, [])
  | .string =>
    let message := "Unterminated string: <" ++ l.tokenText ++ ">"
    (if config.reportUnterminated then l.push (.error message) else l,
      [⟨.unterminatedString l.tokenText, position⟩])

/-- Ends the list at the end of the text; the outermost level is no list. -/
def finishList (config : ReaderConfig) (l : Level) (position : Nat) : Level × List Diagnostic :=
  if l.depth = 0 then (l, [])
  else
    (if config.reportUnterminated then l.push (.error "Unterminated list") else l,
      [⟨.unterminatedList l.openedAt, position⟩])

/-- Ends a level at the end of the text: its chain, and what is to be reported, latest first. -/
def finish (config : ReaderConfig) (l : Level) (position : Nat) : Tree × List Diagnostic :=
  let (l, inToken) := l.finishToken config position
  let (l, inList) := l.finishList config position
  (l.chain, inList ++ inToken)

/-! ## Running -/

/-- A level that has not started. -/
structure Opening where
  depth : Nat
  openedAt : Nat
  deriving DecidableEq

/-- The state of a level that starts. -/
def Opening.level (o : Opening) : Level := { depth := o.depth, openedAt := o.openedAt }

/-- A level that waits for an inner list, with the offset of that list. -/
structure Waiting where
  level : Level
  offset : Nat
  deriving DecidableEq

/-- The cursor: what is unread, the offset of it, and the diagnostics, latest first. -/
structure Cursor where
  rest : List Char
  position : Nat
  found : List Diagnostic
  deriving DecidableEq

/-- Runs a level over the text up to its next inner list, its closing parenthesis or the end. -/
def scan (config : ReaderConfig) (l : Level) (position : Nat) (found : List Diagnostic) :
    List Char → Signal Opening Waiting Tree × Cursor
  | [] =>
    let (chain, reports) := l.finish config position
    (.finish chain, ⟨[], position, reports ++ found⟩)
  | c :: rest =>
    match l.step c with
    | .stay l report =>
      l.scan config (position + 1) ((report.map (⟨·, position⟩)).toList ++ found) rest
    | .descend l => (.call ⟨l.depth + 1, position⟩ ⟨l, position⟩, ⟨rest, position + 1, found⟩)
    | .leave l =>
      let reports := if l.depth = 0 then [⟨.strayClose, position⟩] else []
      (.finish l.chain, ⟨rest, position + 1, reports ++ found⟩)

theorem scan_le (config : ReaderConfig) (rest : List Char) (l : Level) (position : Nat)
    (found : List Diagnostic) :
    2 * (l.scan config position found rest).2.rest.length +
        (l.scan config position found rest).1.weight (fun _ => 0) (fun _ => 0)
      ≤ 2 * rest.length := by
  induction rest generalizing l position found with
  | nil => simp [scan, Signal.weight]
  | cons c rest ih =>
    rw [scan]
    split
    · next l' report _ =>
      have := ih l' (position + 1) ((report.map (⟨·, position⟩)).toList ++ found)
      simp only [List.length_cons]
      omega
    · simp only [Signal.weight, List.length_cons]
      omega
    · simp only [Signal.weight, List.length_cons]
      omega

/-- The levels as coroutines over the cursor. -/
def system (config : ReaderConfig) : System Opening Waiting Tree Cursor where
  start opening cursor := opening.level.scan config cursor.position cursor.found cursor.rest
  resume waiting inner cursor :=
    let (l, reports) := waiting.level.receive config waiting.offset inner
    l.scan config cursor.position (reports ++ cursor.found) cursor.rest
  close _ cursor := cursor
  ahead cursor := 2 * cursor.rest.length
  fresh _ := 0
  held _ := 0
  start_le _ _ := scan_le ..
  resume_le _ _ _ := scan_le ..
  close_le _ _ := Nat.le_refl _

end Level

end Sexpr
