import Sexpr.Reader
import Sexpr.Session.Config
import Sexpr.Tree.Render

/-!
# Sessions

A session reads lines from a prompt and shows the tree of what they hold. Lines are collected
until the reader finds no string and no list open at their end. Nothing is evaluated.

* `Action` is what a program shows and logs.
* `Session.consider` looks at the lines collected so far and comes to a `Verdict`.
* `Session.readForm` takes lines from the input until they are complete.
* `Session.run` shows one tree after the other, to the end of the input or to the form `(quit)`.
-/

namespace Sexpr

/-- What a program does on the outside. -/
inductive Action where
  /-- Shows a prompt and waits for a line. -/
  | prompt (text : String)
  /-- Writes a text. -/
  | write (text : String)
  | log (record : Record)
  deriving DecidableEq

namespace Action

/-- The text that is written, prompts not included. -/
def written (actions : List Action) : String :=
  String.join (actions.filterMap fun | write text => some text | _ => none)

/-- The prompts that are shown. -/
def prompts (actions : List Action) : List String :=
  actions.filterMap fun | prompt text => some text | _ => none

/-- The records that are logged. -/
def records (actions : List Action) : List Record :=
  actions.filterMap fun | log record => some record | _ => none

/-- All that shows on a screen: prompts and written text. -/
def screen (actions : List Action) : String :=
  String.join <| actions.filterMap fun
    | prompt text => some text
    | write text => some text
    | log _ => none

end Action

namespace Session

/-- The name that ends a session. -/
def quitName : String := "quit"

/-- Whether a form is the list of the symbol `quit` alone. -/
def isQuit (f : Form) : Bool :=
  match f.atom, f.child with
  | .branch, .node (.symbol s) _ next => s = quitName && next.endsHere
  | _, _ => false

/-- What the lines collected so far amount to. -/
inductive Verdict where
  /-- A string or a list is open at their end. -/
  | incomplete
  /-- One of their forms ends the session. -/
  | quit
  /-- They are complete. -/
  | complete (tree : Tree)

/-- The text of some lines, each with its end. -/
def textOf (lines : List String) : List Char := lines.flatMap fun line => line.toList ++ ['\n']

/-- Reads the lines collected so far, from the first one on. -/
def consider (config : ReaderConfig) (lines : List String) : Verdict × List Record :=
  let ((tree, reader), records) := (Reader.ofText (textOf lines) config).parseLogged
  if reader.truncated then
    let text := "form incomplete after " ++ toString lines.length ++ " line(s)"
    (.incomplete, records ++ [⟨.debug, .session, text⟩])
  else if tree.anyForm isQuit then (.quit, records)
  else (.complete tree, records)

/-- What came of waiting for a form. -/
structure Turn where
  /-- The tree of the lines, or nothing at the end of the input and at `(quit)`. -/
  result : Option Tree
  /-- The lines that have not been taken. -/
  rest : List String
  actions : List Action

/-- Takes lines from the input until those collected are complete. -/
def readForm (config : SessionConfig) (collected : List String) : List String → Turn
  | [] => ⟨none, [], [.prompt config.prompt]⟩
  | line :: rest =>
    let lines := collected ++ [line]
    let (verdict, records) := consider config.reader lines
    let actions := .prompt config.prompt :: records.map .log
    match verdict with
    | .incomplete =>
      let turn := readForm config lines rest
      { turn with actions := actions ++ turn.actions }
    | .quit => ⟨none, rest, actions⟩
    | .complete tree => ⟨some tree, rest, actions⟩

theorem length_rest_readForm_lt (config : SessionConfig) (collected input : List String)
    (h : (readForm config collected input).result.isSome) :
    (readForm config collected input).rest.length < input.length := by
  induction input generalizing collected with
  | nil => simp [readForm] at h
  | cons line rest ih =>
    rw [readForm] at h ⊢
    generalize consider config.reader (collected ++ [line]) = verdict at h ⊢
    obtain ⟨verdict, records⟩ := verdict
    cases verdict with
    | incomplete => exact Nat.lt_succ_of_lt (ih _ h)
    | quit => simp at h
    | complete tree => simp

/-- The line that shows a tree. -/
def answer (config : SessionConfig) (tree : Tree) : String :=
  config.resultPrompt ++ tree.render config.style ++ "\n"

/-- A whole session on some input. -/
def run (config : SessionConfig) (input : List String) : List Action :=
  let turn := readForm config [] input
  match _h : turn.result with
  | none => turn.actions
  | some tree => turn.actions ++ .write (answer config tree) :: run config turn.rest
termination_by input.length
decreasing_by exact length_rest_readForm_lt config [] input (by simp_all [turn])

end Session

end Sexpr
