import Sexpr.CommandLine

/-!
# The program

The outer layer of the command line: arguments, environment, files, and the terminal.
-/

namespace Sexpr

namespace Main

/-- Shows and logs as an action says. -/
def perform (verbose : Bool) (action : Action) : IO Unit := do
  match action with
  | .prompt text | .write text =>
    let out ← IO.getStdout
    out.putStr text
    out.flush
  | .log record =>
    (← IO.getStderr).putStr (CommandLine.logText CommandLine.mainSpeakerName verbose [record])

/-- The content of a file, or why it cannot be opened. A folder opens and cannot be read then, and
that error names no file. -/
def readFile (name : String) : IO (Except FileFault ByteArray) := do
  try
    return .ok (← IO.FS.readBinFile name)
  catch
    | .noFileOrDirectory .. => return .error .missing
    | .inappropriateType (some _) .. => return .error .notDirectory
    | .inappropriateType none .. => return .error .isDirectory
    | e => return .error (.other (toString e))

/-- The next line of the terminal, and the lines behind it that have come with it. A carriage
return ends a line as a line feed does. -/
def nextLine : List String → IO (Option (String × List String))
  | line :: lines => return some (line, lines)
  | [] => do
    let text ← (← IO.getStdin).getLine
    match CommandLine.linesOf (SourceFile.lineFeeds text.toList) with
    | line :: lines => return some (line, lines)
    | [] => return none

/-- Reads lines from the terminal and shows the trees of what they hold. -/
partial def session (config : SessionConfig) (verbose : Bool) (collected waiting : List String) :
    IO Unit := do
  perform verbose (.prompt config.prompt)
  let some (line, waiting) ← nextLine waiting | return
  let lines := collected ++ [line]
  let (verdict, records) := Session.consider config.reader lines
  records.forM fun record => perform verbose (.log record)
  match verdict with
  | .incomplete => session config verbose lines waiting
  | .quit => return
  | .complete tree =>
    perform verbose (.write (Session.answer config tree))
    session config verbose [] waiting

/-- Shows the files one after the other, up to the first that breaks the run off. -/
def files (config : SessionConfig) (verbose : Bool) :
    List String → IO (Option CommandLine.Failure)
  | [] => return none
  | name :: names => do
    let (actions, failure) := CommandLine.block config name (← readFile name)
    actions.forM (perform verbose)
    if failure.isSome then return failure
    files config verbose names

/-- Ends a run with its status. A call for help is answered, and a refusal has a line. -/
def finish (ending : CommandLine.Ending) : IO UInt32 := do
  match ending with
  | .help => IO.println CommandLine.usage
  | .refused message => (← IO.getStderr).putStr (CommandLine.refusalText message)
  | _ => pure ()
  return ending.status

end Main

end Sexpr

open Sexpr in
def main (args : List String) : IO UInt32 := do
  let environment : Environment :=
    ⟨← IO.getEnv "TERM", ← IO.getEnv "INDRA_MAX_DEPTH"⟩
  match Options.ofArgs args with
  | .error .help => Main.finish .help
  | .error (.error e) => Main.finish (.refused e.message)
  | .ok options =>
    match CommandLine.configure options environment with
    | .error e => Main.finish (.ofError e)
    | .ok config =>
      match ← Main.files config options.verbose options.files with
      | some failure => Main.finish (.failed failure)
      | none =>
        unless options.batch do Main.session config options.verbose [] []
        Main.finish .done
