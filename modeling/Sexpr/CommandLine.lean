import Sexpr.CommandLine.Options
import Sexpr.Session
import Sexpr.SourceFile

/-!
# The command line

A run reads the named files one after the other, shows their trees, and then starts a session
unless the options say otherwise.

* `CommandLine.configure` makes the settings of the run from the options and the environment.
* `CommandLine.block` is what a run shows of one file, and `CommandLine.blocks` of all files.
* `CommandLine.run` is a whole run: its `Ending` and its actions.
* `CommandLine.logText` is what a run writes to its log.
-/

namespace Sexpr

namespace CommandLine

/-- The settings of a run. An option goes before the environment, which has to be in order even
so. -/
def configure (options : Options) (environment : Environment) :
    Except EnvironmentError SessionConfig := do
  let base ← SessionConfig.ofEnvironment environment
  let limit ←
    match options.maxDepth with
    | .null => .ok base.reader.maxDepth
    | setting => (ReaderConfig.limitOf setting).mapError .config
  return { base with
    reader := ⟨limit, options.strict⟩
    style := options.style.getD base.style }

/-- Why a run breaks off at a file. -/
inductive Failure where
  /-- The content is not UTF-8. -/
  | undecodable
  /-- The name holds the character that ends names. -/
  | unusableName
  deriving DecidableEq

/-- The line above the tree of a file. -/
def banner (name : String) : String := "----- " ++ name ++ " -----\n"

/-- What a run shows of a file that was looked up: its banner and its tree. A file that cannot be
opened is passed over. -/
def block (config : SessionConfig) (name : String) (found : Except FileFault ByteArray) :
    List Action × Option Failure :=
  let top := Action.write (banner name)
  if name.toList.contains '\x00' then ([top], some .unusableName)
  else
    match found with
    | .error fault =>
      let text := "can't open " ++ name ++ ", ignoring: " ++ fault.reason
      ([top, .log ⟨.error, .session, text⟩], none)
    | .ok bytes =>
      match SourceFile.decode? bytes with
      | none => ([top], some .undecodable)
      | some text =>
        let (tree, records) := SourceFile.load name config.reader text
        (top :: records.map .log ++ [.write (tree.render config.style ++ "\n")], none)

/-- What a run shows of its files, up to the first that breaks it off. -/
def blocks (config : SessionConfig) (find : String → Except FileFault ByteArray) :
    List String → List Action × Option Failure
  | [] => ([], none)
  | name :: names =>
    match block config name (find name) with
    | (actions, some failure) => (actions, some failure)
    | (actions, none) =>
      let (more, failure) := blocks config find names
      (actions ++ more, failure)

/-- How a run ends. -/
inductive Ending where
  /-- Everything is done. -/
  | done
  /-- The help was asked for. -/
  | help
  /-- The options or the environment are not in order. -/
  | refused (message : String)
  /-- The limit was given without an integer. -/
  | wrongType
  /-- A file breaks the run off. -/
  | failed (failure : Failure)
  deriving DecidableEq

/-- How a run ends whose settings are not in order. -/
def Ending.ofError : EnvironmentError → Ending
  | .config .wrongType => .wrongType
  | e => .refused e.message

/-- The status that the process leaves. -/
def Ending.status : Ending → UInt32
  | .done => 0
  | .help => 0
  | .refused _ => 2
  | .wrongType => 1
  | .failed _ => 1

/-- A run: how it ends, the least severity that it logs, and what it does. -/
structure Run where
  ending : Ending
  verbose : Bool
  actions : List Action

/-- A run whose options are known. -/
def runWith (options : Options) (config : SessionConfig)
    (find : String → Except FileFault ByteArray) (input : List String) : Run :=
  match blocks config find options.files with
  | (actions, some failure) => ⟨.failed failure, options.verbose, actions⟩
  | (actions, none) =>
    ⟨.done, options.verbose,
      if options.batch then actions else actions ++ Session.run config input⟩

/-- A whole run. `find` looks up the content of a file, and `input` are the lines that are typed
at the prompt. -/
def run (args : List String) (environment : Environment)
    (find : String → Except FileFault ByteArray) (input : List String) : Run :=
  match Options.ofArgs args with
  | .error .help => ⟨.help, false, []⟩
  | .error (.error e) => ⟨.refused e.message, false, []⟩
  | .ok options =>
    match configure options environment with
    | .error e => ⟨.ofError e, options.verbose, []⟩
    | .ok config => runWith options config find input

/-! ## The log -/

/-- The name of a part of the program in the log. -/
def speakerName : Speaker → String
  | .reader => "indra.reader"
  | .session => "indra.repl"

/-- The name of a part of the program in the log of a program that is run on its own. -/
def mainSpeakerName : Speaker → String
  | .reader => "indra.reader"
  | .session => "__main__"

/-- The lines of the log; without `verbose` those for debugging are left out. -/
def logText (speaker : Speaker → String) (verbose : Bool) (records : List Record) : String :=
  String.join <| (records.filter fun r => verbose || r.severity ≠ .debug).map fun r =>
    r.severity.name ++ " " ++ speaker r.speaker ++ ": " ++ r.text ++ "\n"

/-- The line for a run that was refused. -/
def refusalText (message : String) : String := "indra: error: " ++ message ++ "\n"

/-- The options at a glance. -/
def usage : String :=
  "usage: indra [-h] [--style STYLE] [--max-depth N] [--strict] [--batch] [-v] [files ...]"

/-- Everything that a run writes to its log. -/
def Run.errorText (run : Run) (speaker : Speaker → String) : String :=
  match run.ending with
  | .refused message => refusalText message
  | _ => logText speaker run.verbose (Action.records run.actions)

/-- What stands between the line feeds of a text. -/
def pieces (text : List Char) : List (List Char) :=
  let (first, others) := text.foldr
    (fun c (first, others) =>
      if c = '\n' then ([], first :: others) else (c :: first, others)) ([], [])
  first :: others

/-- The lines of a text, without their line feeds; the last one need not have one. -/
def linesOf (text : List Char) : List String :=
  let all := pieces text
  (if all.getLast? = some [] then all.dropLast else all).map String.ofList

end CommandLine

end Sexpr
