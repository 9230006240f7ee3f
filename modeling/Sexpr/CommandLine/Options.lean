import Sexpr.Session.Config

/-!
# Options of the command line

The arguments are the names of files and options, in any order, except that the files form one
run. A long option may be shortened as far as it stays the only one, a value follows its option
or an equals sign, short options may share a dash, and behind `--` everything is a file. An
argument that looks like a negative number or holds a space is no option.

* `Arg.ofText` tells what one argument is.
* `Options.consume` goes along the arguments, and `Options.ofArgs` makes the `Options` of them.
* `OptionError` is what can be wrong.
-/

namespace Sexpr

/-! ## The options -/

/-- The options there are. -/
inductive Flag where
  | help
  | style
  | maxDepth
  | strict
  | batch
  | verbose
  deriving DecidableEq

namespace Flag

/-- Whether a value belongs to the option. -/
def takesValue : Flag → Bool
  | style => true
  | maxDepth => true
  | _ => false

/-- The option in a report. -/
def title : Flag → String
  | help => "-h/--help"
  | style => "--style"
  | maxDepth => "--max-depth"
  | strict => "--strict"
  | batch => "--batch"
  | verbose => "-v/--verbose"

/-- The spellings of all options, in the order of reports. -/
def spellings : List (String × Flag) :=
  [("-h", help), ("--help", help), ("--style", style), ("--max-depth", maxDepth),
    ("--strict", strict), ("--batch", batch), ("-v", verbose), ("--verbose", verbose)]

/-- The option that is spelled exactly so. -/
def ofSpelling? (s : String) : Option Flag := spellings.lookup s

end Flag

/-- The styles by the names that the option `--style` takes, in the order of reports. -/
def styleNames : List (String × Style) :=
  [("plain", .plain), ("source", .source), ("unicode", .unicode), ("ascii", .ascii)]

/-- What can be wrong with the arguments. -/
inductive OptionError where
  /-- A shortened option that could be several. -/
  | ambiguous (arg : String) (candidates : List String)
  /-- An option without its value. -/
  | expectedValue (flag : Flag)
  /-- A value at an option that takes none. -/
  | ignoredValue (flag : Flag) (value : String)
  /-- A style that there is not. -/
  | unknownStyle (value : String)
  /-- A limit that is not read as an integer. -/
  | notInteger (value : String)
  /-- Arguments that are left over. -/
  | unrecognized (args : List String)
  deriving DecidableEq

/-- The wording of the error. -/
def OptionError.message : OptionError → String
  | ambiguous arg candidates =>
    "ambiguous option: " ++ arg ++ " could match " ++ String.intercalate ", " candidates
  | expectedValue flag => "argument " ++ flag.title ++ ": expected one argument"
  | ignoredValue flag value =>
    "argument " ++ flag.title ++ ": ignored explicit argument " ++ Text.literal value
  | unknownStyle value =>
    "argument " ++ Flag.style.title ++ ": invalid choice: " ++ Text.literal value ++
      " (choose from " ++ String.intercalate ", " (styleNames.map (Text.literal ·.1)) ++ ")"
  | notInteger value =>
    "argument " ++ Flag.maxDepth.title ++ ": invalid int value: " ++ Text.literal value
  | unrecognized args => "unrecognized arguments: " ++ String.intercalate " " args

/-- What the arguments ask for. -/
structure Options where
  files : List String := []
  style : Option Style := none
  /-- The limit of the reader; `Setting.other` if the option was given without an integer. -/
  maxDepth : Setting := .null
  strict : Bool := false
  batch : Bool := false
  verbose : Bool := false
  deriving DecidableEq

/-! ## One argument -/

/-- What an argument is. -/
inductive Arg where
  /-- The name of a file, or the value of the option before it. -/
  | plain
  /-- The sign that no more options come. -/
  | separator
  /-- An option; `short` if it has one dash. What stands in the same argument behind it, with or
  without an equals sign between them, is `attached` to it. -/
  | option (flag : Flag) (short : Bool) (attached : Option (List Char))
  /-- Something like an option that there is not. -/
  | unknown
  deriving DecidableEq

namespace Arg

/-- What stands before the first equals sign, and what stands behind it if there is one. -/
def splitEquals (cs : List Char) : List Char × Option (List Char) :=
  match cs.dropWhile (· ≠ '=') with
  | [] => (cs, none)
  | _ :: value => (cs.takeWhile (· ≠ '='), some value)

/-- Whether the characters behind a dash are those of a number: digits of any script, with at most
one point and at least one digit behind it. A line feed may stand at the end. -/
def isNumeric (cs : List Char) : Bool :=
  let isDigit (c : Char) := (Unicode.digitValue? c).isSome
  let body := if cs.getLast? = some '\n' then cs.dropLast else cs
  match body.dropWhile isDigit with
  | [] => body ≠ []
  | '.' :: fraction => fraction ≠ [] && fraction.all isDigit
  | _ => false

/-- Whether a text stands at the start of a spelling. -/
def opens (start : List Char) (spelling : String) : Bool := start.isPrefixOf spelling.toList

/-- The options that an argument with two dashes can mean, each with its full spelling. -/
def longCandidates (cs : List Char) : List (String × Arg) :=
  let (start, attached) := splitEquals cs
  (Flag.spellings.filter fun (spelling, _) => opens start spelling).map fun (spelling, flag) =>
    (spelling, option flag false attached)

/-- The options that an argument with one dash can mean: its first letter is the option, and what
follows is attached. -/
def shortCandidates (dash letter : Char) (behind : List Char) : List (String × Arg) :=
  let short := String.ofList [dash, letter]
  (Flag.spellings.filter (·.1 = short)).map fun (spelling, flag) =>
    (spelling, option flag true (some behind))

/-- The options that an argument can mean if it is none as it stands. -/
def candidates : List Char → List (String × Arg)
  | '-' :: '-' :: cs => longCandidates ('-' :: '-' :: cs)
  | '-' :: letter :: behind => shortCandidates '-' letter behind
  | _ => []

/-- Whether the argument has one dash. -/
def isShort (cs : List Char) : Bool := (cs.drop 1).head? ≠ some '-'

/-- The option that an argument spells in full, with an equals sign and a value or alone. -/
def inFull? (cs : List Char) : Option Arg :=
  match Flag.ofSpelling? (String.ofList cs) with
  | some flag => some (option flag (isShort cs) none)
  | none =>
    let (start, attached) := splitEquals cs
    match attached, Flag.ofSpelling? (String.ofList start) with
    | some attached, some flag => some (option flag (isShort cs) (some attached))
    | _, _ => none

/-- What an argument is that starts with a dash and goes on. -/
def ofDashed (arg : String) : Except OptionError Arg :=
  let cs := arg.toList
  match inFull? cs with
  | some found => .ok found
  | none =>
    match candidates cs with
    | [(_, found)] => .ok found
    | [] => .ok (if isNumeric (cs.drop 1) || cs.contains ' ' then plain else unknown)
    | several => .error (.ambiguous arg (several.map (·.1)))

/-- What an argument is before the separator. -/
def ofText (arg : String) : Except OptionError Arg :=
  match arg.toList with
  | '-' :: _ :: _ => ofDashed arg
  | _ => .ok plain

/-- What the arguments are, each with its text. Behind the separator all are plain. -/
def classify : List String → Except OptionError (List (String × Arg))
  | [] => .ok []
  | "--" :: args => .ok (("--", separator) :: args.map (·, plain))
  | arg :: args => do
    let found ← ofText arg
    return (arg, found) :: (← classify args)

/-- Whether an argument is an option, known or not. -/
def isOption : Arg → Bool
  | option .. => true
  | unknown => true
  | _ => false

end Arg

/-! ## All arguments -/

/-- What the arguments before the current one amount to. -/
structure Parsed where
  options : Options := {}
  /-- Whether the run of files has been met. -/
  filesDone : Bool := false
  /-- The arguments that nothing takes, the latest first. -/
  extras : List String := []

/-- Why the reading of the arguments ends early. -/
inductive Stop where
  /-- The help is asked for. -/
  | help
  | error (e : OptionError)
  deriving DecidableEq

namespace Options

/-- Sets an option that takes no value. -/
def set (options : Options) : Flag → Except Stop Options
  | .help => .error .help
  | .strict => .ok { options with strict := true }
  | .batch => .ok { options with batch := true }
  | .verbose => .ok { options with verbose := true }
  | _ => .ok options

/-- Sets an option to a value. -/
def setValue (options : Options) (flag : Flag) (value : String) : Except Stop Options :=
  match flag with
  | .style =>
    match styleNames.lookup value with
    | some style => .ok { options with style := some style }
    | none => .error (.error (.unknownStyle value))
  | .maxDepth =>
    match Numeral.readInteger value.toList with
    | .ok n => .ok { options with maxDepth := .count (.integer n) }
    | .error _ => .error (.error (.notInteger value))
  | _ => .ok options

/-- Sets an option that a separator is attached to: that is no value. A style is chosen as if there
were no option, and a limit is not an integer. -/
def setNothing (options : Options) : Flag → Options
  | .style => { options with style := none }
  | .maxDepth => { options with maxDepth := .other }
  | _ => options

/-- Sets an option to what is attached to it. -/
def setAttached (options : Options) (flag : Flag) (attached : List Char) : Except Stop Options :=
  if attached = ['-', '-'] then .ok (options.setNothing flag)
  else options.setValue flag (String.ofList attached)

/-- The options that share a dash: the first one, and one for each letter attached to it. From a
letter that is no option on, the rest would be a value of the option before it. -/
def cluster (flag : Flag) : List Char → Except Stop (List Flag)
  | [] => .ok [flag]
  | letter :: letters =>
    match Flag.ofSpelling? (String.ofList ['-', letter]) with
    | some next => (cluster next letters).map (flag :: ·)
    | none => .error (.error (.ignoredValue flag (String.ofList (letter :: letters))))

/-- Takes an option with what is attached to it, and the plain argument behind it if it needs one.
The result says how many further arguments are used up. -/
def takeOption (parsed : Parsed) (flag : Flag) (short : Bool) (attached : Option (List Char))
    (rest : List (String × Arg)) : Except Stop (Parsed × Nat) :=
  match flag.takesValue, attached with
  | true, some value => do
    let options ← parsed.options.setAttached flag value
    return ({ parsed with options }, 0)
  | true, none =>
    match rest with
    | (value, .plain) :: _ => do
      let options ← parsed.options.setValue flag value
      return ({ parsed with options }, 1)
    | _ => .error (.error (.expectedValue flag))
  | false, none => do
    let options ← parsed.options.set flag
    return ({ parsed with options }, 0)
  | false, some letters =>
    if short = false ∨ letters = [] then
      .error (.error (.ignoredValue flag (String.ofList letters)))
    else do
      let options ← (← cluster flag letters).foldlM set parsed.options
      return ({ parsed with options }, 0)

/-- Takes the plain arguments up to the next option: the first run of them names the files. -/
def takeRun (parsed : Parsed) (run : List String) : Parsed :=
  if parsed.filesDone then { parsed with extras := run.reverse ++ parsed.extras }
  else { parsed with options.files := run.erase "--", filesDone := true }

/-- Goes along the arguments; `skip` of them are used up. -/
def consume (parsed : Parsed) (run : List String) (skip : Nat) :
    List (String × Arg) → Except Stop Parsed
  | [] => .ok (if run = [] then parsed else takeRun parsed run.reverse)
  | (text, arg) :: rest =>
    match skip with
    | skip + 1 => consume parsed run skip rest
    | 0 =>
      if arg.isOption then
        let parsed := if run = [] then parsed else takeRun parsed run.reverse
        match arg with
        | .option flag short attached =>
          match takeOption parsed flag short attached rest with
          | .error stop => .error stop
          | .ok (parsed, used) => consume parsed [] used rest
        | _ => consume { parsed with extras := text :: parsed.extras } [] 0 rest
      else consume parsed (text :: run) 0 rest

/-- The options that the arguments spell. -/
def ofArgs (args : List String) : Except Stop Options := do
  let classified ← (Arg.classify args).mapError .error
  let parsed ← consume {} [] 0 classified
  if parsed.extras = [] then return parsed.options
  else .error (.error (.unrecognized parsed.extras.reverse))

end Options

end Sexpr
