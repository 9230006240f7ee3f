import Sexpr.Atom
import Sexpr.Numeral.Whole
import Sexpr.Reader.Config

/-!
# Settings of a session

A `SessionConfig` holds the prompts and the style of a session. `SessionConfig.ofEnvironment`
takes them from the terminal's name, and the limit of the reader from a variable.
-/

namespace Sexpr

/-- The settings of a session. -/
structure SessionConfig where
  reader : ReaderConfig := {}
  style : Style := .unicode
  prompt : String := "ℑ⧽ "
  resultPrompt : String := "⟫  "
  deriving DecidableEq

/-- The variables that a session looks at. -/
structure Environment where
  /-- The name of the terminal. -/
  term : Option String := none
  /-- The limit of the reader, as text. -/
  maxDepth : Option String := none
  deriving DecidableEq

/-- What can be wrong with the environment. -/
inductive EnvironmentError where
  /-- The limit is not read as an integer. -/
  | unreadable (text : String) (why : Numeral.Refusal)
  /-- The limit is an integer that cannot be a limit. -/
  | config (e : ConfigError)
  deriving DecidableEq

/-- The wording of the error. At most 200 characters of a literal are shown. -/
def EnvironmentError.message : EnvironmentError → String
  | unreadable text .notInteger =>
    "invalid literal for int() with base 10: " ++
      String.ofList ((Text.literal text).toList.take 200)
  | unreadable _ (.tooLong count) =>
    Numeral.tooLongText (": value has " ++ toString count ++ " digits")
  | config e => e.message

namespace SessionConfig

/-- The limit that a variable asks for; an empty variable asks for none. -/
def limitOf (maxDepth : Option String) : Except EnvironmentError (Option Limit) :=
  match maxDepth with
  | none => .ok none
  | some "" => .ok none
  | some text =>
    match Numeral.readInteger text.toList with
    | .error why => .error (.unreadable text why)
    | .ok n => ((Limit.ofCount (.integer n)).map some).mapError .config

/-- The settings for an environment. The console of Linux cannot show the marks, so there the
session uses ASCII alone. -/
def ofEnvironment (environment : Environment) : Except EnvironmentError SessionConfig := do
  let limit ← limitOf environment.maxDepth
  let reader : ReaderConfig := ⟨limit, false⟩
  return if environment.term = some "linux" then ⟨reader, .ascii, "I> ", " > "⟩ else { reader }

end SessionConfig

end Sexpr
