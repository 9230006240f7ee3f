import Sexpr.Token

/-!
# Lexemes

The pieces of a text in order, without a look at how its parentheses nest: parentheses, tokens
and strings with their offsets. Comments and the space between the pieces leave no lexeme.

* `Lexeme` is a piece.
* `Lexeme.cut` cuts a text, one character after the other, from one of three states.
-/

namespace Sexpr

/-- A piece of a text, with its offset. -/
inductive Lexeme where
  | opening (offset : Nat)
  | closing (offset : Nat)
  /-- A quotation mark, or a row of characters that ends before a space, a parenthesis or a
  comment. -/
  | token (cs : List Char) (offset : Nat)
  /-- A string with its double quotes and without its backslashes. -/
  | string (cs : List Char) (offset : Nat)
  /-- A double quote that is dropped, for it stands right behind the characters of a token. -/
  | droppedQuote (token : List Char) (offset : Nat)
  /-- A string that the text ends in, with its first double quote. -/
  | openString (cs : List Char) (offset : Nat)
  deriving DecidableEq

namespace Lexeme

/-- Where the cut has got to: in a token, which may be empty, in a string, or in a comment. A token
and a string come with their characters, the latest first, and with their offset. -/
inductive State where
  | plain (latest : List Char) (start : Nat)
  | string (latest : List Char) (escaped : Bool) (start : Nat)
  | comment
  deriving DecidableEq

/-- The token that ends, if there is one. -/
def ended (latest : List Char) (start : Nat) : List Lexeme :=
  if latest = [] then [] else [.token latest.reverse start]

/-- A token with one more character. The first character decides the offset. -/
def grown (latest : List Char) (start : Nat) (c : Char) (offset : Nat) : State :=
  if latest = [] then .plain [c] offset else .plain (c :: latest) start

/-- What a character adds to the lexemes, and the state behind it. -/
def advance (state : State) (c : Char) (offset : Nat) : List Lexeme × State :=
  match state with
  | .plain latest start =>
    if c = '(' then (ended latest start ++ [.opening offset], .plain [] offset)
    else if c = ')' then (ended latest start ++ [.closing offset], .plain [] offset)
    else if c = ';' then (ended latest start, .comment)
    else if c = Text.apostrophe ∧ latest = [] then ([.token [c] offset], .plain [] offset)
    else if Token.isSpace c then (ended latest start, .plain [] offset)
    else if c = '"' then
      if latest = [] then ([], .string [c] false offset)
      else ([.droppedQuote latest.reverse offset], state)
    else ([], grown latest start c offset)
  | .string latest escaped start =>
    if c = '\\' then ([], .string latest true start)
    else if c = '"' ∧ escaped = false then
      ([.string (c :: latest).reverse start], .plain [] offset)
    else ([], .string (c :: latest) false start)
  | .comment => ([], if c = '\n' then .plain [] offset else .comment)

/-- What the end of the text adds to the lexemes. -/
def atEnd : State → List Lexeme
  | .plain latest start => ended latest start
  | .string latest _ start => [.openString latest.reverse start]
  | .comment => []

/-- The lexemes of a text whose first character stands at an offset. -/
def cut (state : State) (offset : Nat) : List Char → List Lexeme
  | [] => atEnd state
  | c :: cs => (advance state c offset).1 ++ cut (advance state c offset).2 (offset + 1) cs

end Lexeme

end Sexpr
