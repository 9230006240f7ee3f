import Sexpr.Tree

/-!
# The text of a tree

`Tree.render` writes a tree in one of the four styles. It keeps a list of what is still to be
written, so a deep tree needs no deep recursion. `Tree.written` is the same text by recursion.

* In the plain styles a chain is its nodes without the sentinel, one space between two of them
  unless the left one is a quotation mark. A list is its chain in parentheses.
* In the decorated styles a chain is all its nodes with the sentinel, one space behind each that
  has a successor unless it is a quotation mark.
-/

namespace Sexpr

namespace Tree

/-! ## By recursion -/

/-- The text of a chain in a plain style. `gap` goes in front of its first node. -/
def writtenForms (style : Style) (gap : String) : Tree → String
  | absent => ""
  | node .nil _ _ => ""
  | node .branch child next =>
    gap ++ "(" ++ child.writtenForms style "" ++ ")" ++ next.writtenForms style " "
  | node a _ next =>
    gap ++ a.text style ++ next.writtenForms style (if a = .quote then "" else " ")

/-- The text of a chain in a decorated style. -/
def writtenNodes (style : Style) : Tree → String
  | absent => ""
  | node a absent absent => a.text style
  | node a absent next =>
    a.text style ++ (if a = .quote then "" else " ") ++ next.writtenNodes style
  | node a child absent => a.text style ++ child.writtenNodes style ++ ")"
  | node a child next =>
    a.text style ++ child.writtenNodes style ++ ")" ++ " " ++ next.writtenNodes style

/-- The text of a tree, by recursion. -/
def written (style : Style) (t : Tree) : String :=
  if style.decorated then t.writtenNodes style else t.writtenForms style ""

/-! ## With a work list -/

/-- What is still to be written in a plain style: a text, or a chain with the gap in front of it. -/
inductive FormItem where
  | text (s : String)
  | chain (t : Tree) (gap : String)

/-- The steps that the items of a work list take. -/
def FormItem.steps : List FormItem → Nat
  | [] => 0
  | text _ :: work => 1 + steps work
  | chain t _ :: work => 2 * t.size + steps work

/-- Writes the items of a work list behind `parts`, the latest part first. -/
def renderForms (style : Style) (work : List FormItem) (parts : List String) : List String :=
  match work with
  | [] => parts
  | .text s :: work => renderForms style work (s :: parts)
  | .chain absent _ :: work => renderForms style work parts
  | .chain (node .nil _ _) _ :: work => renderForms style work parts
  | .chain (node .branch child next) gap :: work =>
    renderForms style (.chain child "" :: .text ")" :: .chain next " " :: work)
      ("(" :: gap :: parts)
  | .chain (node a _ next) gap :: work =>
    renderForms style (.chain next (if a = .quote then "" else " ") :: work)
      (a.text style :: gap :: parts)
termination_by FormItem.steps work
decreasing_by all_goals simp only [FormItem.steps, size]; omega

/-- What is still to be written in a decorated style: a text, or a chain. -/
inductive NodeItem where
  | text (s : String)
  | chain (t : Tree)

/-- The steps that the items of a work list take. -/
def NodeItem.steps : List NodeItem → Nat
  | [] => 0
  | text _ :: work => 1 + steps work
  | chain t :: work => 3 * t.size + steps work

/-- Writes the items of a work list behind `parts`, the latest part first. -/
def renderNodes (style : Style) (work : List NodeItem) (parts : List String) : List String :=
  match work with
  | [] => parts
  | .text s :: work => renderNodes style work (s :: parts)
  | .chain absent :: work => renderNodes style work parts
  | .chain (node a child next) :: work =>
    let parts := a.text style :: parts
    if child.isAbsent then
      if next.isAbsent || a = .quote then renderNodes style (.chain next :: work) parts
      else renderNodes style (.chain next :: work) (" " :: parts)
    else if next.isAbsent then renderNodes style (.chain child :: .text ")" :: work) parts
    else renderNodes style (.chain child :: .text ")" :: .text " " :: .chain next :: work) parts
termination_by NodeItem.steps work
decreasing_by all_goals simp only [NodeItem.steps, size]; omega

/-- The text of a tree. -/
def render (style : Style) (t : Tree) : String :=
  String.join <| List.reverse <|
    if style.decorated then renderNodes style [.chain t] [] else renderForms style [.chain t ""] []

end Tree

end Sexpr
