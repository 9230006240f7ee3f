import Sexpr.Loop
import Sexpr.Tree.Linked

/-!
# The text of linked nodes

`Linked.render` writes what is seen from a node, as `Tree.render` writes a tree. It follows the
links, and on cycles it need not come to an end. What is written is kept as `Piece`s, which say of
each atom at which node it was met (`Linked.pieces`).
-/

namespace Sexpr

namespace Linked

/-- A part of the text. -/
inductive Piece (n : Nat) where
  /-- The atom of a node; of a list, its opening. -/
  | atom (i : Fin n)
  | space
  /-- The end of a list. -/
  | closing
  deriving DecidableEq

variable {n : Nat}

def Piece.text (g : Linked n) (style : Style) : Piece n → String
  | atom i => (g.cell i).atom.text style
  | space => " "
  | closing => ")"

/-! ## The plain styles -/

/-- What is still to be written: a piece, or a chain and whether a space goes in front of it. -/
inductive FormItem (n : Nat) where
  | piece (p : Piece n)
  | chain (head : Option (Fin n)) (spaced : Bool)

/-- Writes the first item of a work list behind `parts`, the latest part first. -/
def formsRound (g : Linked n) :
    List (FormItem n) × List (Piece n) → (List (FormItem n) × List (Piece n)) ⊕ List (Piece n)
  | ([], parts) => .inr parts
  | (.piece p :: work, parts) => .inl (work, p :: parts)
  | (.chain none _ :: work, parts) => .inl (work, parts)
  | (.chain (some i) spaced :: work, parts) =>
    let c := g.cell i
    if c.atom = .nil then .inl (work, parts)
    else
      let parts := .atom i :: (if spaced then .space :: parts else parts)
      if c.atom = .branch then
        .inl (.chain c.child false :: .piece .closing :: .chain c.next true :: work, parts)
      else .inl (.chain c.next (c.atom ≠ .quote) :: work, parts)

/-! ## The decorated styles -/

/-- What is still to be written: a piece, or a chain. -/
inductive NodeItem (n : Nat) where
  | piece (p : Piece n)
  | chain (head : Fin n)

/-- Writes the first item of a work list behind `parts`, the latest part first. -/
def nodesRound (g : Linked n) :
    List (NodeItem n) × List (Piece n) → (List (NodeItem n) × List (Piece n)) ⊕ List (Piece n)
  | ([], parts) => .inr parts
  | (.piece p :: work, parts) => .inl (work, p :: parts)
  | (.chain i :: work, parts) =>
    let c := g.cell i
    let parts := .atom i :: parts
    match c.child, c.next with
    | some j, some k =>
      .inl (.chain j :: .piece .closing :: .piece .space :: .chain k :: work, parts)
    | some j, none => .inl (.chain j :: .piece .closing :: work, parts)
    | none, some k => .inl (.chain k :: work, if c.atom = .quote then parts else .space :: parts)
    | none, none => .inl (work, parts)

/-! ## All styles -/

/-- The parts of the text of what is seen from a node, if it is written within some rounds. -/
def pieces (g : Linked n) (style : Style) (root : Fin n) (rounds : Nat) : Option (List (Piece n)) :=
  Option.map List.reverse <|
    if style.decorated then Loop.run g.nodesRound rounds ([.chain root], [])
    else Loop.run g.formsRound rounds ([.chain (some root) false], [])

/-- The text of what is seen from a node, if it is written within some rounds. -/
def render (g : Linked n) (style : Style) (root : Fin n) (rounds : Nat) : Option String :=
  (g.pieces style root rounds).map fun ps => String.join (ps.map (Piece.text g style))

end Linked

end Sexpr
