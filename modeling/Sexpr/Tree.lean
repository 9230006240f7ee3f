import Sexpr.Token

/-!
# Trees of atoms

A tree is a chain of nodes. Each node holds an atom, owns the chain of its child and goes on to
the next node. The reader builds chains that end with a lone `nil`, the sentinel, and gives a
child to lists and to nothing else; `Tree.WellFormed` says so. Other trees are values too.

* `Tree.forms` lists the nodes of a chain before its sentinel, each as a `Form`.
* `Tree.unwind` puts forms in front of a chain.
* `Tree.preorder` lists all atoms: those of a node, of its child, of its next.
-/

namespace Sexpr

/-- A chain of nodes, or nothing. -/
inductive Tree where
  /-- No node. -/
  | absent
  /-- A node with the chain it owns and the chain it goes on to. -/
  | node (atom : Atom) (child next : Tree)
  deriving DecidableEq

/-- A node without its successors: an atom, and the chain it owns. -/
structure Form where
  atom : Atom
  child : Tree
  deriving DecidableEq

namespace Tree

/-- The end of a chain. -/
def sentinel : Tree := node .nil absent absent

def isAbsent : Tree → Bool
  | absent => true
  | node .. => false

/-- The atom of the first node. -/
def head? : Tree → Option Atom
  | absent => none
  | node a _ _ => some a

/-- The chain that the first node owns. -/
def child : Tree → Tree
  | absent => absent
  | node _ child _ => child

/-- The chain behind the first node. -/
def next : Tree → Tree
  | absent => absent
  | node _ _ next => next

/-- Whether no form comes: nothing, or the end of a chain. -/
def endsHere : Tree → Bool
  | absent => true
  | node a _ _ => a = .nil

/-- The number of places in a tree, absent ones included. -/
def size : Tree → Nat
  | absent => 1
  | node _ child next => child.size + next.size + 1

/-- The nodes of a chain, up to its sentinel. -/
def forms : Tree → List Form
  | absent => []
  | node .nil _ _ => []
  | node a child next => ⟨a, child⟩ :: next.forms

/-- Whether one of the nodes of a chain, up to its sentinel, is as `p` says. -/
def anyForm (p : Form → Bool) : Tree → Bool
  | absent => false
  | node .nil _ _ => false
  | node a child next => p ⟨a, child⟩ || next.anyForm p

/-- The chain of the forms `latest`, the last one first, in front of `rest`. -/
def unwind (latest : List Form) (rest : Tree) : Tree :=
  latest.foldl (fun next form => node form.atom form.child next) rest

/-- Every chain ends with one sentinel, which owns nothing, and exactly the lists own a chain. -/
inductive WellFormed : Tree → Prop
  | sentinel : WellFormed sentinel
  | branch {child next : Tree} :
    WellFormed child → WellFormed next → WellFormed (node .branch child next)
  | leaf {a : Atom} {next : Tree} :
    a ≠ .nil → a ≠ .branch → WellFormed next → WellFormed (node a absent next)

/-! ## All atoms -/

/-- The places of a list of trees. -/
def totalSize : List Tree → Nat
  | [] => 0
  | t :: trees => t.size + totalSize trees

/-- The atoms of the trees on a work list, behind those in `found`, latest first. -/
def preorderOnto (work : List Tree) (found : List Atom) : List Atom :=
  match work with
  | [] => found
  | absent :: work => preorderOnto work found
  | node a child next :: work => preorderOnto (child :: next :: work) (a :: found)
termination_by totalSize work
decreasing_by all_goals simp only [totalSize, size]; omega

/-- All atoms of a tree: a node before its child, and its child before its next. -/
def preorder (t : Tree) : List Atom := (preorderOnto [t] []).reverse

end Tree

end Sexpr
