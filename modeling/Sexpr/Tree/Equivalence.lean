import Sexpr.Tree

/-!
# Equivalence of trees

Two trees are equivalent if they have the same shape and the same atom at each place.

* `Tree.same` says so by recursion on both.
* `Tree.equivalent` decides it with a list of pairs still to be compared: it goes along two chains
  at once and puts off their children.
-/

namespace Sexpr

namespace Tree

/-- The same shape, and the same atom at each place. -/
def same : Tree → Tree → Bool
  | absent, absent => true
  | node a child next, node b child' next' => a.same b && child.same child' && next.same next'
  | _, _ => false

/-- The places in a list of pairs. -/
def pairsSize : List (Tree × Tree) → Nat
  | [] => 0
  | (l, r) :: pairs => l.size + r.size + pairsSize pairs

/-- Compares the pairs of a work list, the first one first. The children of two nodes wait until
the rest of their chains has been compared. -/
def equivalentPairs : List (Tree × Tree) → Bool
  | [] => true
  | (absent, absent) :: pairs => equivalentPairs pairs
  | (absent, node ..) :: _ => false
  | (node .., absent) :: _ => false
  | (node a child next, node b child' next') :: pairs =>
    if !a.same b then false
    else if child.isAbsent != child'.isAbsent then false
    else if child.isAbsent then equivalentPairs ((next, next') :: pairs)
    else equivalentPairs ((next, next') :: (child, child') :: pairs)
termination_by pairs => pairsSize pairs
decreasing_by all_goals simp only [pairsSize, size]; omega

/-- Whether two trees are equivalent, without recursion on them. -/
def equivalent (l r : Tree) : Bool := equivalentPairs [(l, r)]

end Tree

end Sexpr
