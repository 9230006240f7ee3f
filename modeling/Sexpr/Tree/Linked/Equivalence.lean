import Sexpr.Loop
import Sexpr.Tree.Linked

/-!
# Equivalence of linked nodes

`Linked.Rooted.equivalent` compares what is seen from two roots, as `Tree.equivalent` compares two
trees. It follows the links and marks nothing: a shared node is compared again each time it comes
up, and on cycles the comparison need not come to an end.
-/

namespace Sexpr

namespace Linked

/-- Compares the first pair of a work list. The children of two nodes wait until the rest of their
chains has been compared. -/
def equivalentRound {m n : Nat} (g : Linked m) (h : Linked n) :
    List (Option (Fin m) × Option (Fin n)) → List (Option (Fin m) × Option (Fin n)) ⊕ Bool
  | [] => .inr true
  | (none, none) :: pairs => .inl pairs
  | (none, some _) :: _ => .inr false
  | (some _, none) :: _ => .inr false
  | (some i, some j) :: pairs =>
    let c := g.cell i
    let d := h.cell j
    if !c.atom.same d.atom then .inr false
    else if c.child.isNone != d.child.isNone then .inr false
    else if c.child.isNone then .inl ((c.next, d.next) :: pairs)
    else .inl ((c.next, d.next) :: (c.child, d.child) :: pairs)

/-- Whether the same is seen from two roots, if that is found out within some rounds. -/
def Rooted.equivalent (l r : Rooted) (rounds : Nat) : Option Bool :=
  Loop.run (equivalentRound l.table r.table) rounds [(l.root, r.root)]

end Linked

end Sexpr
