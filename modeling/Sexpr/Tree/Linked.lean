import Sexpr.Tree

/-!
# Linked nodes

Nodes that refer to each other by their place in a table. Unlike a `Tree`, a table can share a
node between two owners and can hold cycles, so here the tree rules are a question.

* `Linked` is a table of `Cell`s, `Linked.ofEntries` makes one from links that may lead nowhere,
  and `Linked.ofTree` lays out a tree.
* `Linked.walk` goes along what can be reached from a node, up to the first `Violation` of the rules
  of a tree. `Linked.validate` puts the violation into words, or fails to, which makes a
  `Rejection`; `Linked.validateTree` lays out a tree and checks it.
* `Linked.unfold` is the tree that is seen by following the links.
* `Linked.Rooted` is a table with a node to start from, or without one.
-/

namespace Sexpr

namespace Linked

/-- A node of a table with `n` nodes. -/
structure Cell (n : Nat) where
  atom : Atom
  child : Option (Fin n)
  next : Option (Fin n)

/-- A node with links that may lead out of the table. -/
structure Entry where
  atom : Atom
  child : Option Nat
  next : Option Nat

end Linked

/-- A table of `n` linked nodes. -/
structure Linked (n : Nat) where
  cells : Vector (Linked.Cell n) n

namespace Linked

/-- A link into a table of `n` nodes; one that leads out of it is no link. -/
def link (n : Nat) (target : Option Nat) : Option (Fin n) :=
  target.bind fun i => if h : i < n then some ⟨i, h⟩ else none

/-- The table of some entries, in their order. -/
def ofEntries (entries : Array Entry) : Linked entries.size :=
  ⟨entries.toVector.map fun e => ⟨e.atom, link entries.size e.child, link entries.size e.next⟩⟩

/-! ## The table of a tree -/

/-- What a node of a tree says about itself before its child and its next are laid out. -/
structure Slot where
  atom : Atom
  hasChild : Bool
  hasNext : Bool

/-- The nodes of the trees on a work list, behind those in `found`, latest first. -/
def slotsOnto (work : List Tree) (found : List Slot) : List Slot :=
  match work with
  | [] => found
  | .absent :: work => slotsOnto work found
  | .node a child next :: work =>
    slotsOnto (child :: next :: work) (⟨a, !child.isAbsent, !next.isAbsent⟩ :: found)
termination_by Tree.totalSize work
decreasing_by all_goals simp only [Tree.totalSize, Tree.size]; omega

/-- Takes a link from the heads that wait for an owner. -/
def claim (wanted : Bool) (heads : List Nat) : Option Nat × List Nat :=
  if wanted then (heads.head?, heads.tail) else (none, heads)

/-- Lays out one node behind the others. `heads` are the heads of the chains that have no owner
yet, and the node owns the first ones of them. -/
def place (laid : Array Entry × List Nat) (slot : Slot) : Array Entry × List Nat :=
  let (entries, heads) := laid
  let (child, heads) := claim slot.hasChild heads
  let (next, heads) := claim slot.hasNext heads
  let place := entries.size
  (entries.push ⟨slot.atom, child, next⟩, place :: heads)

/-- The nodes of a tree, each behind its child and its next, so that the root comes last. -/
def layOut (t : Tree) : Array Entry := ((slotsOnto [t] []).foldl place (#[], [])).1

/-- The table of a tree. -/
def ofTree (t : Tree) : Linked (layOut t).size := ofEntries (layOut t)

/-! ## The rules of a tree -/

/-- What a table can have against being a tree. -/
inductive Violation where
  /-- Two links lead to the same node, or one leads back to the root. -/
  | shared (atom : Atom)
  /-- A list without a chain of its own. -/
  | branchWithoutChild
  /-- A node that owns a chain and is no list. -/
  | ownsChild (kind : Kind)
  /-- A sentinel that goes on. -/
  | sentinelLinks (target : Atom)
  /-- A chain that ends without a sentinel. -/
  | endsAt (atom : Atom)
  deriving DecidableEq

/-- The report of a violation, unless it shows a long integer. -/
def Violation.message? : Violation → Option String
  | shared a => a.describe?.map fun text => "atom " ++ text ++ " has more than one owner"
  | branchWithoutChild => some "branch without child sequence"
  | ownsChild kind => some (kind.name ++ " atom owns a child")
  | sentinelLinks a => a.describe?.map fun text => "sentinel links to " ++ text
  | endsAt a => a.describe?.map fun text => "sequence ends at " ++ text ++ " without a sentinel"

/-- How a check fails. -/
inductive Rejection where
  /-- The violation is named, with the report of it. -/
  | named (v : Violation) (message : String)
  /-- The violation has no report, for a long integer would have to be shown. -/
  | unwritable
  deriving DecidableEq

/-- The report of a failure. -/
def Rejection.message : Rejection → String
  | named _ message => message
  | unwritable => Numeral.tooLongText ""

/-- How a check fails that meets a violation. -/
def Violation.rejection (v : Violation) : Rejection :=
  match v.message? with
  | some message => .named v message
  | none => .unwritable

variable {n : Nat}

/-- The node at a place. -/
def cell (g : Linked n) (i : Fin n) : Cell n := g.cells[i]

/-- What is wrong with a node on its own: its child is looked at before its next. -/
def violation? (g : Linked n) (i : Fin n) : Option Violation :=
  let c := g.cell i
  if c.atom = .branch ∧ c.child = none then some .branchWithoutChild
  else if c.atom ≠ .branch ∧ c.child ≠ none then some (.ownsChild c.atom.kind)
  else if c.atom = .nil then c.next.map fun j => .sentinelLinks (g.cell j).atom
  else if c.next = none then some (.endsAt c.atom)
  else none

/-- Marking a node leaves fewer nodes unmarked. -/
theorem count_set_lt (seen : Vector Bool n) (i : Fin n) (h : seen[i] = false) :
    (seen.set i true).count false < seen.count false := by
  have hpos : 0 < seen.count false := Vector.count_pos_iff.2 (h ▸ Vector.getElem_mem i.isLt)
  have hi : seen[i.val] = false := h
  have hset : (seen.set i true).count false = seen.count false - 1 := by
    simp [Vector.count_set, hi]
  omega

/-- Walks a chain from `i`, then the chains that wait in `pending`. The children met on the way go
to the front of `pending`. -/
def walk (g : Linked n) (seen : Vector Bool n) (pending : List (Fin n)) (i : Fin n) :
    Except Violation Unit :=
  if _h : seen[i] then .error (.shared (g.cell i).atom)
  else
    match g.violation? i with
    | some v => .error v
    | none =>
      let pending := (g.cell i).child.toList ++ pending
      match (g.cell i).next, pending with
      | some j, pending => g.walk (seen.set i true) pending j
      | none, j :: pending => g.walk (seen.set i true) pending j
      | none, [] => .ok ()
termination_by seen.count false
decreasing_by all_goals exact count_set_lt seen i (by simpa using _h)

/-- Checks all that can be reached from a node against the rules of a tree. -/
def validate (g : Linked n) (root : Fin n) : Except Rejection (Fin n) :=
  ((g.walk (Vector.replicate n false) [] root).mapError Violation.rejection).map fun _ => root

/-- Checks a tree as a table of its nodes. A tree without nodes has nothing against it. -/
def validateTree (t : Tree) : Except Rejection Unit :=
  if h : 0 < (layOut t).size then
    ((ofTree t).validate ⟨(layOut t).size - 1, Nat.sub_one_lt_of_lt h⟩).map fun _ => ()
  else .ok ()

/-! ## Unfolding -/

/-- The trees that are seen from the nodes, cut off `rounds` links away. -/
def unfoldings (g : Linked n) : Nat → Vector Tree n
  | 0 => Vector.replicate n .absent
  | rounds + 1 =>
    let below := g.unfoldings rounds
    let look (target : Option (Fin n)) : Tree := (target.map (below[·])).getD .absent
    g.cells.map fun c => .node c.atom (look c.child) (look c.next)

/-- The tree that is seen from a node. Without cycles no path has more than `n` nodes. -/
def unfold (g : Linked n) (root : Fin n) : Tree := (g.unfoldings n)[root]

/-! ## A table with a root -/

/-- A table of nodes, and the one that is meant, if there is one. -/
structure Rooted where
  size : Nat
  table : Linked size
  root : Option (Fin size)

namespace Rooted

/-- The first of some entries. -/
def ofEntries (entries : Array Entry) : Rooted :=
  ⟨entries.size, Linked.ofEntries entries, link entries.size (some 0)⟩

/-- The root of a tree, in the table of the tree. -/
def ofTree (t : Tree) : Rooted :=
  ⟨(layOut t).size, Linked.ofTree t, link (layOut t).size ((layOut t).size.pred)⟩

/-- The tree that is seen from the root. -/
def unfold (s : Rooted) : Tree := (s.root.map s.table.unfold).getD .absent

end Rooted

end Linked

end Sexpr
