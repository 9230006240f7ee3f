import Sexpr.Tree.Linked

/-!
# What is seen by following links

`Linked.Unfolds` is the unfolding of a table of nodes by itself: a tree, and for each of its nodes
the place of the table that it stands for. A node that several links lead to stands there several
times, and behind a cycle there is no unfolding.

`Linked.unfold` follows the links for as many rounds as there are nodes. When there is an unfolding
that is no higher, this is it (`Unfolds.look_unfoldings`).
-/

namespace Sexpr

/-- The most nodes on a way from the first node of a tree. -/
def Tree.height : Tree → Nat
  | absent => 0
  | node _ child next => max child.height next.height + 1

namespace Linked

variable {n : Nat}

/-- What is seen behind a link: a tree, and the places of its nodes, each before those of its child
and of its next. -/
inductive Unfolds (g : Linked n) : Option (Fin n) → Tree → List (Fin n) → Prop
  | absent : Unfolds g none .absent []
  | node {i : Fin n} {child next : Tree} {cs ns : List (Fin n)} :
    Unfolds g (g.cell i).child child cs → Unfolds g (g.cell i).next next ns →
    Unfolds g (some i) (.node (g.cell i).atom child next) (i :: (cs ++ ns))

variable {g : Linked n} {target : Option (Fin n)} {t : Tree} {places : List (Fin n)}

theorem unfolds_of_cell {i : Fin n} {a : Atom} {c m : Option (Fin n)}
    (hcell : g.cell i = ⟨a, c, m⟩) {child next : Tree} {cs ns : List (Fin n)}
    (hchild : g.Unfolds c child cs) (hnext : g.Unfolds m next ns) :
    g.Unfolds (some i) (.node a child next) (i :: (cs ++ ns)) := by
  have hself := @Unfolds.node n g i child next cs ns
  rw [hcell] at hself
  exact hself hchild hnext

/-- Nothing is seen only where no link leads. -/
theorem Unfolds.eq_none (h : g.Unfolds target .absent places) : target = none ∧ places = [] := by
  cases h with
  | absent => exact ⟨rfl, rfl⟩

/-- Of a tree that is well formed there is something to see. -/
theorem Unfolds.exists_target (h : g.Unfolds target t places) (ht : t.WellFormed) :
    ∃ i, target = some i := by
  cases h with
  | absent => cases ht
  | node => exact ⟨_, rfl⟩

/-- A node is seen only behind a link to a node with the same atom. -/
theorem Unfolds.exists_cell {a : Atom} {child next : Tree}
    (h : g.Unfolds target (.node a child next) places) :
    ∃ i cs ns, target = some i ∧ (g.cell i).atom = a ∧ places = i :: (cs ++ ns) ∧
      g.Unfolds (g.cell i).child child cs ∧ g.Unfolds (g.cell i).next next ns := by
  cases h with
  | @node i _ _ cs ns hchild hnext => exact ⟨i, cs, ns, rfl, rfl, rfl, hchild, hnext⟩

/-- **There is one unfolding.** -/
theorem Unfolds.unique (h : g.Unfolds target t places) {t' : Tree} {places' : List (Fin n)}
    (h' : g.Unfolds target t' places') : t' = t ∧ places' = places := by
  induction h generalizing t' places' with
  | absent =>
    cases h' with
    | absent => exact ⟨rfl, rfl⟩
  | node _ _ ihchild ihnext =>
    cases h' with
    | node hchild hnext =>
      obtain ⟨rfl, rfl⟩ := ihchild hchild
      obtain ⟨rfl, rfl⟩ := ihnext hnext
      exact ⟨rfl, rfl⟩

theorem Unfolds.isAbsent_eq (h : g.Unfolds target t places) : t.isAbsent = target.isNone := by
  cases h <;> rfl

theorem Unfolds.height_le (h : g.Unfolds target t places) : t.height ≤ places.length := by
  induction h with
  | absent => exact Nat.le_refl 0
  | node _ _ ihchild ihnext =>
    rw [Tree.height, List.length_cons, List.length_append]
    omega

/-! ## Rounds -/

/-- The tree behind a link, seen from the places one link nearer. -/
def look (below : Vector Tree n) (target : Option (Fin n)) : Tree :=
  (target.map below.get).getD .absent

theorem get_unfoldings (g : Linked n) (rounds : Nat) (i : Fin n) :
    (g.unfoldings (rounds + 1)).get i =
      .node (g.cell i).atom (look (g.unfoldings rounds) (g.cell i).child)
        (look (g.unfoldings rounds) (g.cell i).next) := by
  rw [unfoldings]
  exact Vector.getElem_map _ i.isLt

/-- **Enough rounds** show all of an unfolding. -/
theorem Unfolds.look_unfoldings (h : g.Unfolds target t places) {rounds : Nat}
    (hrounds : t.height ≤ rounds) : look (g.unfoldings rounds) target = t := by
  induction h generalizing rounds with
  | absent => rfl
  | @node i child next cs ns _ _ ihchild ihnext =>
    rw [Tree.height] at hrounds
    cases rounds with
    | zero => omega
    | succ rounds =>
      have hself : look (g.unfoldings (rounds + 1)) (some i) = (g.unfoldings (rounds + 1)).get i :=
        rfl
      rw [hself, get_unfoldings, ihchild (by omega), ihnext (by omega)]

end Linked

end Sexpr
