import Sexpr.Proofs.Tree.Recursion

/-!
# The shape of a tree

`Tree.MadeOf p` is the shape of the trees that the reader builds, with a condition on the atoms
that are neither lists nor sentinels. Without a condition it is `Tree.WellFormed`.

`Tree.before` puts the forms of one chain in front of another one. `Tree.alike` compares two trees
place by place, and `Tree.mapAtoms` replaces the atom at each place.
-/

namespace Sexpr

namespace Tree

/-- Every chain ends with one sentinel, exactly the lists own a chain, and every other atom is as
`p` says. -/
inductive MadeOf (p : Atom → Prop) : Tree → Prop
  | sentinel : MadeOf p sentinel
  | branch {child next : Tree} :
    MadeOf p child → MadeOf p next → MadeOf p (node .branch child next)
  | leaf {a : Atom} {next : Tree} :
    a ≠ .nil → a ≠ .branch → p a → MadeOf p next → MadeOf p (node a absent next)

variable {p q : Atom → Prop} {t : Tree}

theorem MadeOf.of_branch {child next : Tree} (h : MadeOf p (node .branch child next)) :
    MadeOf p child ∧ MadeOf p next := by
  cases h with
  | branch hchild hnext => exact ⟨hchild, hnext⟩
  | leaf _ hbranch => exact absurd rfl hbranch

theorem MadeOf.of_leaf {a : Atom} {child next : Tree} (h : MadeOf p (node a child next))
    (hnil : a ≠ .nil) (hbranch : a ≠ .branch) : p a ∧ MadeOf p next := by
  cases h with
  | sentinel => exact absurd rfl hnil
  | branch => exact absurd rfl hbranch
  | leaf _ _ ha hnext => exact ⟨ha, hnext⟩

theorem MadeOf.wellFormed (h : MadeOf p t) : WellFormed t := by
  induction h with
  | sentinel => exact .sentinel
  | branch _ _ hchild hnext => exact .branch hchild hnext
  | leaf hnil hbranch _ _ hnext => exact .leaf hnil hbranch hnext

/-- The atoms of a tree are sentinels, lists, and those that it is made of. -/
theorem MadeOf.forall_mem (h : MadeOf p t) : ∀ a ∈ t.preorder, a = .nil ∨ a = .branch ∨ p a := by
  induction h with
  | sentinel => simp [Tree.sentinel]
  | branch _ _ hchild hnext =>
    rw [preorder_node, List.forall_mem_cons, List.forall_mem_append]
    exact ⟨.inr (.inl rfl), hchild, hnext⟩
  | leaf _ _ ha _ hnext =>
    rw [preorder_node, preorder_absent, List.nil_append, List.forall_mem_cons]
    exact ⟨.inr (.inr ha), hnext⟩

/-- A condition on all atoms of a tree sharpens the one that it is made by. -/
theorem MadeOf.sharpen (h : MadeOf p t) (hq : ∀ a ∈ t.preorder, p a → q a) : MadeOf q t := by
  induction h with
  | sentinel => exact .sentinel
  | branch _ _ hchild hnext =>
    simp only [preorder_node, List.mem_cons, List.mem_append] at hq
    exact .branch (hchild fun a ha => hq a (.inr (.inl ha)))
      (hnext fun a ha => hq a (.inr (.inr ha)))
  | leaf hnil hbranch ha _ hnext =>
    simp only [preorder_node, List.mem_cons, List.mem_append] at hq
    exact .leaf hnil hbranch (hq _ (.inl rfl) ha) (hnext fun a ha => hq a (.inr (.inr ha)))

/-! ## One chain in front of another -/

/-- The forms of a chain in front of another chain, in place of the sentinel. -/
def before : Tree → Tree → Tree
  | absent, rest => rest
  | node .nil _ _, rest => rest
  | node a child next, rest => node a child (next.before rest)

theorem before_node {a : Atom} (h : a ≠ .nil) (child next rest : Tree) :
    (node a child next).before rest = node a child (next.before rest) := by
  rw [before]
  exact h

@[simp] theorem before_branch (child next rest : Tree) :
    (node .branch child next).before rest = node .branch child (next.before rest) := rfl

/-- A chain in front of a sentinel is as it was. -/
theorem before_sentinel (h : WellFormed t) : t.before sentinel = t := by
  induction h with
  | sentinel => rfl
  | branch _ _ _ hnext => rw [before_branch, hnext]
  | leaf hnil _ _ hnext => rw [before_node hnil, hnext]

theorem forms_node {a : Atom} (h : a ≠ .nil) (child next : Tree) :
    (node a child next).forms = ⟨a, child⟩ :: next.forms := by
  rw [forms]
  exact h

theorem forms_before (h : WellFormed t) (rest : Tree) :
    (t.before rest).forms = t.forms ++ rest.forms := by
  induction h with
  | sentinel => rfl
  | branch _ _ _ hnext =>
    rw [before_branch, forms_node (by simp), forms_node (by simp), hnext, List.cons_append]
  | leaf hnil _ _ hnext =>
    rw [before_node hnil, forms_node hnil, forms_node hnil, hnext, List.cons_append]

/-! ## Place by place -/

/-- The same shape, and at each place two atoms that `accepts` takes. -/
def alike (accepts : Atom → Atom → Bool) : Tree → Tree → Bool
  | absent, absent => true
  | node a child next, node b child' next' =>
    accepts a b && child.alike accepts child' && next.alike accepts next'
  | _, _ => false

@[simp] theorem alike_absent (accepts : Atom → Atom → Bool) :
    absent.alike accepts absent = true := rfl

@[simp] theorem alike_node (accepts : Atom → Atom → Bool) (a b : Atom)
    (child next child' next' : Tree) :
    (node a child next).alike accepts (node b child' next') =
      (accepts a b && child.alike accepts child' && next.alike accepts next') := rfl

theorem eq_absent_of_alike {accepts : Atom → Atom → Bool} {r : Tree}
    (h : absent.alike accepts r = true) : r = absent := by
  cases r with
  | absent => rfl
  | node b child next => exact absurd h Bool.false_ne_true

theorem exists_of_alike_node {accepts : Atom → Atom → Bool} {a : Atom} {child next r : Tree}
    (h : (node a child next).alike accepts r = true) :
    ∃ b child' next', r = node b child' next' ∧ accepts a b = true ∧
      child.alike accepts child' = true ∧ next.alike accepts next' = true := by
  cases r with
  | absent => exact absurd h Bool.false_ne_true
  | node b child' next' =>
    rw [alike_node, Bool.and_eq_true, Bool.and_eq_true, and_assoc] at h
    exact ⟨b, child', next', rfl, h⟩

theorem isAbsent_eq_of_alike {accepts : Atom → Atom → Bool} {l r : Tree}
    (h : l.alike accepts r = true) : l.isAbsent = r.isAbsent := by
  cases l with
  | absent => rw [eq_absent_of_alike h]
  | node a child next =>
    obtain ⟨b, child', next', rfl, -⟩ := exists_of_alike_node h
    rfl

/-- Equivalence compares the atoms as `Atom.same` does. -/
theorem equivalent_eq_alike (l r : Tree) : l.equivalent r = l.alike Atom.same r := by
  rw [equivalent_eq_same]
  induction l generalizing r with
  | absent => cases r <;> rfl
  | node a child next ihchild ihnext =>
    cases r with
    | absent => rfl
    | node b child' next' => rw [same_node, alike_node, ihchild, ihnext]

/-- The same shape with other atoms. -/
def mapAtoms (f : Atom → Atom) : Tree → Tree
  | absent => absent
  | node a child next => node (f a) (child.mapAtoms f) (next.mapAtoms f)

@[simp] theorem mapAtoms_node (f : Atom → Atom) (a : Atom) (child next : Tree) :
    (node a child next).mapAtoms f = node (f a) (child.mapAtoms f) (next.mapAtoms f) := rfl

theorem mapAtoms_id (t : Tree) : t.mapAtoms id = t := by
  induction t with
  | absent => rfl
  | node a child next ihchild ihnext => rw [mapAtoms_node, ihchild, ihnext, id]

/-- A tree keeps its shape if lists and sentinels stay, and no other atom becomes one. -/
theorem MadeOf.wellFormed_mapAtoms (h : MadeOf p t) {f : Atom → Atom} (hnil : f .nil = .nil)
    (hbranch : f .branch = .branch)
    (hleaf : ∀ a, a ≠ .nil → a ≠ .branch → f a ≠ .nil ∧ f a ≠ .branch) :
    WellFormed (t.mapAtoms f) := by
  induction h with
  | sentinel =>
    rw [Tree.sentinel, mapAtoms_node, hnil]
    exact .sentinel
  | branch _ _ hchild hnext =>
    rw [mapAtoms_node, hbranch]
    exact .branch hchild hnext
  | @leaf a next hanil habranch _ _ hnext =>
    obtain ⟨hfnil, hfbranch⟩ := hleaf a hanil habranch
    exact .leaf hfnil hfbranch hnext

/-- **A tree against its image**: each atom against its own. -/
theorem alike_mapAtoms_iff (accepts : Atom → Atom → Bool) (f : Atom → Atom) (t : Tree) :
    (t.mapAtoms f).alike accepts t = true ↔ ∀ a ∈ t.preorder, accepts (f a) a = true := by
  induction t with
  | absent => simp [Tree.mapAtoms]
  | node a child next ihchild ihnext =>
    simp only [mapAtoms_node, alike_node, Bool.and_eq_true, ihchild, ihnext, preorder_node,
      List.forall_mem_cons, List.forall_mem_append, and_assoc]

end Tree

end Sexpr
