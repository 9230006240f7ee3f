import Sexpr.Proofs.Binary64.Nearest
import Sexpr.Proofs.Tree.Acyclic
import Sexpr.Tree.Linked.Equivalence

/-!
# Equivalence is equality of unfoldings

`Tree.Agrees` is equality of trees as it is meant: both absent, or atoms of the same kind and value,
and the same again for the children and the nexts. A float is compared as a number, so the two zeros
are equal and a NaN is not equal to itself.

The comparison of two tables goes along with the comparison of their unfoldings, pair by pair of the
work lists (`Linked.endsWith_equivalentPairs`). So without cycles it ends, and tells whether the
unfoldings agree (`Linked.Rooted.equivalent_of_acyclic`), whatever is shared, and whether the rules
of a tree hold or not.
-/

namespace Sexpr

/-! ## Atoms -/

namespace Atom

/-- The same kind and the same value: floats as numbers, everything else exactly. -/
inductive Agrees : Atom → Atom → Prop
  | exact {a : Atom} : a.kind ≠ .float → Agrees a a
  | float {x y : Binary64} : x.NumEq y → Agrees (float x) (float y)

variable {a b c : Atom}

theorem same_iff_agrees : a.same b = true ↔ a.Agrees b := by
  constructor
  · intro h
    unfold same at h
    split at h
    · exact .float (Binary64.same_iff.1 h)
    · next hfloat =>
      obtain rfl := of_decide_eq_true h
      refine .exact fun hkind => ?_
      cases a <;> first | exact hfloat _ _ rfl rfl | exact Kind.noConfusion hkind
  · intro h
    cases h with
    | exact hkind =>
      unfold same
      split
      · exact absurd rfl hkind
      · exact decide_eq_true rfl
    | float hvalue => exact Binary64.same_iff.2 hvalue

theorem Agrees.symm (h : a.Agrees b) : b.Agrees a := by
  cases h with
  | exact hkind => exact .exact hkind
  | float hvalue => exact .float hvalue.symm

theorem Agrees.trans (h : a.Agrees b) (h' : b.Agrees c) : a.Agrees c := by
  cases h with
  | exact _ => exact h'
  | float hvalue =>
    cases h' with
    | exact hkind => exact absurd rfl hkind
    | float hvalue' => exact .float (hvalue.trans hvalue')

/-- Only a NaN does not agree with itself. -/
theorem agrees_self_iff : a.Agrees a ↔ ∀ x, a = float x → x.isNaN = false := by
  constructor
  · rintro h x rfl
    cases h with
    | exact hkind => exact absurd rfl hkind
    | float hvalue => exact Binary64.numEq_self_iff.1 hvalue
  · intro h
    cases a with
    | float x => exact .float (Binary64.numEq_self_iff.2 (h x rfl))
    | _ => exact .exact Kind.noConfusion

end Atom

/-! ## Trees -/

namespace Tree

/-- Equality of trees: both absent, or atoms that agree, and the same of their children and their
nexts. -/
inductive Agrees : Tree → Tree → Prop
  | absent : Agrees absent absent
  | node {a b : Atom} {child next child' next' : Tree} :
    a.Agrees b → Agrees child child' → Agrees next next' →
    Agrees (node a child next) (node b child' next')

variable {l r s : Tree}

theorem same_iff_agrees : l.same r = true ↔ l.Agrees r := by
  constructor
  · intro h
    induction l generalizing r with
    | absent =>
      cases r with
      | absent => exact .absent
      | node b child next => exact absurd h Bool.false_ne_true
    | node a child next ihchild ihnext =>
      cases r with
      | absent => exact absurd h Bool.false_ne_true
      | node b child' next' =>
        rw [same_node, Bool.and_eq_true, Bool.and_eq_true] at h
        obtain ⟨⟨hatom, hchild⟩, hnext⟩ := h
        exact .node (Atom.same_iff_agrees.1 hatom) (ihchild hchild) (ihnext hnext)
  · intro h
    induction h with
    | absent => rfl
    | node hatom _ _ hchild hnext =>
      rw [same_node, hchild, hnext, Atom.same_iff_agrees.2 hatom]
      rfl

theorem equivalent_iff_agrees : l.equivalent r = true ↔ l.Agrees r := by
  rw [equivalent_eq_same, same_iff_agrees]

theorem Agrees.symm (h : l.Agrees r) : r.Agrees l := by
  induction h with
  | absent => exact .absent
  | node hatom _ _ hchild hnext => exact .node hatom.symm hchild hnext

theorem Agrees.trans (h : l.Agrees r) (h' : r.Agrees s) : l.Agrees s := by
  induction h generalizing s with
  | absent => exact h'
  | node hatom _ _ ihchild ihnext =>
    cases h' with
    | node hatom' hchild hnext =>
      exact .node (hatom.trans hatom') (ihchild hchild) (ihnext hnext)

/-- A tree agrees with itself if its atoms do. -/
theorem agrees_self_iff : l.Agrees l ↔ ∀ a ∈ l.preorder, a.Agrees a := by
  induction l with
  | absent => exact iff_of_true .absent (by simp)
  | node a child next ihchild ihnext =>
    rw [preorder_node, List.forall_mem_cons, List.forall_mem_append, ← ihchild, ← ihnext]
    constructor
    · rintro (_ | ⟨hatom, hchild, hnext⟩)
      exact ⟨hatom, hchild, hnext⟩
    · rintro ⟨hatom, hchild, hnext⟩
      exact .node hatom hchild hnext

end Tree

/-! ## Tables -/

namespace Linked

section

variable {m n : Nat} {g : Linked m} {h : Linked n}

/-- Two links of two tables, and what is seen behind them. -/
def PairUnfolds (g : Linked m) (h : Linked n) (links : Option (Fin m) × Option (Fin n))
    (trees : Tree × Tree) : Prop :=
  (∃ places, g.Unfolds links.1 trees.1 places) ∧ ∃ places, h.Unfolds links.2 trees.2 places

theorem PairUnfolds.isAbsent_left {links : Option (Fin m) × Option (Fin n)} {trees : Tree × Tree}
    (hpair : PairUnfolds g h links trees) : trees.1.isAbsent = links.1.isNone := by
  obtain ⟨⟨places, hl⟩, -⟩ := hpair
  exact hl.isAbsent_eq

theorem PairUnfolds.isAbsent_right {links : Option (Fin m) × Option (Fin n)} {trees : Tree × Tree}
    (hpair : PairUnfolds g h links trees) : trees.2.isAbsent = links.2.isNone := by
  obtain ⟨-, places, hr⟩ := hpair
  exact hr.isAbsent_eq

/-- Two nodes of trees are seen at two nodes of tables, and their children and nexts behind the
links of these. -/
theorem exists_cells {links : List (Option (Fin m) × Option (Fin n))} {a b : Atom}
    {child next child' next' : Tree} {trees : List (Tree × Tree)}
    (hpairs : List.Forall₂ (PairUnfolds g h) links
      ((.node a child next, .node b child' next') :: trees)) :
    ∃ i j rest, links = (some i, some j) :: rest ∧ (g.cell i).atom = a ∧ (h.cell j).atom = b ∧
      PairUnfolds g h ((g.cell i).child, (h.cell j).child) (child, child') ∧
      PairUnfolds g h ((g.cell i).next, (h.cell j).next) (next, next') ∧
      List.Forall₂ (PairUnfolds g h) rest trees := by
  obtain _ | @⟨⟨_, _⟩, _, rest, _, ⟨⟨ps, hl⟩, qs, hr⟩, hrest⟩ := hpairs
  obtain ⟨i, cs, ns, rfl, hatom, -, hchild, hnext⟩ := hl.exists_cell
  obtain ⟨j, cs', ns', rfl, hatom', -, hchild', hnext'⟩ := hr.exists_cell
  exact ⟨i, j, rest, rfl, hatom, hatom', ⟨⟨cs, hchild⟩, cs', hchild'⟩, ⟨⟨ns, hnext⟩, ns', hnext'⟩,
    hrest⟩

/-- **The comparison of two tables** ends with the answer of that of their unfoldings. -/
theorem endsWith_equivalentPairs {links : List (Option (Fin m) × Option (Fin n))}
    {trees : List (Tree × Tree)} (hpairs : List.Forall₂ (PairUnfolds g h) links trees) :
    Loop.EndsWith (equivalentRound g h) links (Tree.equivalentPairs trees) := by
  -- one case for each way that the comparison of the trees goes on
  induction trees using Tree.equivalentPairs.induct generalizing links with
  | case1 =>
    cases hpairs
    rw [Tree.equivalentPairs]
    exact .now rfl
  | case2 trees ih =>
    obtain _ | @⟨⟨_, _⟩, _, links, _, ⟨⟨ps, hl⟩, qs, hr⟩, hrest⟩ := hpairs
    cases hl
    cases hr
    rw [Tree.equivalentPairs]
    exact .later rfl (ih hrest)
  | case3 b child next trees =>
    obtain _ | @⟨⟨_, _⟩, _, links, _, ⟨⟨ps, hl⟩, qs, hr⟩, hrest⟩ := hpairs
    cases hl
    cases hr
    rw [Tree.equivalentPairs]
    exact .now rfl
  | case4 a child next trees =>
    obtain _ | @⟨⟨_, _⟩, _, links, _, ⟨⟨ps, hl⟩, qs, hr⟩, hrest⟩ := hpairs
    cases hl
    cases hr
    rw [Tree.equivalentPairs]
    exact .now rfl
  | case5 a child next b child' next' trees hatom =>
    obtain ⟨i, j, links, rfl, rfl, rfl, -, -, -⟩ := exists_cells hpairs
    rw [Tree.equivalentPairs, if_pos hatom]
    apply Loop.EndsWith.now
    rw [equivalentRound, if_pos hatom]
  | case6 a child next b child' next' trees hatom hshape =>
    obtain ⟨i, j, links, rfl, rfl, rfl, hchild, -, -⟩ := exists_cells hpairs
    rw [Tree.equivalentPairs, if_neg hatom, if_pos hshape]
    rw [hchild.isAbsent_left, hchild.isAbsent_right] at hshape
    apply Loop.EndsWith.now
    rw [equivalentRound, if_neg hatom, if_pos hshape]
  | case7 a child next b child' next' trees hatom hshape hend ih =>
    obtain ⟨i, j, links, rfl, rfl, rfl, hchild, hnext, hrest⟩ := exists_cells hpairs
    rw [Tree.equivalentPairs, if_neg hatom, if_neg hshape, if_pos hend]
    rw [hchild.isAbsent_left, hchild.isAbsent_right] at hshape
    rw [hchild.isAbsent_left] at hend
    refine .later ?_ (ih (.cons hnext hrest))
    rw [equivalentRound, if_neg hatom, if_neg hshape, if_pos hend]
  | case8 a child next b child' next' trees hatom hshape hend ih =>
    obtain ⟨i, j, links, rfl, rfl, rfl, hchild, hnext, hrest⟩ := exists_cells hpairs
    rw [Tree.equivalentPairs, if_neg hatom, if_neg hshape, if_neg hend]
    rw [hchild.isAbsent_left, hchild.isAbsent_right] at hshape
    rw [hchild.isAbsent_left] at hend
    refine .later ?_ (ih (.cons hnext (.cons hchild hrest)))
    rw [equivalentRound, if_neg hatom, if_neg hshape, if_neg hend]

end

/-! ## Roots -/

namespace Rooted

/-- A node that can be reached from the root. -/
def Reachable (s : Rooted) (i : Fin s.size) : Prop :=
  ∃ root, s.root = some root ∧ s.table.Reachable root i

/-- There is no cycle among the nodes that can be reached from the root. -/
def Acyclic (s : Rooted) : Prop := ∀ root, s.root = some root → s.table.Acyclic root

/-- A node that can be reached holds a NaN. -/
def HasNaN (s : Rooted) : Prop :=
  ∃ i, s.Reachable i ∧ ∃ x, (s.table.cell i).atom = .float x ∧ x.isNaN = true

/-- The comparison of two roots comes to an end, and to an answer. -/
def Compares (l r : Rooted) (answer : Bool) : Prop :=
  ∃ rounds, l.equivalent r rounds = some answer

variable {l r s : Rooted}

theorem Acyclic.unfolds (h : s.Acyclic) : ∃ places, s.table.Unfolds s.root s.unfold places := by
  obtain ⟨size, table, root⟩ := s
  cases root with
  | none => exact ⟨[], .absent⟩
  | some root => exact (h root rfl).unfolds

/-- What is seen is the one unfolding. -/
theorem unfolds_iff (h : s.Acyclic) (t : Tree) :
    (∃ places, s.table.Unfolds s.root t places) ↔ t = s.unfold := by
  constructor
  · rintro ⟨places, ht⟩
    obtain ⟨places', hunfolds⟩ := h.unfolds
    exact (hunfolds.unique ht).1
  · rintro rfl
    exact h.unfolds

theorem compares_iff (hl : l.Acyclic) (hr : r.Acyclic) {answer : Bool} :
    l.Compares r answer ↔ answer = l.unfold.equivalent r.unfold := by
  have hends : Loop.EndsWith (equivalentRound l.table r.table) [(l.root, r.root)]
      (l.unfold.equivalent r.unfold) :=
    endsWith_equivalentPairs (.cons ⟨hl.unfolds, hr.unfolds⟩ .nil)
  constructor
  · intro h
    exact Loop.EndsWith.unique h hends
  · rintro rfl
    exact hends

theorem compares_true_iff (hl : l.Acyclic) (hr : r.Acyclic) :
    l.Compares r true ↔ l.unfold.Agrees r.unfold := by
  rw [compares_iff hl hr, eq_comm, Tree.equivalent_iff_agrees]

theorem agrees_self_iff (h : s.Acyclic) : s.unfold.Agrees s.unfold ↔ ¬s.HasNaN := by
  obtain ⟨places, hunfolds⟩ := h.unfolds
  rw [Tree.agrees_self_iff, hunfolds.preorder_eq, List.forall_mem_map]
  simp only [Atom.agrees_self_iff, hunfolds.mem_places]
  constructor
  · rintro hall ⟨i, hi, x, hatom, hnan⟩
    rw [hall i hi x hatom] at hnan
    exact Bool.false_ne_true hnan
  · intro hnone i hi x hatom
    rw [← Bool.not_eq_true]
    exact fun hnan => hnone ⟨i, hi, x, hatom, hnan⟩

/-- **Equivalence without cycles.** The comparison of two roots ends with one answer, which says
whether their unfoldings agree. So it is symmetric and transitive, and reflexive exactly where no
NaN can be reached. Either root may be missing, nodes may be shared, and the rules of a tree need
not hold. -/
theorem equivalent_of_acyclic (hl : l.Acyclic) (hr : r.Acyclic) (hs : s.Acyclic) :
    (∀ t, (∃ places, l.table.Unfolds l.root t places) ↔ t = l.unfold) ∧
      (∀ t, (∃ places, r.table.Unfolds r.root t places) ↔ t = r.unfold) ∧
      (∃ answer, (∀ answer', l.Compares r answer' ↔ answer' = answer) ∧
        (answer = true ↔ l.unfold.Agrees r.unfold)) ∧
      (∀ answer, l.Compares r answer → r.Compares l answer) ∧
      (l.Compares r true → r.Compares s true → l.Compares s true) ∧
      (l.Compares l true ↔ ¬l.HasNaN) := by
  refine ⟨unfolds_iff hl, unfolds_iff hr,
    ⟨_, fun _ => compares_iff hl hr, Tree.equivalent_iff_agrees⟩, ?_, ?_, ?_⟩
  · intro answer
    rw [compares_iff hl hr, compares_iff hr hl]
    rintro rfl
    rw [Bool.eq_iff_iff, Tree.equivalent_iff_agrees, Tree.equivalent_iff_agrees]
    exact ⟨Tree.Agrees.symm, Tree.Agrees.symm⟩
  · rw [compares_true_iff hl hr, compares_true_iff hr hs, compares_true_iff hl hs]
    exact Tree.Agrees.trans
  · rw [compares_true_iff hl hl, agrees_self_iff hl]

/-- A list whose chain is also what comes behind it: a zero that owns a chain, and goes nowhere. -/
def sharedZero : Rooted :=
  ⟨3, ⟨#v[⟨.branch, some 1, some 1⟩, ⟨.float (.zero false), some 2, none⟩, ⟨.int 5, none, none⟩]⟩,
    some 0⟩

/-- The same with two zeros, one of them negative, which share the chain that they own. -/
def twoZeros : Rooted :=
  ⟨4, ⟨#v[⟨.branch, some 1, some 2⟩, ⟨.float (.zero true), some 3, none⟩,
    ⟨.float (.zero false), some 3, none⟩, ⟨.int 5, none, none⟩]⟩, some 0⟩

/-- A NaN alone. -/
def loneNaN : Rooted := ⟨1, ⟨#v[⟨.float ⟨false, Fin.last _⟩, none, none⟩]⟩, some 0⟩

/-- Sharing makes no difference, and the sign of a zero makes none. A NaN is not equivalent to
itself. -/
theorem equivalent_sharedZero :
    (sharedZero.Acyclic ∧ twoZeros.Acyclic ∧ loneNaN.Acyclic) ∧
      sharedZero.Compares twoZeros true ∧ twoZeros.Compares sharedZero true ∧
      loneNaN.HasNaN ∧ ¬loneNaN.Compares loneNaN true := by
  have hshared : sharedZero.Acyclic := fun root _ => acyclic_of_lt (by decide) root
  have hapart : twoZeros.Acyclic := fun root _ => acyclic_of_lt (by decide) root
  have hnan : loneNaN.Acyclic := fun root _ => acyclic_of_lt (by decide) root
  have hagrees : sharedZero.unfold.Agrees twoZeros.unfold :=
    Tree.same_iff_agrees.1 (by decide +kernel)
  have hhas : loneNaN.HasNaN :=
    ⟨⟨0, Nat.one_pos⟩, ⟨⟨0, Nat.one_pos⟩, rfl, .root⟩, ⟨false, Fin.last _⟩, rfl, by decide⟩
  obtain ⟨-, -, ⟨answer, hanswer, htrue⟩, hsymm, -⟩ := equivalent_of_acyclic hshared hapart hnan
  obtain ⟨-, -, -, -, -, hreflexive⟩ := equivalent_of_acyclic hnan hnan hnan
  have hcompares : sharedZero.Compares twoZeros true := (hanswer true).2 (htrue.2 hagrees).symm
  exact ⟨⟨hshared, hapart, hnan⟩, hcompares, hsymm true hcompares, hhas,
    fun hself => hreflexive.1 hself hhas⟩

end Rooted

end Linked

end Sexpr
