import Sexpr.Tree.Equivalence
import Sexpr.Tree.Render

/-!
# Work lists against recursion

The functions on trees keep a list of what is still to be done. Each comes to what recursion on
the tree gives, for every work list:

* `preorder_node` lists the atoms of a node, those of its child and those of its next;
* `equivalent_eq_same` compares two trees by recursion on both;
* `render_eq_written` writes a tree in any style.
-/

namespace Sexpr

namespace Tree

/-! ## All atoms -/

/-- All atoms of a tree, by recursion. -/
def atoms : Tree → List Atom
  | absent => []
  | node a child next => a :: (child.atoms ++ next.atoms)

theorem preorderOnto_eq (work : List Tree) (found : List Atom) :
    preorderOnto work found = (work.flatMap atoms).reverse ++ found := by
  induction work, found using preorderOnto.induct with
  | case1 found => rw [preorderOnto]; rfl
  | case2 work found ih => rw [preorderOnto, ih, List.flatMap_cons, atoms, List.nil_append]
  | case3 a child next work found ih =>
    rw [preorderOnto, ih]
    simp [atoms]

theorem preorder_eq_atoms (t : Tree) : t.preorder = t.atoms := by
  rw [preorder, preorderOnto_eq]
  simp

@[simp] theorem preorder_absent : absent.preorder = [] := preorder_eq_atoms absent

/-- **The atoms of a tree**: that of the first node, those of its child, those of its next. -/
@[simp] theorem preorder_node (a : Atom) (child next : Tree) :
    (node a child next).preorder = a :: (child.preorder ++ next.preorder) := by
  rw [preorder_eq_atoms, preorder_eq_atoms, preorder_eq_atoms, atoms]

/-! ## Equivalence -/

@[simp] theorem same_absent : absent.same absent = true := rfl

@[simp] theorem same_absent_node (a : Atom) (child next : Tree) :
    absent.same (node a child next) = false := rfl

@[simp] theorem same_node_absent (a : Atom) (child next : Tree) :
    (node a child next).same absent = false := rfl

@[simp] theorem same_node (a b : Atom) (child next child' next' : Tree) :
    (node a child next).same (node b child' next') =
      (a.same b && child.same child' && next.same next') := rfl

theorem same_of_isAbsent_ne {l r : Tree} (h : (l.isAbsent != r.isAbsent) = true) :
    l.same r = false := by
  cases l with
  | absent =>
    cases r with
    | absent => exact absurd h (by decide)
    | node b child next => rfl
  | node a child next =>
    cases r with
    | absent => rfl
    | node b child' next' => exact absurd h (by simp [isAbsent])

/-- Two trees that are both absent or both not: the absent ones are the same. -/
theorem same_of_isAbsent {l r : Tree} (h : ¬(l.isAbsent != r.isAbsent) = true)
    (hl : l.isAbsent = true) : l.same r = true := by
  cases l with
  | absent =>
    cases r with
    | absent => rfl
    | node b child next => exact absurd rfl h
  | node a child next => exact absurd hl Bool.false_ne_true

/-- The pairs of a work list that are still to be compared. -/
theorem equivalentPairs_eq (pairs : List (Tree × Tree)) :
    equivalentPairs pairs = pairs.all fun pair => pair.1.same pair.2 := by
  induction pairs using equivalentPairs.induct with
  | case1 => rw [equivalentPairs, List.all_nil]
  | case2 pairs ih => simp [equivalentPairs, ih]
  | case3 => simp [equivalentPairs]
  | case4 => simp [equivalentPairs]
  | case5 a child next b child' next' pairs hatom =>
    have hatom : a.same b = false := by simpa using hatom
    simp [equivalentPairs, hatom]
  | case6 a child next b child' next' pairs hatom hshape =>
    rw [equivalentPairs, if_neg hatom, if_pos hshape]
    simp [same_of_isAbsent_ne hshape]
  | case7 a child next b child' next' pairs hatom hshape hchild ih =>
    have hsame : a.same b = true := by simpa using hatom
    rw [equivalentPairs, if_neg hatom, if_neg hshape, if_pos hchild, ih]
    simp [hsame, same_of_isAbsent hshape hchild]
  | case8 a child next b child' next' pairs hatom hshape hchild ih =>
    have hsame : a.same b = true := by simpa using hatom
    rw [equivalentPairs, if_neg hatom, if_neg hshape, if_neg hchild, ih]
    simp only [List.all_cons, same_node, hsame, Bool.true_and]
    rw [← Bool.and_assoc, Bool.and_comm (next.same next')]

/-- **Equivalence** is sameness by recursion on both trees. -/
theorem equivalent_eq_same (l r : Tree) : l.equivalent r = l.same r := by
  rw [equivalent, equivalentPairs_eq]
  simp

/-! ## The text -/

theorem WellFormed.isAbsent {t : Tree} (h : t.WellFormed) : t.isAbsent = false := by
  cases h <;> rfl

/-- The text that the items of a work list stand for. -/
def FormItem.written (style : Style) : FormItem → String
  | text s => s
  | chain t gap => t.writtenForms style gap

theorem join_reverse_cons (part : String) (parts : List String) :
    String.join (part :: parts).reverse = String.join parts.reverse ++ part := by
  simp

theorem writtenForms_leaf (style : Style) (gap : String) {a : Atom} (hnil : a ≠ .nil)
    (hbranch : a ≠ .branch) (child next : Tree) :
    (node a child next).writtenForms style gap =
      gap ++ a.text style ++ next.writtenForms style (if a = .quote then "" else " ") := by
  rw [writtenForms]
  · exact hnil
  · exact hbranch

theorem join_renderForms (style : Style) (work : List FormItem) (parts : List String) :
    String.join (renderForms style work parts).reverse =
      String.join parts.reverse ++ String.join (work.map (FormItem.written style)) := by
  induction work, parts using renderForms.induct style with
  | case1 parts => simp [renderForms]
  | case2 parts s work ih => simp [renderForms, ih, FormItem.written, String.append_assoc]
  | case3 parts gap work ih => simp [renderForms, ih, FormItem.written, writtenForms]
  | case4 parts child next gap work ih => simp [renderForms, ih, FormItem.written, writtenForms]
  | case5 parts child next gap work ih =>
    simp [renderForms, ih, FormItem.written, writtenForms, String.append_assoc]
  | case6 parts a child next gap work hnil hbranch ih =>
    simp only [dite_eq_ite] at ih
    rw [renderForms, ih]
    · simp [FormItem.written, writtenForms_leaf style gap hnil hbranch, String.append_assoc]
    · exact hnil
    · exact hbranch

/-- A chain in a decorated style: its first node, whether it owns and precedes something or not. -/
theorem writtenNodes_node (style : Style) (a : Atom) (child next : Tree) :
    (node a child next).writtenNodes style =
      a.text style ++
        (if child.isAbsent then "" else child.writtenNodes style ++ ")") ++
        (if next.isAbsent then "" else
          (if child.isAbsent = true ∧ a = .quote then "" else " ") ++ next.writtenNodes style) := by
  cases child <;> cases next <;> simp [writtenNodes, isAbsent, ← String.append_assoc]

/-- The text that the items of a work list stand for. -/
def NodeItem.written (style : Style) : NodeItem → String
  | text s => s
  | chain t => t.writtenNodes style

theorem writtenNodes_of_isAbsent (style : Style) {t : Tree} (h : t.isAbsent = true) :
    t.writtenNodes style = "" := by
  cases t with
  | absent => rfl
  | node a child next => exact absurd h Bool.false_ne_true

theorem join_renderNodes (style : Style) (work : List NodeItem) (parts : List String) :
    String.join (renderNodes style work parts).reverse =
      String.join parts.reverse ++ String.join (work.map (NodeItem.written style)) := by
  induction work, parts using renderNodes.induct style with
  | case1 parts => simp [renderNodes]
  | case2 parts s work ih => simp [renderNodes, ih, NodeItem.written, String.append_assoc]
  | case3 parts work ih => simp [renderNodes, ih, NodeItem.written, writtenNodes]
  | case4 parts a child next work parts' hchild hnext ih =>
    rw [renderNodes, if_pos hchild, if_pos hnext, ih]
    simp only [parts', join_reverse_cons, List.map_cons, NodeItem.written, String.join_cons,
      writtenNodes_node, if_pos hchild]
    by_cases habsent : next.isAbsent = true
    · simp [habsent, writtenNodes_of_isAbsent style habsent, String.append_assoc]
    · have hquote : a = .quote := by simpa [habsent] using hnext
      simp [habsent, hchild, hquote, String.append_assoc]
  | case5 parts a child next work parts' hchild hnext ih =>
    rw [renderNodes, if_pos hchild, if_neg hnext, ih]
    rw [Bool.or_eq_true, decide_eq_true_eq, not_or] at hnext
    simp [parts', NodeItem.written, writtenNodes_node, hchild, hnext, String.append_assoc]
  | case6 parts a child next work parts' hchild hnext ih =>
    rw [renderNodes, if_neg hchild, if_pos hnext, ih]
    simp [parts', NodeItem.written, writtenNodes_node, hchild, hnext, String.append_assoc]
  | case7 parts a child next work parts' hchild hnext ih =>
    rw [renderNodes, if_neg hchild, if_neg hnext, ih]
    simp [parts', NodeItem.written, writtenNodes_node, hchild, hnext, String.append_assoc]

/-- **The text of a tree** is its text by recursion. -/
theorem render_eq_written (style : Style) (t : Tree) : t.render style = t.written style := by
  unfold render written
  split
  · rw [join_renderNodes]
    simp [NodeItem.written]
  · rw [join_renderForms]
    simp [FormItem.written]

end Tree

end Sexpr
