import Sexpr.Proofs.Lexeme.Cut
import Sexpr.Proofs.Tree.Shape

/-!
# The characters of a tree

The nodes of a tree from the reader are sentinels, lists and other atoms. In a decorated style a
sentinel leaves its mark, and the other two leave a piece each (`toList_writtenNodes_branch`,
`toList_writtenNodes_leaf`). In a plain style a sentinel leaves nothing
(`toList_writtenForms_branch`, `toList_writtenForms_leaf`).

`Tree.LaidOut` is what all styles without a mark for sentinels have in common: the texts of the
forms in order, with parentheses around the inside of a list, with any spaces, and with something
that ends a token behind every atom that is no mark of quotation. The text of a tree in a plain
style is so (`laidOut_writtenForms`), and that in the decorated style without marks
(`laidOut_writtenNodes`).
-/

namespace Sexpr

namespace Tree

open Lexeme

variable {p q : Atom → Prop} (style : Style) {t child next : Tree}

/-! ## Decorated styles -/

theorem toList_writtenNodes_branch (hchild : child.MadeOf p) (hnext : next.MadeOf q) :
    ((node .branch child next).writtenNodes style).toList =
      '(' :: ((child.writtenNodes style).toList ++
        ')' :: ' ' :: (next.writtenNodes style).toList) := by
  simp [writtenNodes_node, hchild.wellFormed.isAbsent, hnext.wellFormed.isAbsent, Atom.text]

theorem toList_writtenNodes_leaf (a : Atom) (hnext : next.MadeOf p) :
    ((node a absent next).writtenNodes style).toList =
      (a.text style).toList ++
        ((if a = .quote then [] else [' ']) ++ (next.writtenNodes style).toList) := by
  have habsent : absent.isAbsent = true := rfl
  by_cases hquote : a = .quote
  · simp [writtenNodes_node, hnext.wellFormed.isAbsent, habsent, hquote]
  · simp [writtenNodes_node, hnext.wellFormed.isAbsent, habsent, hquote]

/-! ## Plain styles -/

theorem toList_writtenForms_branch (gap : String) (child next : Tree) :
    ((node .branch child next).writtenForms style gap).toList =
      gap.toList ++ '(' :: ((child.writtenForms style "").toList ++
        ')' :: (next.writtenForms style " ").toList) := by
  simp [writtenForms]

theorem toList_writtenForms_leaf (gap : String) {a : Atom} (hnil : a ≠ .nil)
    (hbranch : a ≠ .branch) (child next : Tree) :
    ((node a child next).writtenForms style gap).toList =
      gap.toList ++ ((a.text style).toList ++
        (next.writtenForms style (if a = .quote then "" else " ")).toList) := by
  simp [writtenForms_leaf style gap hnil hbranch]

/-- What is written between two forms. -/
def IsGap (gap : String) : Prop := gap = "" ∨ gap = " "

theorem isGap_behind (a : Atom) : IsGap (if a = .quote then "" else " ") := by
  split
  · exact .inl rfl
  · exact .inr rfl

/-- With a gap in front the text of a tree starts with a space, if it is not empty. -/
theorem bounded_writtenForms (h : t.MadeOf p) : Bounded (t.writtenForms style " ").toList := by
  cases h with
  | sentinel => exact bounded_nil
  | branch =>
    rw [toList_writtenForms_branch]
    exact bounded_cons (by decide) _
  | leaf hnil hbranch =>
    rw [toList_writtenForms_leaf _ _ hnil hbranch]
    exact bounded_cons (by decide) _

/-! ## What the styles have in common -/

/-- A tree as a row of characters: the texts of its forms in order, lists in parentheses. -/
inductive LaidOut : Tree → List Char → Prop
  | done : LaidOut sentinel []
  | space {t : Tree} {cs : List Char} : LaidOut t cs → LaidOut t (' ' :: cs)
  | list {child next : Tree} {inner outer : List Char} : LaidOut child inner → LaidOut next outer →
    LaidOut (node .branch child next) ('(' :: (inner ++ ')' :: outer))
  | form {a : Atom} {next : Tree} {cs : List Char} : a ≠ .nil → a ≠ .branch →
    a = .quote ∨ Bounded cs → LaidOut next cs →
    LaidOut (node a absent next) ((a.text style).toList ++ cs)

variable {style}

theorem LaidOut.gap {gap : String} (hgap : IsGap gap) {cs : List Char} (h : LaidOut style t cs) :
    LaidOut style t (gap.toList ++ cs) := by
  rcases hgap with rfl | rfl
  · exact h
  · exact .space h

/-- **The text of a tree in a plain style.** -/
theorem laidOut_writtenForms (h : t.MadeOf p) {gap : String} (hgap : IsGap gap) :
    LaidOut style t (t.writtenForms style gap).toList := by
  induction h generalizing gap with
  | sentinel => exact .done
  | branch _ _ ihchild ihnext =>
    rw [toList_writtenForms_branch]
    exact .gap hgap (.list (ihchild (.inl rfl)) (ihnext (.inr rfl)))
  | @leaf a next hnil hbranch _ hnext ih =>
    rw [toList_writtenForms_leaf _ _ hnil hbranch]
    refine .gap hgap (.form hnil hbranch ?_ (ih (isGap_behind a)))
    by_cases hquote : a = .quote
    · exact .inl hquote
    · rw [if_neg hquote]
      exact .inr (bounded_writtenForms style hnext)

/-- **The text of a tree in the decorated style without marks.** -/
theorem laidOut_writtenNodes (h : t.MadeOf p) :
    LaidOut .ascii t (t.writtenNodes .ascii).toList := by
  induction h with
  | sentinel => exact .done
  | branch hchild hnext ihchild ihnext =>
    rw [toList_writtenNodes_branch _ hchild hnext]
    exact .list ihchild (.space ihnext)
  | @leaf a next hnil hbranch _ hnext ih =>
    rw [toList_writtenNodes_leaf _ _ hnext]
    by_cases hquote : a = .quote
    · rw [if_pos hquote]
      exact .form hnil hbranch (.inl hquote) ih
    · rw [if_neg hquote]
      exact .form hnil hbranch (.inr (bounded_cons (by decide) _)) (.space ih)

end Tree

end Sexpr
