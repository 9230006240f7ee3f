import Sexpr.Proofs.Lexeme.Reading
import Sexpr.Proofs.Token.Legible
import Sexpr.Proofs.Tree.Recursion

/-!
# Double quotes of a text and of its tree

A string takes two double quotes of the text besides those that it holds, and no other atom of a
text holds any. `Atom.doubleQuotes` counts them so, and the count of a tree that is read with the
default settings is at most that of the text (`doubleQuotes_read_le`, `doubleQuotes_cut_le`).
-/

namespace Sexpr

/-! ## Atoms -/

namespace Atom

/-- The double quotes in the text of an atom, and the two that are left out around a string. -/
def doubleQuotes (a : Atom) : Nat :=
  (a.text .plain).toList.count '"' + if a.kind = .string then 2 else 0

theorem count_isWord {w : List Char} (h : Lexeme.IsWord w) : w.count '"' = 0 :=
  List.count_eq_zero.2 (h.notMem (by decide))

@[simp] theorem doubleQuotes_float (x : Binary64) : (float x).doubleQuotes = 0 :=
  count_isWord x.isWord_fixed

@[simp] theorem doubleQuotes_nil : nil.doubleQuotes = 0 := by decide

@[simp] theorem doubleQuotes_branch : branch.doubleQuotes = 0 := by decide

@[simp] theorem doubleQuotes_int (n : Int) : (int n).doubleQuotes = 0 :=
  count_isWord (isWord_intText n)

/-- Atoms that are the same have the same count. -/
theorem doubleQuotes_eq_of_same {a b : Atom} (h : a.same b = true) :
    a.doubleQuotes = b.doubleQuotes := by
  unfold same at h
  split at h
  · rw [doubleQuotes_float, doubleQuotes_float]
  · rw [of_decide_eq_true h]

/-- A token has none: it is no string, and a word that is no literal has none to show. -/
theorem doubleQuotes_token {cs : List Char} {offset : Nat} (h : Lexeme.Proper (.token cs offset)) :
    (ofToken cs).doubleQuotes = 0 := by
  rcases h with rfl | h
  · decide
  rcases legible_or_unreadable h with hlegible | herror
  · have hkind := kind_ofToken_ne_string h
    generalize ofToken cs = a at hlegible hkind
    cases hlegible with
    | int n => exact doubleQuotes_int n
    | float => exact doubleQuotes_float _
    | string => exact absurd rfl hkind
    | symbol hs => exact count_isWord hs
    | quote => decide
  · rw [herror]
    simp [doubleQuotes, unreadable, text, kind, count_isWord h]

/-- A string has the double quotes that stand around it. -/
theorem doubleQuotes_string {cs : List Char} {offset : Nat}
    (h : Lexeme.Proper (.string cs offset)) : (ofToken cs).doubleQuotes = cs.count '"' := by
  obtain ⟨body, -, rfl⟩ := h
  rw [ofToken_quoted]
  simp [doubleQuotes, text, kind]

end Atom

namespace Tree

/-- The double quotes of all atoms of a tree. -/
def doubleQuotes (t : Tree) : Nat := (t.preorder.map Atom.doubleQuotes).sum

@[simp] theorem doubleQuotes_absent : absent.doubleQuotes = 0 := by simp [doubleQuotes]

@[simp] theorem doubleQuotes_node (a : Atom) (child next : Tree) :
    (node a child next).doubleQuotes =
      a.doubleQuotes + (child.doubleQuotes + next.doubleQuotes) := by
  simp [doubleQuotes]

end Tree

namespace Lexeme

/-! ## Lexemes -/

/-- The double quotes that a lexeme brings into a tree. -/
def doubleQuotes : Lexeme → Nat
  | .string cs _ => cs.count '"'
  | _ => 0

/-- The double quotes of a string that has begun. -/
def State.doubleQuotes : State → Nat
  | .string latest _ _ => latest.count '"'
  | _ => 0

theorem doubleQuotes_ended (latest : List Char) (start : Nat) :
    ((ended latest start).map doubleQuotes).sum = 0 := by
  unfold ended
  split <;> rfl

theorem doubleQuotes_grown (latest : List Char) (start : Nat) (c : Char) (offset : Nat) :
    (grown latest start c offset).doubleQuotes = 0 := by
  unfold grown
  split <;> rfl

/-- A character adds at most itself. -/
theorem doubleQuotes_advance_le (state : State) (c : Char) (offset : Nat) :
    ((advance state c offset).1.map doubleQuotes).sum + (advance state c offset).2.doubleQuotes ≤
      state.doubleQuotes + [c].count '"' := by
  cases state with
  | plain latest start =>
    have hout := advanced_plain latest start c offset
    have hended := doubleQuotes_ended latest start
    generalize advance (.plain latest start) c offset = out at hout ⊢
    cases hout with
    | grown => simp [doubleQuotes_grown]
    | quote hc => simp [hc, State.doubleQuotes]
    | _ => simp [hended, doubleQuotes, State.doubleQuotes]
  | comment =>
    simp only [advance]
    split <;> simp [State.doubleQuotes]
  | string latest escaped start =>
    simp only [advance]
    split
    · simp [State.doubleQuotes]
    · split <;> simp [State.doubleQuotes, doubleQuotes, List.count_cons]

theorem doubleQuotes_atEnd_le (state : State) :
    ((atEnd state).map doubleQuotes).sum ≤ state.doubleQuotes := by
  cases state with
  | plain latest start => exact (doubleQuotes_ended latest start).le
  | string => exact Nat.zero_le _
  | comment => exact Nat.zero_le _

/-- **The lexemes of a text** hold no more double quotes than the text. -/
theorem doubleQuotes_cut_le (state : State) (offset : Nat) (cs : List Char) :
    ((cut state offset cs).map doubleQuotes).sum ≤ state.doubleQuotes + cs.count '"' := by
  induction cs generalizing state offset with
  | nil => exact doubleQuotes_atEnd_le state
  | cons c cs ih =>
    have hadvance := doubleQuotes_advance_le state c offset
    have hbehind := ih (advance state c offset).2 (offset + 1)
    have hcount : (c :: cs).count '"' = [c].count '"' + cs.count '"' := by
      rw [← List.singleton_append, List.count_append]
    rw [cut, List.map_append, List.sum_append, hcount]
    omega

/-! ## Readings -/

/-- The double quotes of all levels of a reading. -/
def Reading.doubleQuotes (r : Reading) : Nat :=
  ((r.here :: r.around).map fun s => s.chain.doubleQuotes).sum

theorem Reading.doubleQuotes_precede (a : Atom) (r : Reading) :
    (r.mapHere (Stretch.precede ⟨a, .absent⟩)).doubleQuotes = a.doubleQuotes + r.doubleQuotes := by
  simp [Reading.doubleQuotes, Reading.mapHere, Stretch.precede, Nat.add_assoc]

variable (last : Nat)

/-- **What is read of lexemes** with the default settings holds no more double quotes than these. -/
theorem doubleQuotes_read_le {lexemes : List Lexeme} (h : ∀ x ∈ lexemes, x.Proper)
    (opened : List Nat) :
    (read {} last opened lexemes).doubleQuotes ≤ (lexemes.map doubleQuotes).sum := by
  have hsentinel : Tree.sentinel.doubleQuotes = 0 := by simp [Tree.sentinel]
  induction lexemes generalizing opened with
  | nil =>
    rw [read, Reading.doubleQuotes, ending_levels]
    refine (List.sum_eq_zero fun n hn => ?_).le
    obtain ⟨s, hs, rfl⟩ := List.mem_map.1 hn
    rw [List.mem_append, List.mem_map, List.mem_singleton] at hs
    rcases hs with ⟨o, -, rfl⟩ | rfl
    · exact hsentinel
    · exact hsentinel
  | cons x rest ih =>
    rw [List.forall_mem_cons] at h
    obtain ⟨hx, hrest⟩ := h
    have hread := ih hrest opened
    rw [List.map_cons, List.sum_cons]
    cases x with
    | token cs offset =>
      rw [read, Reading.doubleQuotes_precede, Atom.doubleQuotes_token hx]
      exact Nat.add_le_add_left hread 0
    | string cs offset =>
      rw [read, Reading.doubleQuotes_precede, Atom.doubleQuotes_string hx]
      exact Nat.add_le_add_left hread _
    | droppedQuote cs offset => exact hread.trans (Nat.le_add_left _ _)
    | openString cs offset => exact hread.trans (Nat.le_add_left _ _)
    | closing offset =>
      cases opened with
      | nil =>
        have hnothing : (read {} last [] (.closing offset :: rest)).doubleQuotes = 0 := by
          simp [read, Reading.doubleQuotes, Stretch.report, Stretch.nothing, hsentinel]
        rw [hnothing]
        exact Nat.zero_le _
      | cons o opened =>
        have hlevels : (read {} last (o :: opened) (.closing offset :: rest)).doubleQuotes =
            (read {} last opened rest).doubleQuotes := by
          simp [read, Reading.doubleQuotes, Stretch.nothing, hsentinel]
        rw [hlevels]
        exact (ih hrest opened).trans (Nat.le_add_left _ _)
    | opening offset =>
      obtain ⟨here, outer, around, position, hlist, hopening⟩ :=
        exists_read_opening {} last opened offset rest
      have hlevels := ih hrest (offset :: opened)
      rw [hlist] at hlevels
      rw [hopening]
      simp only [Reading.doubleQuotes, List.map_cons, List.sum_cons] at hlevels ⊢
      have henclose : (enclose {} opened.length offset here outer).chain =
          .node .branch here.chain outer.chain := rfl
      rw [henclose, Tree.doubleQuotes_node, Atom.doubleQuotes_branch]
      omega

end Lexeme

end Sexpr
