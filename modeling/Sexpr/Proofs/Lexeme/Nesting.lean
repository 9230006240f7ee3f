import Mathlib.Data.List.Nodup
import Mathlib.Data.List.Perm.Basic
import Sexpr.Proofs.Lexeme.Cut

/-!
# The lists of a row of lexemes

A row of lexemes is gone through from the left, with the offsets of the lists that are open,
innermost first. Only parentheses change them, and a closing parenthesis outside of all lists ends
the row.

* `enter` is what one lexeme does to the open lists, and `openBehind` what a row does.
* `collect` gathers what each lexeme of a row has to give, in view of the lists that are open in
  front of it. All that is said of a row in order goes through it, and through `collect_append`.
* `Place` is where a list stands. `places` has the lists of a row in the order in which they begin,
  `placesByEnd` in the order in which they end: the same lists (`placesByEnd_perm`), and each
  before all that enclose it (`pairwise_placesByEnd`).
-/

namespace Sexpr

namespace Lexeme

/-! ## Open lists -/

/-- The open lists behind a lexeme. -/
def enter (opened : List Nat) : Lexeme → Option (List Nat)
  | .opening offset => some (offset :: opened)
  | .closing _ => opened.tail?
  | .token _ _ => some opened
  | .string _ _ => some opened
  | .droppedQuote _ _ => some opened
  | .openString _ _ => some opened

/-- The open lists behind a row of lexemes; nothing if the row ends at a closing parenthesis outside
of all lists. -/
def openBehind (opened : List Nat) : List Lexeme → Option (List Nat)
  | [] => some opened
  | x :: rest => (enter opened x).bind (openBehind · rest)

theorem openBehind_append (opened : List Nat) (xs ys : List Lexeme) :
    openBehind opened (xs ++ ys) = (openBehind opened xs).bind (openBehind · ys) := by
  induction xs generalizing opened with
  | nil => rfl
  | cons x xs ih =>
    rw [List.cons_append, openBehind, openBehind, Option.bind_assoc]
    congr 1
    funext left
    exact ih left

/-- A pending token opens and closes nothing. -/
@[simp] theorem openBehind_ended (opened : List Nat) (latest : List Char) (start : Nat) :
    openBehind opened (ended latest start) = some opened := by
  unfold ended
  split <;> rfl

@[simp] theorem openBehind_atEnd (opened : List Nat) (state : State) :
    openBehind opened (atEnd state) = some opened := by
  cases state with
  | plain latest start => exact openBehind_ended opened latest start
  | string latest escaped start => rfl
  | comment => rfl

/-! ## In order -/

section Collect

variable {α β : Type}

/-- What the lexemes of a row have to give, in order, each in view of the lists that are open in
front of it. -/
def collect (f : List Nat → Lexeme → List α) (opened : List Nat) : List Lexeme → List α
  | [] => []
  | x :: rest => f opened x ++ (enter opened x).elim [] (collect f · rest)

theorem collect_append (f : List Nat → Lexeme → List α) (opened : List Nat) (xs ys : List Lexeme) :
    collect f opened (xs ++ ys) =
      collect f opened xs ++ (openBehind opened xs).elim [] (collect f · ys) := by
  induction xs generalizing opened with
  | nil => rfl
  | cons x xs ih =>
    rw [List.cons_append, collect, collect, openBehind]
    cases enter opened x with
    | none => exact (List.append_nil _).symm
    | some left =>
      show f opened x ++ collect f left (xs ++ ys) = _
      rw [ih left, ← List.append_assoc]
      rfl

theorem collect_congr {f g : List Nat → Lexeme → List α} {xs : List Lexeme}
    (h : ∀ x ∈ xs, ∀ opened, f opened x = g opened x) (opened : List Nat) :
    collect f opened xs = collect g opened xs := by
  induction xs generalizing opened with
  | nil => rfl
  | cons x xs ih =>
    rw [List.forall_mem_cons] at h
    rw [collect, collect, h.1]
    congr 2
    funext left
    exact ih h.2 left

theorem filter_collect (p : α → Bool) (f : List Nat → Lexeme → List α) (opened : List Nat)
    (xs : List Lexeme) :
    (collect f opened xs).filter p = collect (fun opened x => (f opened x).filter p) opened xs := by
  induction xs generalizing opened with
  | nil => rfl
  | cons x xs ih =>
    rw [collect, collect, List.filter_append]
    cases enter opened x with
    | none => rfl
    | some left => exact congrArg _ (ih left)

theorem flatMap_collect (g : α → List β) (f : List Nat → Lexeme → List α) (opened : List Nat)
    (xs : List Lexeme) :
    (collect f opened xs).flatMap g =
      collect (fun opened x => (f opened x).flatMap g) opened xs := by
  induction xs generalizing opened with
  | nil => rfl
  | cons x xs ih =>
    rw [collect, collect, List.flatMap_append]
    cases enter opened x with
    | none => rfl
    | some left => exact congrArg _ (ih left)

/-- What all lexemes of a row keep to holds of all that they give. -/
theorem forall_mem_collect {f : List Nat → Lexeme → List α} {p : α → Prop} {xs : List Lexeme}
    (h : ∀ x ∈ xs, ∀ opened, ∀ a ∈ f opened x, p a) (opened : List Nat) :
    ∀ a ∈ collect f opened xs, p a := by
  induction xs generalizing opened with
  | nil => exact fun a ha => absurd ha List.not_mem_nil
  | cons x xs ih =>
    rw [List.forall_mem_cons] at h
    intro a ha
    rw [collect, List.mem_append] at ha
    rcases ha with ha | ha
    · exact h.1 opened a ha
    · cases hleft : enter opened x with
      | none => exact absurd (hleft ▸ ha) List.not_mem_nil
      | some left =>
        rw [hleft] at ha
        exact ih h.2 left a ha

end Collect

/-! ## Places -/

/-- Where a list stands: the offset of its opening parenthesis, and those of the lists around it,
innermost first. -/
structure Place where
  offset : Nat
  around : List Nat
  deriving DecidableEq

/-- Some lists that are open, one inside the other. -/
def openPlaces : List Nat → List Place
  | [] => []
  | offset :: around => ⟨offset, around⟩ :: openPlaces around

theorem length_openPlaces (opened : List Nat) : (openPlaces opened).length = opened.length := by
  induction opened with
  | nil => rfl
  | cons offset around ih => rw [openPlaces, List.length_cons, List.length_cons, ih]

/-- The list that begins at a lexeme. -/
def begins (opened : List Nat) : Lexeme → List Place
  | .opening offset => [⟨offset, opened⟩]
  | _ => []

/-- The list that ends at a lexeme. -/
def ends (opened : List Nat) : Lexeme → List Place
  | .closing _ => (openPlaces opened).take 1
  | _ => []

/-- The lists of a row in the order in which they begin. -/
def places (opened : List Nat) (xs : List Lexeme) : List Place := collect begins opened xs

/-- The lists that are open in front of a row and those of the row, in the order in which they end;
the end of the row ends all that are open. -/
def placesByEnd (opened : List Nat) (xs : List Lexeme) : List Place :=
  collect ends opened xs ++ (openBehind opened xs).elim [] openPlaces

theorem placesByEnd_cons (opened : List Nat) (x : Lexeme) (xs : List Lexeme) :
    placesByEnd opened (x :: xs) =
      ends opened x ++ (enter opened x).elim [] (placesByEnd · xs) := by
  rw [placesByEnd, collect, openBehind]
  cases enter opened x with
  | none => simp
  | some left => simp [placesByEnd]

/-- **The lists of a row in both orders** are the same. -/
theorem placesByEnd_perm (opened : List Nat) (xs : List Lexeme) :
    (placesByEnd opened xs).Perm (openPlaces opened ++ places opened xs) := by
  induction xs generalizing opened with
  | nil => simp [placesByEnd, places, collect, openBehind]
  | cons x xs ih =>
    rw [placesByEnd_cons, places, collect]
    cases x with
    | opening offset => exact (ih (offset :: opened)).trans List.perm_middle.symm
    | closing offset =>
      cases opened with
      | nil => exact .refl _
      | cons o opened => exact (ih opened).cons ⟨o, opened⟩
    | token cs offset => exact ih opened
    | string cs offset => exact ih opened
    | droppedQuote cs offset => exact ih opened
    | openString cs offset => exact ih opened

/-! ## Offsets of parentheses -/

/-- The offset of a lexeme that begins a list. -/
def openingAt? : Lexeme → Option Nat
  | .opening offset => some offset
  | _ => none

/-- The offsets of the opening parentheses of a row. -/
def openings (xs : List Lexeme) : List Nat := xs.filterMap openingAt?

theorem around_openPlaces {opened : List Nat} {y : Place} (h : y ∈ openPlaces opened) :
    y.around ⊆ opened := by
  induction opened with
  | nil => exact absurd h List.not_mem_nil
  | cons offset around ih =>
    rcases List.mem_cons.1 h with rfl | h
    · exact List.subset_cons_self offset around
    · exact List.subset_cons_of_subset offset (ih h)

/-- The lists around a list of a row begin in the row, or are open in front of it. -/
theorem around_places {opened : List Nat} {xs : List Lexeme} {y : Place}
    (h : y ∈ places opened xs) : y.around ⊆ opened ++ openings xs := by
  induction xs generalizing opened with
  | nil => exact absurd h List.not_mem_nil
  | cons x xs ih =>
    rw [places, collect, List.mem_append] at h
    cases x with
    | opening offset =>
      rcases h with h | h
      · obtain rfl := List.mem_singleton.1 h
        exact List.subset_append_left opened _
      · intro o ho
        have hmem := ih h ho
        simp only [List.mem_append, List.mem_cons] at hmem
        simp only [openings, List.filterMap_cons, openingAt?, List.mem_append, List.mem_cons]
        tauto
    | closing offset =>
      cases opened with
      | nil => exact absurd h (by simp [begins, enter])
      | cons o opened =>
        have hmem := ih (h.resolve_left List.not_mem_nil)
        exact fun a ha => List.mem_cons_of_mem o (hmem ha)
    | token cs offset => exact ih (h.resolve_left List.not_mem_nil)
    | string cs offset => exact ih (h.resolve_left List.not_mem_nil)
    | droppedQuote cs offset => exact ih (h.resolve_left List.not_mem_nil)
    | openString cs offset => exact ih (h.resolve_left List.not_mem_nil)

theorem around_placesByEnd {opened : List Nat} {xs : List Lexeme} {y : Place}
    (h : y ∈ placesByEnd opened xs) : y.around ⊆ opened ++ openings xs := by
  rw [(placesByEnd_perm opened xs).mem_iff, List.mem_append] at h
  rcases h with h | h
  · exact List.subset_append_of_subset_left _ (around_openPlaces h)
  · exact around_places h

theorem pairwise_openPlaces {opened : List Nat} (h : opened.Nodup) :
    (openPlaces opened).Pairwise fun x y => x.offset ∉ y.around := by
  induction opened with
  | nil => exact .nil
  | cons offset around ih =>
    rw [List.nodup_cons] at h
    refine .cons ?_ (ih h.2)
    intro y hy hoffset
    exact h.1 (around_openPlaces hy hoffset)

/-- **An inner list ends first.** If no two parentheses have one offset, then no list of a row ends
before one that it encloses. -/
theorem pairwise_placesByEnd {opened : List Nat} {xs : List Lexeme}
    (h : (opened ++ openings xs).Nodup) :
    (placesByEnd opened xs).Pairwise fun x y => x.offset ∉ y.around := by
  induction xs generalizing opened with
  | nil => exact pairwise_openPlaces (List.nodup_append.1 h).1
  | cons x xs ih =>
    rw [placesByEnd_cons]
    cases x with
    | opening offset => exact ih (List.perm_middle.nodup_iff.1 h)
    | closing offset =>
      cases opened with
      | nil => exact .nil
      | cons o opened =>
        rw [List.cons_append, List.nodup_cons] at h
        refine .cons ?_ (ih h.2)
        intro y hy hoffset
        exact h.1 (around_placesByEnd hy hoffset)
    | token cs offset => exact ih h
    | string cs offset => exact ih h
    | droppedQuote cs offset => exact ih h
    | openString cs offset => exact ih h

theorem openings_append (xs ys : List Lexeme) :
    openings (xs ++ ys) = openings xs ++ openings ys :=
  List.filterMap_append

theorem openings_ended (latest : List Char) (start : Nat) : openings (ended latest start) = [] := by
  unfold ended
  split <;> rfl

/-- A character opens at most one list, at its own offset. -/
theorem openings_advance (state : State) (c : Char) (offset : Nat) :
    openings (advance state c offset).1 = [] ∨ openings (advance state c offset).1 = [offset] := by
  cases state with
  | comment => exact .inl rfl
  | string latest escaped start =>
    simp only [advance]
    split
    · exact .inl rfl
    · split <;> exact .inl rfl
  | plain latest start =>
    have hended := openings_ended latest start
    have hout := advanced_plain latest start c offset
    generalize advance (.plain latest start) c offset = out at hout ⊢
    cases hout with
    | opening => exact .inr (by rw [openings_append, hended]; rfl)
    | closing => exact .inl (by rw [openings_append, hended]; rfl)
    | comment => exact .inl hended
    | space => exact .inl hended
    | mark => exact .inl rfl
    | quote => exact .inl rfl
    | dropped => exact .inl rfl
    | grown => exact .inl rfl

/-- **No two lists of a text have one offset**, and none begins before the text. -/
theorem nodup_openings_cut (state : State) (offset : Nat) (cs : List Char) :
    (openings (cut state offset cs)).Nodup ∧ ∀ o ∈ openings (cut state offset cs), offset ≤ o := by
  induction cs generalizing state offset with
  | nil =>
    have hend : openings (atEnd state) = [] := by
      cases state with
      | plain latest start => exact openings_ended latest start
      | string latest escaped start => rfl
      | comment => rfl
    simp [cut, hend]
  | cons c cs ih =>
    obtain ⟨hnodup, hle⟩ := ih (advance state c offset).2 (offset + 1)
    have hle' : ∀ o ∈ openings (cut (advance state c offset).2 (offset + 1) cs), offset ≤ o := by
      intro o ho
      have := hle o ho
      omega
    rw [cut, openings_append]
    rcases openings_advance state c offset with h | h
    · rw [h, List.nil_append]
      exact ⟨hnodup, hle'⟩
    · rw [h, List.singleton_append, List.nodup_cons, List.forall_mem_cons]
      refine ⟨⟨?_, hnodup⟩, Nat.le_refl offset, hle'⟩
      intro ho
      have := hle offset ho
      omega

end Lexeme

end Sexpr
