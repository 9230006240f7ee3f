import Sexpr.Lexeme.Reading

/-!
# The levels of a reading

A reading has one stretch for each open list and one for the text around them, wherever it starts
(`length_around_read`). So there is always a level that takes an inner list (`exists_read_opening`),
and none is left around the outermost one (`around_read_outermost`).
-/

namespace Sexpr

namespace Lexeme

variable (config : ReaderConfig) (last : Nat)

/-- What is still to come of every level when the text ends inside some lists. -/
theorem ending_levels (opened : List Nat) :
    (ending config last opened).here :: (ending config last opened).around =
      opened.map (truncated config last) ++ [.nothing] := by
  unfold ending
  cases opened <;> rfl

theorem ending_position (opened : List Nat) : (ending config last opened).position = last := by
  unfold ending
  cases opened <;> rfl

/-- Every open list has a level around it. -/
theorem length_around_read (opened : List Nat) (lexemes : List Lexeme) :
    (read config last opened lexemes).around.length = opened.length := by
  induction lexemes generalizing opened with
  | nil =>
    have h := congrArg List.length (ending_levels config last opened)
    simpa [read] using h
  | cons x rest ih =>
    cases x with
    | opening offset =>
      have h := ih (offset :: opened)
      rw [read]
      cases ha : (read config last (offset :: opened) rest).around with
      | nil => simp [ha] at h
      | cons outer around => simpa [ha] using h
    | closing offset =>
      cases opened with
      | nil => rfl
      | cons o opened => simpa [read] using ih opened
    | token cs offset => exact ih opened
    | string cs offset => exact ih opened
    | droppedQuote cs offset => exact ih opened
    | openString cs offset =>
      rw [read]
      split <;> exact ih opened

/-- Outside of all lists there is no level around. -/
theorem around_read_outermost (lexemes : List Lexeme) :
    (read config last [] lexemes).around = [] :=
  List.length_eq_zero_iff.1 (length_around_read config last [] lexemes)

/-- **An inner list**: the level around it takes it, and goes on behind it. -/
theorem exists_read_opening (opened : List Nat) (offset : Nat) (rest : List Lexeme) :
    ∃ here outer around position,
      read config last (offset :: opened) rest = ⟨here, outer :: around, position⟩ ∧
      read config last opened (.opening offset :: rest) =
        ⟨enclose config opened.length offset here outer, around, position⟩ := by
  have hlength := length_around_read config last (offset :: opened) rest
  rw [read]
  generalize read config last (offset :: opened) rest = reading at hlength ⊢
  obtain ⟨here, around, position⟩ := reading
  cases around with
  | nil => simp at hlength
  | cons outer around => exact ⟨here, outer, around, position, rfl, rfl⟩

end Lexeme

end Sexpr
