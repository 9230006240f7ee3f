import Sexpr.Proofs.Lexeme.Nesting
import Sexpr.Proofs.Lexeme.Reading

/-!
# Two rows read side by side

Two rows of the same lexemes are read, under settings of their own and perhaps at offsets of their
own. If every lexeme keeps a relation between the two readings (`Kept`), and if the relation holds
where the rows end or are ended, then it holds of the rows as a whole (`Kept.read_append`). The
rows may go on differently behind their common part.
-/

namespace Sexpr

namespace Lexeme

/-! ## Other offsets -/

/-- A lexeme with its offset changed. -/
def move (φ : Nat → Nat) : Lexeme → Lexeme
  | .opening offset => .opening (φ offset)
  | .closing offset => .closing (φ offset)
  | .token cs offset => .token cs (φ offset)
  | .string cs offset => .string cs (φ offset)
  | .droppedQuote cs offset => .droppedQuote cs (φ offset)
  | .openString cs offset => .openString cs (φ offset)

/-- Nothing changes with the offsets. -/
theorem map_move_id (xs : List Lexeme) : xs.map (move id) = xs := by
  have hmove : move id = id := by
    funext x
    cases x <;> rfl
  rw [hmove, List.map_id]

/-! ## The relation -/

/-- A reading that has come to a closing parenthesis outside of all lists. -/
def stopped (offset : Nat) : Reading :=
  ⟨Stretch.nothing.report ⟨.strayClose, offset⟩, [], offset + 1⟩

/-- A reading with a string in front that the text ends in. -/
def Reading.breakOff (config : ReaderConfig) (last : Nat) (cs : List Char) (r : Reading) :
    Reading :=
  let reading := r.mapHere (Stretch.report ⟨.unterminatedString (String.ofList cs), last⟩)
  if config.reportUnterminated then
    reading.mapHere (Stretch.precede
      ⟨.error ("Unterminated string: <" ++ String.ofList cs ++ ">"), .absent⟩)
  else reading

theorem position_breakOff (config : ReaderConfig) (last : Nat) (cs : List Char) (r : Reading) :
    (r.breakOff config last cs).position = r.position := by
  unfold Reading.breakOff
  simp only
  split <;> rfl

/-- Every lexeme keeps the relation `R` between two readings, where `φ` leads from the offsets of
the first one to those of the second one. -/
structure Kept (config config' : ReaderConfig) (φ : Nat → Nat) (R : Reading → Reading → Prop) :
    Prop where
  form {r r' : Reading} (cs : List Char) : R r r' →
    R (r.mapHere (Stretch.precede ⟨Atom.ofToken cs, .absent⟩))
      (r'.mapHere (Stretch.precede ⟨Atom.ofToken cs, .absent⟩))
  droppedQuote {r r' : Reading} (cs : List Char) (offset : Nat) : R r r' →
    R (r.mapHere (Stretch.report ⟨.strayQuote (String.ofList cs), offset⟩))
      (r'.mapHere (Stretch.report ⟨.strayQuote (String.ofList cs), φ offset⟩))
  closing {r r' : Reading} : R r r' →
    R ⟨.nothing, r.here :: r.around, r.position⟩ ⟨.nothing, r'.here :: r'.around, r'.position⟩
  opening {inner outer inner' outer' : Stretch} {around around' : List Stretch}
      {position position' : Nat} (offset : Nat) : around'.length = around.length →
    R ⟨inner, outer :: around, position⟩ ⟨inner', outer' :: around', position'⟩ →
    R ⟨enclose config around.length offset inner outer, around, position⟩
      ⟨enclose config' around.length (φ offset) inner' outer', around', position'⟩

variable {config config' : ReaderConfig} {φ : Nat → Nat} {R : Reading → Reading → Prop}

/-- **Two rows side by side.** The relation has to hold where the rows part, inside the lists that
are open there, and if they are ended by a parenthesis, then there. Strings that the text ends in
need a look of their own, for they are reported at its end. -/
theorem Kept.read_append (h : Kept config config' φ R) {last last' : Nat} {xs : List Lexeme}
    (hstring : ∀ cs offset, .openString cs offset ∈ xs → ∀ r r', R r r' →
      R (r.breakOff config last cs) (r'.breakOff config' last' cs))
    {opened : List Nat} {ys ys' : List Lexeme}
    (hstop : openBehind opened xs = none → ∀ offset, R (stopped offset) (stopped (φ offset)))
    (hrest : ∀ left, openBehind opened xs = some left →
      R (read config last left ys) (read config' last' (left.map φ) ys')) :
    R (read config last opened (xs ++ ys))
      (read config' last' (opened.map φ) (xs.map (move φ) ++ ys')) := by
  induction xs generalizing opened with
  | nil => exact hrest opened rfl
  | cons x xs ih =>
    have hstring' : ∀ cs offset, .openString cs offset ∈ xs → ∀ r r', R r r' →
        R (r.breakOff config last cs) (r'.breakOff config' last' cs) :=
      fun cs offset hmem => hstring cs offset (List.mem_cons_of_mem x hmem)
    cases x with
    | token cs offset => exact h.form cs (ih hstring' hstop hrest)
    | string cs offset => exact h.form cs (ih hstring' hstop hrest)
    | droppedQuote cs offset => exact h.droppedQuote cs offset (ih hstring' hstop hrest)
    | openString cs offset =>
      exact hstring cs offset List.mem_cons_self _ _ (ih hstring' hstop hrest)
    | closing offset =>
      cases opened with
      | nil => exact hstop rfl offset
      | cons o opened => exact h.closing (ih hstring' hstop hrest)
    | opening offset =>
      have hinner : R (read config last (offset :: opened) (xs ++ ys))
          (read config' last' (φ offset :: opened.map φ) (xs.map (move φ) ++ ys')) :=
        ih hstring' hstop hrest
      have hlength := length_around_read config last (offset :: opened) (xs ++ ys)
      obtain ⟨here, outer, around, position, hlist, hopening⟩ :=
        exists_read_opening config last opened offset (xs ++ ys)
      have hlength' := length_around_read config' last' (φ offset :: opened.map φ)
        (xs.map (move φ) ++ ys')
      obtain ⟨here', outer', around', position', hlist', hopening'⟩ :=
        exists_read_opening config' last' (opened.map φ) (φ offset) (xs.map (move φ) ++ ys')
      rw [hlist, hlist'] at hinner
      rw [hlist, List.length_cons, List.length_cons, Nat.succ_inj] at hlength
      rw [hlist', List.length_cons, List.length_cons, Nat.succ_inj, List.length_map] at hlength'
      rw [List.cons_append, hopening, List.map_cons, move, List.cons_append, hopening',
        List.length_map, ← hlength]
      exact h.opening offset (hlength'.trans hlength.symm) hinner

/-- Rows that are the same to their ends. -/
theorem Kept.read (h : Kept config config' φ R) {last last' : Nat} {xs : List Lexeme}
    (hstring : ∀ cs offset, .openString cs offset ∈ xs → ∀ r r', R r r' →
      R (r.breakOff config last cs) (r'.breakOff config' last' cs))
    (hstop : ∀ offset, R (stopped offset) (stopped (φ offset)))
    (hend : ∀ left, R (ending config last left) (ending config' last' (left.map φ)))
    (opened : List Nat) :
    R (Lexeme.read config last opened xs)
      (Lexeme.read config' last' (opened.map φ) (xs.map (move φ))) := by
  have hread : R (Lexeme.read config last opened (xs ++ []))
      (Lexeme.read config' last' (opened.map φ) (xs.map (move φ) ++ [])) :=
    h.read_append hstring (fun _ => hstop) fun left _ => hend left
  rwa [List.append_nil, List.append_nil] at hread

/-- One row under two settings. -/
theorem Kept.read_same (h : Kept config config' id R) {last last' : Nat} {xs : List Lexeme}
    (hstring : ∀ cs offset, .openString cs offset ∈ xs → ∀ r r', R r r' →
      R (r.breakOff config last cs) (r'.breakOff config' last' cs))
    (hstop : ∀ offset, R (stopped offset) (stopped offset))
    (hend : ∀ left, R (ending config last left) (ending config' last' left)) (opened : List Nat) :
    R (Lexeme.read config last opened xs) (Lexeme.read config' last' opened xs) := by
  have hread := h.read hstring hstop (fun left => by rw [List.map_id]; exact hend left) opened
  rwa [List.map_id, map_move_id] at hread

/-- Every lexeme keeps what is said of the offsets at which two readings end. -/
theorem kept_position (P : Nat → Nat → Prop) :
    Kept config config' φ fun r r' => P r.position r'.position where
  form _ h := h
  droppedQuote _ _ h := h
  closing h := h
  opening _ _ h := h

/-! ## Rows that part -/

/-- Readings of rows that are the same differ in nothing. -/
theorem kept_eq (config : ReaderConfig) : Kept config config id Eq where
  form _ h := by rw [h]
  droppedQuote _ _ h := by rw [h]; rfl
  closing h := by rw [h]
  opening _ _ h := by
    simp only [Reading.mk.injEq, List.cons.injEq] at h
    obtain ⟨rfl, ⟨rfl, rfl⟩, rfl⟩ := h
    rfl

/-- What comes behind a row counts only as it is read inside the lists that the row leaves open. So
nothing counts that comes behind the end of the reading. -/
theorem read_append_congr {last last' : Nat} {xs : List Lexeme}
    (hstring : ∀ cs offset, .openString cs offset ∉ xs) {opened : List Nat}
    {ys ys' : List Lexeme}
    (hrest : ∀ left, openBehind opened xs = some left →
      read config last left ys = read config last' left ys') :
    read config last opened (xs ++ ys) = read config last' opened (xs ++ ys') := by
  have hread : read config last opened (xs ++ ys) =
      read config last' (opened.map id) (xs.map (move id) ++ ys') :=
    (kept_eq config).read_append (fun cs offset hmem => absurd hmem (hstring cs offset))
      (fun _ _ => rfl) (by simpa using hrest)
  rwa [List.map_id, map_move_id] at hread

end Lexeme

end Sexpr
