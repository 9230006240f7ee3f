import Sexpr.Proofs.Lexeme.Cut
import Sexpr.Proofs.Lexeme.Parallel

/-!
# A text at another offset

A text may stand anywhere in a longer one. Its lexemes and what they read as are the same there, but
for the offsets, also those inside of reports: `cut_move` and `levels_read_move`. How the offsets
change may differ from one part of the text to another. If all grow by the same number, then so does
the offset at which the reading ends: `read_move`.
-/

namespace Sexpr

/-! ## Reports -/

/-- A cause with its offset changed, if it has one. -/
def Cause.move (φ : Nat → Nat) : Cause → Cause
  | .strayQuote token => .strayQuote token
  | .strayClose => .strayClose
  | .unterminatedString pending => .unterminatedString pending
  | .unterminatedList openedAt => .unterminatedList (φ openedAt)
  | .nestingTooDeep limit => .nestingTooDeep limit

/-- A diagnostic with all its offsets changed. -/
def Diagnostic.move (φ : Nat → Nat) (d : Diagnostic) : Diagnostic :=
  ⟨d.cause.move φ, φ d.position⟩

def Stretch.move (φ : Nat → Nat) (s : Stretch) : Stretch := { s with
  reports := s.reports.map (Diagnostic.move φ) }

namespace Lexeme

/-! ## Lexemes -/

/-- A state with its offset changed, if it has one. -/
def State.move (φ : Nat → Nat) : State → State
  | .plain latest start => .plain latest (φ start)
  | .string latest escaped start => .string latest escaped (φ start)
  | .comment => .comment

section Cut

variable (φ : Nat → Nat)

theorem ended_move (latest : List Char) (start : Nat) :
    ended latest (φ start) = (ended latest start).map (move φ) := by
  unfold ended
  split <;> rfl

theorem grown_move (latest : List Char) (start : Nat) (c : Char) (offset : Nat) :
    grown latest (φ start) c (φ offset) = (grown latest start c offset).move φ := by
  unfold grown
  split <;> rfl

theorem atEnd_move (state : State) : atEnd (state.move φ) = (atEnd state).map (move φ) := by
  cases state with
  | plain latest start => exact ended_move φ latest start
  | string latest escaped start => rfl
  | comment => rfl

/-- What a character does is the same at all offsets. -/
theorem advance_move (state : State) (c : Char) (offset : Nat) :
    advance (state.move φ) c (φ offset) =
      ((advance state c offset).1.map (move φ), (advance state c offset).2.move φ) := by
  cases state with
  | plain latest start =>
    simp only [State.move, advance]
    split_ifs <;> simp [ended_move, grown_move, move, State.move]
  | string latest escaped start =>
    simp only [State.move, advance]
    split_ifs <;> rfl
  | comment =>
    simp only [State.move, advance]
    split_ifs <;> rfl

end Cut

/-- What some characters leave is the same wherever they stand. -/
theorem passed_move {φ : Nat → Nat} {offset offset' : Nat} {cs : List Char}
    (h : ∀ i < cs.length, φ (offset + i) = offset' + i) (state : State) :
    passed (state.move φ) offset' cs =
      ((passed state offset cs).1.map (move φ), (passed state offset cs).2.move φ) := by
  induction cs generalizing state offset offset' with
  | nil => rfl
  | cons c cs ih =>
    have hfirst : offset' = φ offset := (h 0 (Nat.zero_lt_succ _)).symm
    have hnext : ∀ i < cs.length, φ (offset + 1 + i) = offset' + 1 + i := by
      intro i hi
      have hmoved := h (i + 1) (Nat.succ_lt_succ hi)
      rwa [Nat.add_right_comm offset, Nat.add_right_comm offset']
    rw [passed, passed, hfirst, advance_move, ← hfirst, ih hnext, List.map_append]

/-- **The lexemes of a text** are the same wherever it stands. -/
theorem cut_move {φ : Nat → Nat} {offset offset' : Nat} {cs : List Char}
    (h : ∀ i < cs.length, φ (offset + i) = offset' + i) (state : State) :
    cut (state.move φ) offset' cs = (cut state offset cs).map (move φ) := by
  rw [cut_eq, passed_move h, atEnd_move, cut_eq, List.map_append]

theorem ofText_move {φ : Nat → Nat} {offset offset' : Nat} {cs : List Char}
    (h : ∀ i < cs.length, φ (offset + i) = offset' + i) :
    ofText offset' cs = (ofText offset cs).map (move φ) := by
  rw [← cut_plain_nil (φ offset)]
  exact cut_move h (.plain [] offset)

/-! ## Readings -/

/-- A reading with all its offsets changed. -/
def Reading.move (φ : Nat → Nat) (r : Reading) : Reading :=
  ⟨r.here.move φ, r.around.map (Stretch.move φ), φ r.position⟩

section Read

variable (config : ReaderConfig) (φ : Nat → Nat)

theorem truncated_move (last openedAt : Nat) :
    truncated config (φ last) (φ openedAt) = (truncated config last openedAt).move φ := by
  unfold truncated
  split <;> rfl

theorem ending_move (last : Nat) (left : List Nat) :
    ending config (φ last) (left.map φ) = (ending config last left).move φ := by
  have hlevels : (left.map φ).map (truncated config (φ last)) =
      (left.map (truncated config last)).map (Stretch.move φ) := by
    simp only [List.map_map]
    congr 1
    funext o
    exact truncated_move config φ last o
  unfold ending
  rw [hlevels]
  cases left with
  | nil => rfl
  | cons o left => simp only [List.map_cons, Reading.move, List.map_append]; rfl

theorem enclose_move (depth offset : Nat) (inner outer : Stretch) :
    enclose config depth (φ offset) (inner.move φ) (outer.move φ) =
      (enclose config depth offset inner outer).move φ := by
  unfold enclose
  cases config.maxDepth with
  | none => simp [Stretch.move]
  | some limit =>
    simp only
    split <;> simp [Stretch.move, Diagnostic.move, Cause.move]

/-- Every lexeme keeps it that the levels of one reading are those of the other one, with their
offsets changed. -/
theorem kept_move : Kept config config φ fun r r' =>
    r'.here = r.here.move φ ∧ r'.around = r.around.map (Stretch.move φ) where
  form cs h := ⟨congrArg (Stretch.precede ⟨Atom.ofToken cs, .absent⟩) h.1, h.2⟩
  droppedQuote cs offset h :=
    ⟨congrArg (Stretch.report ⟨.strayQuote (String.ofList cs), φ offset⟩) h.1, h.2⟩
  closing h := ⟨rfl, congrArg₂ List.cons h.1 h.2⟩
  opening offset _ h := by
    simp only [List.map_cons, List.cons.injEq] at h
    obtain ⟨rfl, rfl, rfl⟩ := h
    exact ⟨enclose_move config φ .., rfl⟩

/-- **What lexemes read as** is the same at all offsets, wherever these are. -/
theorem levels_read_move (last : Nat) (left : List Nat) (xs : List Lexeme) :
    let reading := read config last left xs
    let moved := read config (φ last) (left.map φ) (xs.map (move φ))
    moved.here = reading.here.move φ ∧ moved.around = reading.around.map (Stretch.move φ) := by
  apply (kept_move config φ).read
  · rintro cs offset - ⟨here, around, position⟩ ⟨here', around', position'⟩ ⟨rfl, rfl⟩
    unfold Reading.breakOff
    simp only
    split <;> exact ⟨rfl, rfl⟩
  · exact fun offset => ⟨rfl, rfl⟩
  · intro left
    rw [ending_move]
    exact ⟨rfl, rfl⟩

end Read

/-- A row at another offset ends as much farther on. -/
theorem read_move (config : ReaderConfig) (p last : Nat) (left : List Nat) (xs : List Lexeme) :
    read config (last + p) (left.map (· + p)) (xs.map (move (· + p))) =
      (read config last left xs).move (· + p) := by
  obtain ⟨hhere, haround⟩ := levels_read_move config (· + p) last left xs
  have hposition : (read config (last + p) (left.map (· + p)) (xs.map (move (· + p)))).position =
      (read config last left xs).position + p := by
    apply (kept_position fun position position' => position' = position + p).read
    · intro cs _ _ r r' h
      rw [position_breakOff, position_breakOff, h]
    · exact fun offset => Nat.add_right_comm offset p 1
    · intro left
      rw [ending_position, ending_position]
  rw [Reading.move, ← hhere, ← haround, ← hposition]

end Lexeme

end Sexpr
