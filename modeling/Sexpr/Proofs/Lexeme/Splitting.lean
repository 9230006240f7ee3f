import Sexpr.Proofs.Lexeme.Offsets
import Sexpr.Proofs.Token.Legible
import Sexpr.Proofs.Tree.Shape

/-!
# One row of lexemes behind another

When a row of lexemes leaves no list open, what comes behind it is read at the outermost level
again, and its forms follow those of the row (`read_append`). The reports of a reading tell of it:
if none is of a truncation and none of a stray parenthesis, then no list is left open
(`openBehind_of_reports`).

What is read does not depend on where the text stands: lexemes that differ in their offsets only
give the same chains (`chain_read_congr`).
-/

namespace Sexpr

/-! ## One stretch behind another -/

/-- What comes of a level, and then of more of it. -/
def Stretch.append (s u : Stretch) : Stretch := ⟨s.chain.before u.chain, s.reports ++ u.reports⟩

namespace Lexeme

/-- The levels from `here` outwards, with more of the outermost one. -/
def extend (u : Stretch) : Stretch → List Stretch → Stretch × List Stretch
  | here, [] => (here.append u, [])
  | here, outer :: around => (here, (extend u outer around).1 :: (extend u outer around).2)

/-- A reading that goes on with another one at the outermost level. -/
def Reading.andThen (r u : Reading) : Reading :=
  ⟨(extend u.here r.here r.around).1, (extend u.here r.here r.around).2, u.position⟩

variable (config : ReaderConfig) (last : Nat)

theorem andThen_mapHere {f : Stretch → Stretch} {u : Reading}
    (hf : ∀ s, (f s).append u.here = f (s.append u.here)) (r : Reading) :
    (r.mapHere f).andThen u = (r.andThen u).mapHere f := by
  obtain ⟨here, around, position⟩ := r
  cases around with
  | nil => simp only [Reading.mapHere, Reading.andThen, extend, hf]
  | cons outer around => rfl

theorem append_precede {a : Atom} (h : a ≠ .nil) (child : Tree) (s u : Stretch) :
    (s.precede ⟨a, child⟩).append u = (s.append u).precede ⟨a, child⟩ := by
  simp only [Stretch.append, Stretch.precede, Tree.before_node h]

theorem append_report (d : Diagnostic) (s u : Stretch) :
    (s.report d).append u = (s.append u).report d := rfl

theorem append_enclose (depth offset : Nat) (inner outer u : Stretch) :
    (enclose config depth offset inner outer).append u =
      enclose config depth offset inner (outer.append u) := by
  unfold enclose
  cases config.maxDepth with
  | none => simp [Stretch.append]
  | some limit =>
    simp only
    split
    · simp [Stretch.append, Tree.before_node]
    · simp [Stretch.append]

/-- **One row behind another.** A row that leaves no list open is read as if it were alone, and the
rest goes on at the outermost level. -/
theorem read_append {xs : List Lexeme} (opened : List Nat)
    (h : openBehind opened xs = some []) (ys : List Lexeme) :
    read config last opened (xs ++ ys) =
      (read config last opened xs).andThen (read config last [] ys) := by
  induction xs generalizing opened with
  | nil =>
    obtain rfl : opened = [] := Option.some.inj h
    have haround := around_read_outermost config last ys
    rw [List.nil_append]
    generalize read config last [] ys = reading at haround ⊢
    obtain ⟨here, around, position⟩ := reading
    obtain rfl : around = [] := haround
    rfl
  | cons x xs ih =>
    cases x with
    | token cs offset =>
      rw [List.cons_append, read, read, ih _ h,
        andThen_mapHere fun s => append_precede (Atom.ofToken_form cs).1 _ s _]
    | string cs offset =>
      rw [List.cons_append, read, read, ih _ h,
        andThen_mapHere fun s => append_precede (Atom.ofToken_form cs).1 _ s _]
    | droppedQuote cs offset =>
      rw [List.cons_append, read, read, ih _ h, andThen_mapHere fun s => append_report _ s _]
    | openString cs offset =>
      rw [List.cons_append, read, read, ih _ h]
      split
      · rw [andThen_mapHere fun s => append_precede Atom.noConfusion _ s _,
          andThen_mapHere fun s => append_report _ s _]
      · rw [andThen_mapHere fun s => append_report _ s _]
    | closing offset =>
      cases opened with
      | nil => exact absurd h.symm (Option.some_ne_none [])
      | cons o opened =>
        rw [List.cons_append, read, read, ih _ h]
        rfl
    | opening offset =>
      have hinner := ih (offset :: opened) h
      obtain ⟨here, outer, around, position, hlist, hopening⟩ :=
        exists_read_opening config last opened offset xs
      rw [List.cons_append, read, hinner, hlist, hopening]
      cases around with
      | nil => simp only [Reading.andThen, extend, append_enclose]
      | cons outer' around => rfl

/-! ## What the reports tell -/

/-- All that is reported from a place on. -/
def Reading.reports (r : Reading) : List Diagnostic := (r.here :: r.around).flatMap Stretch.reports

/-- A report that the text is cut off, or that a part of it is not read. -/
def CutsOff (d : Diagnostic) : Prop := d.isTruncation = true ∨ d.cause = .strayClose

theorem reports_report (d : Diagnostic) (r : Reading) :
    (r.mapHere (Stretch.report d)).reports = d :: r.reports := rfl

/-- A list that is read keeps what is reported inside of it and behind it. -/
theorem mem_reports_enclose {depth offset : Nat} {inner outer : Stretch} {d : Diagnostic}
    (h : d ∈ inner.reports ∨ d ∈ outer.reports) :
    d ∈ (enclose config depth offset inner outer).reports := by
  unfold enclose
  cases config.maxDepth with
  | none => exact List.mem_append.2 h
  | some limit =>
    simp only
    split
    · simp only [List.mem_append, List.mem_cons]
      exact h.imp_right .inr
    · exact List.mem_append.2 h

theorem mem_reports_opening {opened : List Nat} {offset : Nat} {xs : List Lexeme} {d : Diagnostic}
    (h : d ∈ (read config last (offset :: opened) xs).reports) :
    d ∈ (read config last opened (.opening offset :: xs)).reports := by
  obtain ⟨here, outer, around, position, hlist, hopening⟩ :=
    exists_read_opening config last opened offset xs
  rw [hlist] at h
  rw [hopening]
  simp only [Reading.reports, List.flatMap_cons, List.mem_append] at h ⊢
  rcases h with h | h | h
  · exact .inl (mem_reports_enclose config (.inl h))
  · exact .inl (mem_reports_enclose config (.inr h))
  · exact .inr h

/-- **Without such a report** a row of lexemes leaves no list open and holds no string that the text
ends in. -/
theorem openBehind_of_reports (opened : List Nat) {xs : List Lexeme}
    (h : ∀ d ∈ (read config last opened xs).reports, ¬CutsOff d) :
    openBehind opened xs = some [] ∧ ∀ cs offset, .openString cs offset ∉ xs := by
  induction xs generalizing opened with
  | nil =>
    cases opened with
    | nil => exact ⟨rfl, by simp⟩
    | cons o opened =>
      have hreport : ⟨.unterminatedList o, last⟩ ∈
          (read config last (o :: opened) []).reports := List.mem_cons_self
      exact absurd (.inl rfl) (h _ hreport)
  | cons x xs ih =>
    cases x with
    | token cs offset =>
      obtain ⟨hopen, hstring⟩ := ih opened h
      exact ⟨hopen, by simpa using hstring⟩
    | string cs offset =>
      obtain ⟨hopen, hstring⟩ := ih opened h
      exact ⟨hopen, by simpa using hstring⟩
    | droppedQuote cs offset =>
      rw [read, reports_report] at h
      obtain ⟨hopen, hstring⟩ := ih opened (List.forall_mem_cons.1 h).2
      exact ⟨hopen, by simpa using hstring⟩
    | openString cs offset =>
      have hreport : ⟨.unterminatedString (String.ofList cs), last⟩ ∈
          (read config last opened (.openString cs offset :: xs)).reports := by
        rw [read]
        split <;> exact List.mem_cons_self
      exact absurd (.inl rfl) (h _ hreport)
    | closing offset =>
      cases opened with
      | nil => exact absurd (.inr rfl) (h ⟨.strayClose, offset⟩ List.mem_cons_self)
      | cons o opened =>
        obtain ⟨hopen, hstring⟩ := ih opened h
        exact ⟨hopen, by simpa using hstring⟩
    | opening offset =>
      have hreports : ∀ d ∈ (read config last (offset :: opened) xs).reports, ¬CutsOff d := by
        intro d hd
        exact h d (mem_reports_opening config last hd)
      obtain ⟨hopen, hstring⟩ := ih (offset :: opened) hreports
      exact ⟨hopen, by simpa using hstring⟩

/-! ## Offsets -/

/-- The lists that a row leaves open are the same at all offsets, but for theirs. -/
theorem openBehind_move (φ : Nat → Nat) (opened : List Nat) (xs : List Lexeme) :
    openBehind (opened.map φ) (xs.map (move φ)) = (openBehind opened xs).map (List.map φ) := by
  induction xs generalizing opened with
  | nil => rfl
  | cons x xs ih =>
    cases x with
    | closing offset =>
      cases opened with
      | nil => rfl
      | cons o opened => exact ih opened
    | opening offset => exact ih (offset :: opened)
    | token cs offset => exact ih opened
    | string cs offset => exact ih opened
    | droppedQuote cs offset => exact ih opened
    | openString cs offset => exact ih opened

/-- The chains of a reading, the innermost first. -/
def Reading.chains (r : Reading) : List Tree := (r.here :: r.around).map Stretch.chain

theorem chain_enclose_congr (depth offset offset' : Nat) {inner outer inner' outer' : Stretch}
    (hinner : inner.chain = inner'.chain) (houter : outer.chain = outer'.chain) :
    (enclose config depth offset inner outer).chain =
      (enclose config depth offset' inner' outer').chain := by
  unfold enclose
  cases config.maxDepth with
  | none => simp only [hinner, houter]
  | some limit =>
    simp only [houter, hinner]
    split <;> rfl

theorem chains_mapHere_congr {f g : Stretch → Stretch} {r r' : Reading}
    (hfg : ∀ s s', s.chain = s'.chain → (f s).chain = (g s').chain) (h : r.chains = r'.chains) :
    (r.mapHere f).chains = (r'.mapHere g).chains := by
  simp only [Reading.chains, Reading.mapHere, List.map_cons, List.cons.injEq] at h ⊢
  exact ⟨hfg _ _ h.1, h.2⟩

theorem chain_precede_congr (form : Form) (s s' : Stretch) (h : s.chain = s'.chain) :
    (s.precede form).chain = (s'.precede form).chain :=
  congrArg (Tree.node form.atom form.child) h

theorem chain_truncated (openedAt : Nat) :
    (truncated config last openedAt).chain = (truncated config 0 0).chain := by
  unfold truncated
  split <;> rfl

theorem chains_ending_zero (left : List Nat) :
    (ending config last left).chains = (ending config 0 (left.map fun _ => 0)).chains := by
  simp only [Reading.chains, ending_levels, List.map_append, List.map_map]
  exact congrArg (· ++ _) (List.map_congr_left fun o _ => chain_truncated config last o)

theorem chains_breakOff (cs : List Char) {r r' : Reading} (h : r.chains = r'.chains) :
    (r.breakOff config last cs).chains = (r'.breakOff config 0 cs).chains := by
  unfold Reading.breakOff
  simp only
  split
  · exact chains_mapHere_congr (chain_precede_congr _) h
  · exact h

/-- Every lexeme keeps it that two readings have the same chains, whatever its offset is. -/
theorem kept_chains : Kept config config (fun _ => 0) fun r r' => r.chains = r'.chains where
  form cs h := chains_mapHere_congr (chain_precede_congr _) h
  droppedQuote cs offset h := h
  closing h := congrArg (Tree.sentinel :: ·) h
  opening offset _ h := by
    simp only [Reading.chains, List.map_cons, List.cons.injEq] at h ⊢
    obtain ⟨hhere, houter, haround⟩ := h
    exact ⟨chain_enclose_congr config _ offset 0 hhere houter, haround⟩

/-- The chains do not depend on offsets. -/
theorem chains_read_zero (opened : List Nat) (xs : List Lexeme) :
    (read config last opened xs).chains =
      (read config 0 (opened.map fun _ => 0) (xs.map (move fun _ => 0))).chains := by
  apply (kept_chains config).read
  · exact fun cs _ _ _ _ h => chains_breakOff config last cs h
  · exact fun _ => rfl
  · exact chains_ending_zero config last

/-- **Lexemes that differ in their offsets only** give the same chains. -/
theorem chain_read_congr {xs ys : List Lexeme}
    (h : xs.map (move fun _ => 0) = ys.map (move fun _ => 0)) (last last' : Nat) :
    (read config last [] xs).here.chain = (read config last' [] ys).here.chain := by
  have hchains := chains_read_zero config last [] xs
  rw [h, ← chains_read_zero config last' [] ys] at hchains
  exact (List.cons.inj hchains).1

/-- A character does the same at every place of a text, offsets apart. -/
theorem advance_congr {state state' : State}
    (h : state.move (fun _ => 0) = state'.move fun _ => 0) (c : Char) (offset offset' : Nat) :
    (advance state c offset).1.map (move fun _ => 0) =
        (advance state' c offset').1.map (move fun _ => 0) ∧
      (advance state c offset).2.move (fun _ => 0) =
        (advance state' c offset').2.move fun _ => 0 := by
  have hmove := advance_move (fun _ => 0) state c offset
  have hmove' := advance_move (fun _ => 0) state' c offset'
  rw [h, hmove', Prod.mk.injEq] at hmove
  exact ⟨hmove.1.symm, hmove.2.symm⟩

theorem passed_congr {state state' : State}
    (h : state.move (fun _ => 0) = state'.move fun _ => 0) (offset offset' : Nat)
    (cs : List Char) :
    (passed state offset cs).1.map (move fun _ => 0) =
        (passed state' offset' cs).1.map (move fun _ => 0) ∧
      (passed state offset cs).2.move (fun _ => 0) =
        (passed state' offset' cs).2.move fun _ => 0 := by
  induction cs generalizing state state' offset offset' with
  | nil => exact ⟨rfl, h⟩
  | cons c cs ih =>
    obtain ⟨hout, hstate⟩ := advance_congr h c offset offset'
    obtain ⟨hbehind, hend⟩ := ih hstate (offset + 1) (offset' + 1)
    exact ⟨by rw [passed, passed, List.map_append, List.map_append, hout, hbehind], hend⟩

/-! ## Whole lines -/

/-- Behind a line break the text is between two tokens, unless a string is open. -/
theorem passed_newline (state : State) (offset : Nat) :
    (∃ latest escaped start, (passed state offset ['\n']).2 = .string latest escaped start) ∨
      ∃ start, (passed state offset ['\n']).2 = .plain [] start := by
  cases state with
  | plain latest start => exact .inr ⟨offset, rfl⟩
  | comment => exact .inr ⟨offset, rfl⟩
  | string latest escaped start => exact .inl ⟨'\n' :: latest, false, start, rfl⟩

theorem eq_plain_of_move {state : State} {φ : Nat → Nat} {start : Nat}
    (h : state.move φ = .plain [] start) : ∃ start', state = .plain [] start' := by
  cases state with
  | plain latest start' =>
    obtain rfl : latest = [] := (State.plain.inj h).1
    exact ⟨start', rfl⟩
  | string latest escaped start' => exact absurd h State.noConfusion
  | comment => exact absurd h State.noConfusion

/-- A text of whole lines, of which nothing is cut off, ends between two tokens, and outside of all
lists. -/
theorem passed_lines {cs : List Char} (h : ∀ d ∈ (read config last []
      (ofText 0 (cs ++ ['\n']))).reports, ¬CutsOff d) :
    (∃ start, (passed (.plain [] 0) 0 (cs ++ ['\n'])).2 = .plain [] start) ∧
      ofText 0 (cs ++ ['\n']) = (passed (.plain [] 0) 0 (cs ++ ['\n'])).1 ∧
      openBehind [] (passed (.plain [] 0) 0 (cs ++ ['\n'])).1 = some [] := by
  obtain ⟨hclosed, hopen⟩ := openBehind_of_reports config last [] h
  have hcut : ofText 0 (cs ++ ['\n']) = (passed (.plain [] 0) 0 (cs ++ ['\n'])).1 ++
      atEnd (passed (.plain [] 0) 0 (cs ++ ['\n'])).2 := cut_eq _ _ _
  have hstate : (passed (.plain [] 0) 0 (cs ++ ['\n'])).2 =
      (passed (passed (.plain [] 0) 0 cs).2 (0 + cs.length) ['\n']).2 := by
    rw [passed_append]
  rcases passed_newline (passed (.plain [] 0) 0 cs).2 (0 + cs.length) with
    ⟨latest, escaped, start, hstring⟩ | ⟨start, hplain⟩
  · rw [hcut, hstate, hstring] at hopen
    exact absurd (List.mem_append_right _ List.mem_cons_self) (hopen latest.reverse start)
  · rw [← hstate] at hplain
    have hend : ofText 0 (cs ++ ['\n']) = (passed (.plain [] 0) 0 (cs ++ ['\n'])).1 := by
      rw [hcut, hplain]
      exact List.append_nil _
    exact ⟨⟨start, hplain⟩, hend, by rwa [hend] at hclosed⟩

/-- Behind such lines the row of lexemes starts anew. -/
theorem ofText_append_lines {cs : List Char} {own : Nat} (h : ∀ d ∈ (read config own []
      (ofText 0 (cs ++ ['\n']))).reports, ¬CutsOff d) (rest : List Char) :
    ofText 0 (cs ++ ['\n'] ++ rest) =
      ofText 0 (cs ++ ['\n']) ++ ofText (cs ++ ['\n']).length rest := by
  obtain ⟨⟨start, hstate⟩, hown, -⟩ := passed_lines config own h
  rw [hown, ofText, cut_append, hstate, cut_plain_nil, Nat.zero_add]

/-- **A text behind whole lines.** If nothing of some lines is cut off, then a text behind them is
read as if it were alone, and its forms follow those of the lines, wherever both stand. -/
theorem chain_read_lines {cs : List Char} {own : Nat} (h : ∀ d ∈ (read config own []
      (ofText 0 (cs ++ ['\n']))).reports, ¬CutsOff d) (offset : Nat) (rest : List Char) :
    (read config last [] (ofText offset (cs ++ ['\n'] ++ rest))).here.chain =
      (read config own [] (ofText 0 (cs ++ ['\n']))).here.chain.before
        (read config last [] (ofText (offset + (cs.length + 1)) rest)).here.chain := by
  obtain ⟨⟨start, hstate⟩, hown, hclosed⟩ := passed_lines config own h
  have hsame : State.move (fun _ => 0) (.plain [] offset) =
      State.move (fun _ => 0) (.plain [] 0) := rfl
  obtain ⟨hrow, hend⟩ := passed_congr hsame offset 0 (cs ++ ['\n'])
  obtain ⟨start', hplain⟩ := eq_plain_of_move (hend.trans (congrArg (State.move _) hstate))
  have hclosed' : openBehind [] (passed (.plain [] offset) offset (cs ++ ['\n'])).1 = some [] := by
    have hmoved := openBehind_move (fun _ => 0) [] (passed (.plain [] offset) offset
      (cs ++ ['\n'])).1
    rw [hrow, openBehind_move _ [], hclosed] at hmoved
    obtain ⟨left, hleft, hnil⟩ := Option.map_eq_some_iff.1 hmoved.symm
    rwa [List.map_eq_nil_iff.1 hnil] at hleft
  have haround := around_read_outermost config last
    (passed (.plain [] offset) offset (cs ++ ['\n'])).1
  rw [ofText, cut_append, hplain, cut_plain_nil,
    read_append config last [] hclosed', hown,
    ← chain_read_congr config hrow last own, Reading.andThen, haround]
  simp only [extend, Stretch.append, List.length_append, List.length_singleton]

end Lexeme

end Sexpr
