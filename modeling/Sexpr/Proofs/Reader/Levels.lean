import Sexpr.Proofs.Coroutine.Run
import Sexpr.Proofs.Lexeme.Reading

/-!
# Levels against lexemes

A level scans with a state of its own and stops at every parenthesis, the cut of a text goes
through it once and looks at no parenthesis. `Level.Follows` says that a level and a state of the
cut stand at the same place, and this module shows that one character, the end of the text and the
end of an inner list do the same to both.

* `Level.continued` is the chain of a level when it is known what is still to come.
* `Level.resolve` is the chain of the outermost level when a level and those waiting for it are
  known, and what is still to come of each.
* `Level.ends_go` is the simulation: running a level on the explicit stack gives what its lexemes
  read as.
-/

namespace Sexpr

open Coroutine

namespace Tree

@[simp] theorem unwind_cons (form : Form) (latest : List Form) (rest : Tree) :
    unwind (form :: latest) rest = unwind latest (node form.atom form.child rest) := rfl

end Tree

namespace Level

variable (config : ReaderConfig)

/-! ## What is still to come -/

/-- A stretch with a report in front, if there is one. -/
def noted (report : Option Diagnostic) (s : Stretch) : Stretch :=
  match report with
  | none => s
  | some d => s.report d

/-- What a level has read, in front of what is still to come of it. -/
def continued (l : Level) (s : Stretch) : Stretch := { s with chain := Tree.unwind l.forms s.chain }

@[simp] theorem continued_report (l : Level) (d : Diagnostic) (s : Stretch) :
    l.continued (s.report d) = (l.continued s).report d := rfl

theorem continued_noted (l : Level) (report : Option Diagnostic) (s : Stretch) :
    l.continued (noted report s) = noted report (l.continued s) := by
  cases report <;> rfl

/-- The chain of the outermost level: `s` is what the innermost one amounts to, and `around` what
is still to come of the waiting ones. -/
def assemble (s : Stretch) : List Waiting → List Stretch → Stretch
  | w :: stack, outer :: around =>
    assemble (w.level.continued (Lexeme.enclose config w.level.depth w.offset s outer)) stack around
  | _, _ => s

theorem enclose_report (depth offset : Nat) (d : Diagnostic) (inner outer : Stretch) :
    Lexeme.enclose config depth offset (inner.report d) outer =
      (Lexeme.enclose config depth offset inner outer).report d := by
  unfold Lexeme.enclose
  cases config.maxDepth with
  | none => rfl
  | some limit => simp only [Stretch.report]; split <;> rfl

theorem assemble_report (d : Diagnostic) (s : Stretch) (stack : List Waiting)
    (around : List Stretch) :
    assemble config (s.report d) stack around = (assemble config s stack around).report d := by
  induction stack generalizing s around with
  | nil => rfl
  | cons w stack ih =>
    cases around with
    | nil => rfl
    | cons outer around => rw [assemble, assemble, enclose_report, continued_report, ih]

theorem assemble_noted (report : Option Diagnostic) (s : Stretch) (stack : List Waiting)
    (around : List Stretch) :
    assemble config (noted report s) stack around =
      noted report (assemble config s stack around) := by
  cases report with
  | none => rfl
  | some d => exact assemble_report config d s stack around

/-- The chain of the outermost level, when `r` is still to come of `l` and of those waiting. -/
def resolve (l : Level) (stack : List Waiting) (r : Lexeme.Reading) : Stretch :=
  assemble config (l.continued r.here) stack r.around

theorem resolve_mapHere_report (l : Level) (stack : List Waiting) (r : Lexeme.Reading)
    (d : Diagnostic) :
    resolve config l stack (r.mapHere (Stretch.report d)) =
      (resolve config l stack r).report d :=
  assemble_report config d (l.continued r.here) stack r.around

/-! ## The same place -/

/-- A level stands where a state of the cut stands. -/
def Follows (l : Level) : Lexeme.State → Prop
  | .plain latest _ => l.mode = .plain ∧ l.token = latest
  | .string latest escaped _ => l.mode = .string ∧ l.token = latest ∧ l.escaped = escaped
  | .comment => l.mode = .comment ∧ l.token = []

/-- The levels that wait for `l`: each is one list further out, between two tokens, and has the
offset of the list inside it. -/
def Stacked : Level → List Waiting → Prop
  | l, [] => l.depth = 0
  | l, w :: stack =>
    l.depth = w.level.depth + 1 ∧ l.openedAt = w.offset ∧ w.level.mode = .plain ∧
      w.level.token = [] ∧ Stacked w.level stack

theorem Stacked.congr {l l' : Level} {stack : List Waiting} (h : Stacked l stack)
    (hd : l'.depth = l.depth) (ho : l'.openedAt = l.openedAt) : Stacked l' stack := by
  cases stack with
  | nil => exact hd.trans h
  | cons w stack => exact ⟨hd.trans h.1, ho.trans h.2.1, h.2.2⟩

theorem Stacked.depth_eq {l : Level} {stack : List Waiting} (h : Stacked l stack) :
    l.depth = stack.length := by
  induction stack generalizing l with
  | nil => exact h
  | cons w stack ih => rw [h.1, ih h.2.2.2.2, List.length_cons]

/-- The offsets of the open lists, innermost first. -/
def offsets (stack : List Waiting) : List Nat := stack.map (·.offset)

@[simp] theorem offsets_cons (w : Waiting) (stack : List Waiting) :
    offsets (w :: stack) = w.offset :: offsets stack := rfl

/-! ## The pending token -/

theorem flushPending_mode (l : Level) : l.flushPending.mode = l.mode := by
  unfold flushPending
  split <;> rfl

theorem flushPending_depth (l : Level) : l.flushPending.depth = l.depth := by
  unfold flushPending
  split <;> rfl

theorem flushPending_openedAt (l : Level) : l.flushPending.openedAt = l.openedAt := by
  unfold flushPending
  split <;> rfl

theorem flushPending_token (l : Level) : l.flushPending.token = [] := by
  unfold flushPending
  split
  · assumption
  · rfl

theorem Stacked.flushPending {l : Level} {stack : List Waiting} (h : Stacked l stack) :
    Stacked l.flushPending stack :=
  h.congr l.flushPending_depth l.flushPending_openedAt

/-- The lexeme of the pending token does to the reading what flushing the token does to the
level. -/
theorem resolve_ended (l : Level) (stack : List Waiting) (last start : Nat) (opened : List Nat)
    (rest : List Lexeme) :
    resolve config l stack (Lexeme.read config last opened (Lexeme.ended l.token start ++ rest)) =
      resolve config l.flushPending stack (Lexeme.read config last opened rest) := by
  unfold Lexeme.ended Level.flushPending
  split
  · rfl
  · rfl

theorem position_ended (latest : List Char) (last start : Nat) (opened : List Nat)
    (rest : List Lexeme) :
    (Lexeme.read config last opened (Lexeme.ended latest start ++ rest)).position =
      (Lexeme.read config last opened rest).position := by
  unfold Lexeme.ended
  split <;> rfl

/-! ## One character -/

/-- A character does the same to a level and to the cut. A parenthesis ends the pending token in
both. Any other character adds lexemes `xs`, and reading these in front of the rest comes to what
the level has read by then. -/
inductive Agree (l : Level) (position : Nat) : Step → List Lexeme × Lexeme.State → Prop
  | stay {l' : Level} {report : Option Cause} {xs : List Lexeme} {state : Lexeme.State} :
    l'.Follows state → l'.depth = l.depth → l'.openedAt = l.openedAt →
    (∀ stack last opened rest,
      resolve config l stack (Lexeme.read config last opened (xs ++ rest)) =
        noted (report.map (⟨·, position⟩))
          (resolve config l' stack (Lexeme.read config last opened rest))) →
    (∀ last opened rest, (Lexeme.read config last opened (xs ++ rest)).position =
      (Lexeme.read config last opened rest).position) →
    Agree l position (.stay l' report) (xs, state)
  | descend (start : Nat) : l.mode = .plain →
    Agree l position (.descend l.flushPending)
      (Lexeme.ended l.token start ++ [.opening position], .plain [] position)
  | leave (start : Nat) : l.mode = .plain →
    Agree l position (.leave l.flushPending)
      (Lexeme.ended l.token start ++ [.closing position], .plain [] position)

theorem agree_plainStep {l : Level} (hm : l.mode = .plain) (start position : Nat) (c : Char) :
    Agree config l position (l.plainStep c) (Lexeme.advance (.plain l.token start) c position) := by
  unfold plainStep
  simp only [Lexeme.advance]
  by_cases hopen : c = '('
  · simp only [hopen, ↓reduceIte]
    exact .descend start hm
  by_cases hclose : c = ')'
  · simp only [hclose, ↓reduceIte]
    exact .leave start hm
  by_cases hcomment : c = ';'
  · simp only [hcomment, ↓reduceIte]
    exact .stay ⟨rfl, l.flushPending_token⟩ l.flushPending_depth l.flushPending_openedAt
      (fun stack last opened rest => resolve_ended config l stack last start opened rest)
      (position_ended config l.token · start)
  simp only [hopen, hclose, hcomment, ↓reduceIte]
  -- an apostrophe is a lexeme of its own only between two tokens
  by_cases hquote : c = Text.apostrophe
  · by_cases hempty : l.token = []
    · simp only [hquote, hempty, and_self, ↓reduceIte]
      exact .stay ⟨hm, hempty⟩ rfl rfl (fun _ _ _ _ => rfl) fun _ _ _ => rfl
    · simp only [hquote, hempty, and_false, ↓reduceIte, Lexeme.grown, Token.isSpace,
        Text.apostrophe]
      exact .stay ⟨hm, rfl⟩ rfl rfl (fun _ _ _ _ => rfl) fun _ _ _ => rfl
  simp only [hquote, false_and, ↓reduceIte]
  by_cases hspace : Token.isSpace c
  · simp only [hspace, ↓reduceIte]
    exact .stay ⟨l.flushPending_mode.trans hm, l.flushPending_token⟩ l.flushPending_depth
      l.flushPending_openedAt
      (fun stack last opened rest => resolve_ended config l stack last start opened rest)
      (position_ended config l.token · start)
  simp only [hspace, Bool.false_eq_true, ↓reduceIte]
  by_cases hstring : c = '"'
  · by_cases hempty : l.token = []
    · simp only [hstring, hempty, ↓reduceIte]
      exact .stay ⟨rfl, by simp only [add, hempty], rfl⟩ rfl rfl (fun _ _ _ _ => rfl)
        fun _ _ _ => rfl
    · simp only [hstring, hempty, ↓reduceIte]
      exact .stay ⟨hm, rfl⟩ rfl rfl
        (fun stack _ _ _ => resolve_mapHere_report config l stack _ _) fun _ _ _ => rfl
  · simp only [hstring, ↓reduceIte, Lexeme.grown]
    by_cases hempty : l.token = []
    · simp only [hempty, ↓reduceIte]
      exact .stay ⟨hm, by simp only [add, hempty]⟩ rfl rfl (fun _ _ _ _ => rfl) fun _ _ _ => rfl
    · simp only [hempty, ↓reduceIte]
      exact .stay ⟨hm, rfl⟩ rfl rfl (fun _ _ _ _ => rfl) fun _ _ _ => rfl

theorem agree_stringStep {l : Level} (hm : l.mode = .string) (start position : Nat) (c : Char) :
    Agree config l position (l.stringStep c)
      (Lexeme.advance (.string l.token l.escaped start) c position) := by
  unfold stringStep
  simp only [Lexeme.advance]
  by_cases hslash : c = '\\'
  · simp only [hslash, ↓reduceIte]
    exact .stay ⟨hm, rfl, rfl⟩ rfl rfl (fun _ _ _ _ => rfl) fun _ _ _ => rfl
  by_cases hend : c = '"' ∧ l.escaped = false
  · simp only [hend, and_self, ↓reduceIte]
    exact .stay ⟨rfl, rfl⟩ rfl rfl (fun _ _ _ _ => rfl) fun _ _ _ => rfl
  · simp only [hslash, hend, ↓reduceIte]
    exact .stay ⟨hm, rfl, rfl⟩ rfl rfl (fun _ _ _ _ => rfl) fun _ _ _ => rfl

theorem agree_commentStep {l : Level} (hm : l.mode = .comment) (ht : l.token = [])
    (position : Nat) (c : Char) :
    Agree config l position (l.commentStep c) (Lexeme.advance .comment c position) := by
  unfold commentStep
  simp only [Lexeme.advance]
  by_cases hend : c = '\n'
  · simp only [hend, ↓reduceIte]
    exact .stay ⟨rfl, rfl⟩ rfl rfl (fun _ _ _ _ => rfl) fun _ _ _ => rfl
  · simp only [hend, ↓reduceIte]
    exact .stay ⟨hm, ht⟩ rfl rfl (fun _ _ _ _ => rfl) fun _ _ _ => rfl

/-- **One character** does the same to a level and to a state of the cut at the same place. -/
theorem agree_step {l : Level} {state : Lexeme.State} (h : l.Follows state) (position : Nat)
    (c : Char) : Agree config l position (l.step c) (Lexeme.advance state c position) := by
  unfold step
  cases state with
  | plain latest start =>
    obtain ⟨hm, rfl⟩ := h
    rw [hm]
    exact agree_plainStep config hm start position c
  | string latest escaped start =>
    obtain ⟨hm, rfl, rfl⟩ := h
    rw [hm]
    exact agree_stringStep config hm start position c
  | comment =>
    rw [h.1]
    exact agree_commentStep config h.1 h.2 position c

/-! ## The end of a list -/

/-- A level that takes an inner list, against the lexemes: both add the same form, and both report
the same. -/
theorem receive_eq (l : Level) (offset : Nat) (inner : Tree) :
    ∃ form report,
      receive config l offset inner = ({ l with forms := form :: l.forms }, report.toList) ∧
      ∀ outer, Lexeme.enclose config l.depth offset ⟨inner, []⟩ outer =
        noted report (outer.precede form) := by
  unfold receive Lexeme.enclose
  cases config.maxDepth with
  | none => exact ⟨_, none, rfl, fun _ => rfl⟩
  | some limit =>
    by_cases h : limit.count.value < l.depth + 1
    · simp only [h, ↓reduceIte]
      exact ⟨_, some _, rfl, fun _ => rfl⟩
    · simp only [h, ↓reduceIte]
      exact ⟨_, none, rfl, fun _ => rfl⟩

theorem Stacked.receive {w : Waiting} {stack : List Waiting} (h : Stacked w.level stack)
    (inner : Tree) : Stacked (receive config w.level w.offset inner).1 stack := by
  obtain ⟨form, report, hr, -⟩ := receive_eq config w.level w.offset inner
  rw [hr]
  exact h.congr rfl rfl

theorem follows_receive {l : Level} (hm : l.mode = .plain) (ht : l.token = []) (offset : Nat)
    (inner : Tree) (start : Nat) :
    (receive config l offset inner).1.Follows (.plain [] start) := by
  obtain ⟨form, report, hr, -⟩ := receive_eq config l offset inner
  rw [hr]
  exact ⟨hm, ht⟩

/-! ## Runs -/

/-- A finished run with `s` to show for it: its tree, the position where it ends, and what it adds
to the diagnostics `found`, which come latest first. -/
structure Ends (run : Tree × Cursor) (s : Stretch) (position : Nat) (found : List Diagnostic) :
    Prop where
  chain : run.1 = s.chain
  position : run.2.position = position
  found : run.2.found = s.reports.reverse ++ found

theorem Ends.report {run : Tree × Cursor} {s : Stretch} {position : Nat} {d : Diagnostic}
    {found : List Diagnostic} (h : Ends run s position (d :: found)) :
    Ends run (s.report d) position found :=
  ⟨h.chain, h.position, by simp [h.found, Stretch.report]⟩

theorem Ends.noted {run : Tree × Cursor} {s : Stretch} {position : Nat}
    {report : Option Diagnostic} {found : List Diagnostic}
    (h : Ends run s position (report.toList ++ found)) :
    Ends run (Level.noted report s) position found := by
  cases report with
  | none => exact h
  | some d => exact h.report

/-- Runs a level from the cursor on, and then those that wait for it. -/
def go (l : Level) (cursor : Cursor) (stack : List Waiting) : Tree × Cursor :=
  (system config).advance (l.scan config cursor.position cursor.found cursor.rest).1
    (l.scan config cursor.position cursor.found cursor.rest).2 stack

theorem advance_finish (chain : Tree) (cursor : Cursor) (w : Waiting) (stack : List Waiting) :
    (system config).advance (.finish chain) cursor (w :: stack) =
      go config (receive config w.level w.offset chain).1
        { cursor with found := (receive config w.level w.offset chain).2 ++ cursor.found } stack :=
  System.advance_finish_cons ..

/-- A level that is done gives its chain to the one that waits for it, and the run goes on with
that one. -/
theorem ends_finish {chain : Tree} {cursor : Cursor} {w : Waiting} {stack : List Waiting}
    {r : Lexeme.Reading} {position : Nat} {found : List Diagnostic}
    (h : Ends
      (go config (receive config w.level w.offset chain).1
        { cursor with found := (receive config w.level w.offset chain).2 ++ cursor.found } stack)
      (resolve config (receive config w.level w.offset chain).1 stack r) position
      ((receive config w.level w.offset chain).2 ++ found)) :
    Ends ((system config).advance (.finish chain) cursor (w :: stack))
      (assemble config ⟨chain, []⟩ (w :: stack) (r.here :: r.around)) position found := by
  rw [advance_finish, assemble]
  obtain ⟨form, report, hr, he⟩ := receive_eq config w.level w.offset chain
  rw [hr] at h ⊢
  rw [he, continued_noted, assemble_noted]
  exact h.noted

/-! ## The end of the text -/

/-- The end of the text in a token or in a string, against the lexemes. -/
theorem finishToken_eq {l : Level} {state : Lexeme.State} (h : l.Follows state) (last : Nat) :
    ∃ (l' : Level) (report : Option Diagnostic), l.finishToken config last = (l', report.toList) ∧
      l'.depth = l.depth ∧ l'.openedAt = l.openedAt ∧ ∀ stack opened,
        resolve config l stack (Lexeme.read config last opened (Lexeme.atEnd state)) =
          noted report (resolve config l' stack (Lexeme.ending config last opened)) := by
  unfold finishToken Lexeme.atEnd
  cases state with
  | plain latest start =>
    obtain ⟨hm, rfl⟩ := h
    refine ⟨l.flushPending, none, by simp [hm], l.flushPending_depth, l.flushPending_openedAt, ?_⟩
    intro stack opened
    simpa [Lexeme.read, noted] using resolve_ended config l stack last start opened []
  | comment =>
    exact ⟨l, none, by simp [h.1], rfl, rfl, fun _ _ => rfl⟩
  | string latest escaped start =>
    obtain ⟨hm, rfl, rfl⟩ := h
    simp only [hm, Lexeme.read]
    by_cases hstrict : config.reportUnterminated = true
    · simp only [hstrict, ↓reduceIte]
      exact ⟨_, some _, rfl, rfl, rfl,
        fun stack _ => resolve_mapHere_report config (l.push _) stack _ _⟩
    · simp only [hstrict, Bool.false_eq_true, ↓reduceIte]
      exact ⟨_, some _, rfl, rfl, rfl, fun stack _ => resolve_mapHere_report config l stack _ _⟩

theorem position_atEnd (state : Lexeme.State) (last : Nat) (opened : List Nat) :
    (Lexeme.read config last opened (Lexeme.atEnd state)).position = last := by
  cases state with
  | plain latest start =>
    have h := position_ended config latest last start opened []
    rw [List.append_nil] at h
    exact h.trans (Lexeme.ending_position config last opened)
  | comment => exact Lexeme.ending_position config last opened
  | string latest escaped start =>
    simp only [Lexeme.atEnd, Lexeme.read]
    split <;> exact Lexeme.ending_position config last opened

/-- The end of the text in a list, against the lexemes: both report it. -/
theorem finishList_cons {l : Level} {w : Waiting} {stack : List Waiting}
    (h : Stacked l (w :: stack)) (last : Nat) :
    ∃ l' d, l.finishList config last = (l', [d]) ∧
      resolve config l (w :: stack) (Lexeme.ending config last (offsets (w :: stack))) =
        (assemble config ⟨l'.chain, []⟩ (w :: stack)
          ((Lexeme.ending config last (offsets stack)).here ::
            (Lexeme.ending config last (offsets stack)).around)).report d := by
  have hd : l.depth ≠ 0 := by rw [h.1]; exact Nat.succ_ne_zero _
  rw [Lexeme.ending_levels]
  simp only [finishList, hd, ↓reduceIte, h.2.1, resolve, offsets_cons, Lexeme.ending, List.map_cons,
    Lexeme.truncated, continued_report, assemble_report]
  cases config.reportUnterminated <;> exact ⟨_, _, rfl, rfl⟩

/-- At the end of the text all levels end, from the innermost one outwards. -/
theorem ends_go_nil {l : Level} {state : Lexeme.State} {stack : List Waiting}
    (hf : l.Follows state) (hs : Stacked l stack) (last : Nat) (found : List Diagnostic) :
    Ends (go config l ⟨[], last, found⟩ stack)
      (resolve config l stack (Lexeme.read config last (offsets stack) (Lexeme.atEnd state)))
      last found := by
  induction stack generalizing l state found with
  | nil =>
    obtain ⟨l', report, ht, hd, -, hr⟩ := finishToken_eq config hf last
    have hl : l'.depth = 0 := hd.trans hs
    rw [hr]
    refine Ends.noted ?_
    simp only [go, scan, finish, ht, finishList, hl, ↓reduceIte, List.nil_append,
      System.advance_finish_nil]
    exact ⟨rfl, rfl, rfl⟩
  | cons w stack ih =>
    obtain ⟨l', report, ht, hd, ho, hr⟩ := finishToken_eq config hf last
    obtain ⟨l'', d, hl, he⟩ := finishList_cons config (hs.congr hd ho) last
    obtain ⟨-, -, hm, htoken, hstack⟩ := hs
    rw [hr, he]
    refine (Ends.report ?_).noted
    simp only [go, scan, finish, ht, hl]
    refine ends_finish config ?_
    have hend := ih (follows_receive config hm htoken w.offset l''.chain 0)
      (hstack.receive config l''.chain)
      ((receive config w.level w.offset l''.chain).2 ++ (d :: report.toList ++ found))
    simpa [Lexeme.atEnd, Lexeme.ended, Lexeme.read] using hend

/-! ## The whole text -/

/-- **The simulation.** Running a level over the text, and then those that wait for it, gives what
the lexemes of the text read as. -/
theorem ends_go {l : Level} {state : Lexeme.State} {stack : List Waiting} (hf : l.Follows state)
    (hs : Stacked l stack) (rest : List Char) (position : Nat) (found : List Diagnostic) :
    Ends (go config l ⟨rest, position, found⟩ stack)
      (resolve config l stack (Lexeme.read config (position + rest.length) (offsets stack)
        (Lexeme.cut state position rest)))
      (Lexeme.read config (position + rest.length) (offsets stack)
        (Lexeme.cut state position rest)).position found := by
  induction rest generalizing l state stack position found with
  | nil =>
    rw [List.length_nil, Nat.add_zero, Lexeme.cut, position_atEnd]
    exact ends_go_nil config hf hs position found
  | cons c rest ih =>
    have hlast : position + (c :: rest).length = position + 1 + rest.length := by
      rw [List.length_cons]; omega
    rw [hlast, Lexeme.cut]
    have hagree := agree_step config hf position c
    generalize hstep : l.step c = step at hagree
    generalize Lexeme.advance state c position = out at hagree ⊢
    cases hagree with
    | stay hf' hd ho hresolve hposition =>
      rw [hresolve, hposition]
      refine Ends.noted ?_
      simp only [go, scan, hstep]
      exact ih hf' (hs.congr hd ho) _ _
    | descend start hm =>
      rw [List.append_assoc, resolve_ended, position_ended]
      simp only [go, scan, hstep, System.advance_call]
      -- the new level starts between two tokens, and this one waits for it
      let inner : Level := { depth := l.flushPending.depth + 1, openedAt := position }
      have hfollows : inner.Follows (.plain [] position) := ⟨rfl, rfl⟩
      have hstacked : Stacked inner (⟨l.flushPending, position⟩ :: stack) :=
        ⟨rfl, rfl, l.flushPending_mode.trans hm, l.flushPending_token, hs.flushPending⟩
      have hinner := ih hfollows hstacked (position + 1) found
      obtain ⟨here, outer, around, last, hlist, hopening⟩ :=
        Lexeme.exists_read_opening config (position + 1 + rest.length) (offsets stack) position
          (Lexeme.cut (.plain [] position) (position + 1) rest)
      have hdepth : l.flushPending.depth = (offsets stack).length := by
        rw [hs.flushPending.depth_eq, offsets, List.length_map]
      rw [offsets_cons, hlist] at hinner
      rw [List.singleton_append, hopening, ← hdepth]
      exact hinner
    | leave start hm =>
      rw [List.append_assoc, resolve_ended, position_ended]
      simp only [go, scan, hstep]
      cases stack with
      | nil =>
        have hdepth : l.flushPending.depth = 0 := hs.flushPending
        simp only [hdepth, ↓reduceIte, System.advance_finish_nil]
        exact ⟨rfl, rfl, rfl⟩
      | cons w stack =>
        have hdepth : l.flushPending.depth ≠ 0 := by
          rw [hs.flushPending.depth_eq]; exact Nat.succ_ne_zero _
        obtain ⟨-, -, hwm, hwt, hw⟩ := hs
        simp only [hdepth, ↓reduceIte, List.nil_append]
        exact ends_finish config (ih (follows_receive config hwm hwt w.offset _ position)
          (hw.receive config _) (position + 1) _)

end Level

end Sexpr
