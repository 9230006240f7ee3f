import Mathlib.Tactic.SplitIfs
import Sexpr.Proofs.Reader.Phases

/-!
# Character by character

A call of the reader goes through its text one character at a time. A `Stage` is what it is at
between two characters: the level that runs, the levels that wait for it, and the cursor.

* `Stage.move?` is what a character does to the levels, and `Stage.next?` the stage behind it.
* `Reader.Visits` relates a reader to the stages that a call of it comes to. Every offset that the
  call reads is met at one of them (`Reader.exists_visits`), and at no other
  (`Reader.Visits.unique`).
* `Stage.Sound` is what holds of all these stages, shown of one character (`Stage.Sound.next?`) and
  then of the whole call (`Reader.Visits.sound`).
* `Stage.run` is what is still to come. No character changes what the call comes to, so each stage
  that is visited has the whole result in it (`Reader.Visits.sound`).
* What lies behind a stage has no part in how the call came there (`Reader.Visits.within`).
* At the end of the text only the level that runs can be inside a string (`exists_go_end`).
-/

namespace Sexpr

open Coroutine

namespace Level

/-! ## One character -/

/-- What a character can do to a level. It stays, and has at most a double quote to report that it
drops; or a parenthesis ends the pending token. -/
inductive Leads (l : Level) : Step → Prop
  | stay {l' : Level} {report : Option Cause} : l'.depth = l.depth → l'.openedAt = l.openedAt →
    (∀ cause ∈ report, cause = .strayQuote l.tokenText) → Leads l (.stay l' report)
  | descend : l.mode = .plain → Leads l (.descend l.flushPending)
  | leave : l.mode = .plain → Leads l (.leave l.flushPending)

theorem leads_plainStep {l : Level} (hm : l.mode = .plain) (c : Char) :
    l.Leads (l.plainStep c) := by
  have hflush := l.flushPending_depth
  have hopened := l.flushPending_openedAt
  unfold plainStep
  split_ifs
  · exact .descend hm
  · exact .leave hm
  · exact .stay hflush hopened (by simp)
  · exact .stay rfl rfl (by simp)
  · exact .stay rfl rfl (by simp)
  · exact .stay hflush hopened (by simp)
  · exact .stay rfl rfl (by simp)
  · exact .stay rfl rfl (by simp)
  · exact .stay rfl rfl (by simp)

theorem leads_step (l : Level) (c : Char) : l.Leads (l.step c) := by
  unfold step
  cases hm : l.mode with
  | plain => exact leads_plainStep hm c
  | comment =>
    refine .stay ?_ ?_ (by simp)
    · split <;> rfl
    · split <;> rfl
  | string =>
    show l.Leads (l.stringStep c)
    unfold stringStep
    split_ifs <;> exact .stay rfl rfl (by simp)

/-- An inner list is reported only for its depth. -/
theorem isTruncation_receive (config : ReaderConfig) (l : Level) (offset : Nat) (inner : Tree) :
    ∀ d ∈ (l.receive config offset inner).2, d.isTruncation = false := by
  unfold receive
  cases config.maxDepth with
  | none => simp
  | some limit =>
    simp only
    split
    · simp [Diagnostic.isTruncation, Cause.anomaly, Anomaly.isTruncation]
    · simp

end Level

/-! ## Stages -/

open Level

/-- What a call of the reader is at between two characters: the level that runs, those that wait
for it, the innermost first, and the cursor. -/
structure Stage where
  level : Level
  stack : List Waiting
  cursor : Cursor
  deriving DecidableEq

/-- What a character does to the levels: the one that runs then and those that wait then, and what
there is to report. -/
structure Move where
  level : Level
  stack : List Waiting
  reports : List Diagnostic
  deriving DecidableEq

namespace Stage

variable (config : ReaderConfig)

/-- What a character does at a stage. A closing parenthesis without an open list ends the call. -/
def move? (s : Stage) (c : Char) : Option Move :=
  match s.level.step c with
  | .stay l report => some ⟨l, s.stack, (report.map (⟨·, s.cursor.position⟩)).toList⟩
  | .descend l =>
    let inner : Opening := ⟨l.depth + 1, s.cursor.position⟩
    some ⟨inner.level, ⟨l, s.cursor.position⟩ :: s.stack, []⟩
  | .leave l =>
    match s.stack with
    | [] => none
    | w :: stack =>
      let (outer, reports) := w.level.receive config w.offset l.chain
      some ⟨outer, stack, reports⟩

/-- The stage behind a move, in front of the rest of the text. -/
def behind (s : Stage) (rest : List Char) (m : Move) : Stage :=
  ⟨m.level, m.stack, ⟨rest, s.cursor.position + 1, m.reports ++ s.cursor.found⟩⟩

/-- The stage behind the next character, if there is one. -/
def next? (s : Stage) : Option Stage :=
  match s.cursor.rest with
  | [] => none
  | c :: rest => (s.move? config c).map (s.behind rest)

/-- What is still to come of a call. -/
def run (s : Stage) : Tree × Cursor := go config s.level s.cursor s.stack

variable {config} {s s' : Stage}

theorem next?_eq_some (h : s.next? config = some s') : ∃ c rest m,
    s.cursor.rest = c :: rest ∧ s.move? config c = some m ∧ s' = s.behind rest m := by
  rw [next?] at h
  split at h
  · exact absurd h.symm (Option.some_ne_none s')
  · next c rest hrest =>
    obtain ⟨m, hm, rfl⟩ := Option.map_eq_some_iff.1 h
    exact ⟨c, rest, m, hrest, hm, rfl⟩

/-- A character that a level stays at, with nothing to report. -/
theorem next?_of_stay {c : Char} {rest : List Char} {l : Level} (hrest : s.cursor.rest = c :: rest)
    (hstep : s.level.step c = .stay l none) :
    s.next? config = some ⟨l, s.stack, ⟨rest, s.cursor.position + 1, s.cursor.found⟩⟩ := by
  simp only [next?, hrest, move?, hstep]
  rfl

/-- A character moves the cursor by one. -/
theorem position_next? (h : s.next? config = some s') :
    s'.cursor.position = s.cursor.position + 1 := by
  obtain ⟨c, rest, m, -, -, rfl⟩ := next?_eq_some h
  rfl

/-- What holds of every stage of a call that goes through a text. -/
structure Sound (text : List Char) (s : Stage) : Prop where
  stacked : Stacked s.level s.stack
  rest : s.cursor.rest = text.drop s.cursor.position
  /-- The end of the text is not met on the way. -/
  found : ∀ d ∈ s.cursor.found, d.isTruncation = false

/-- A character keeps the levels on their stack, reports no truncation, and does not change what the
call comes to. -/
theorem stacked_move? {c : Char} {rest : List Char} {m : Move}
    (hs : Stacked s.level s.stack) (hrest : s.cursor.rest = c :: rest)
    (hm : s.move? config c = some m) :
    Stacked m.level m.stack ∧ (∀ d ∈ m.reports, d.isTruncation = false) ∧
      s.run config = (s.behind rest m).run config := by
  obtain ⟨l, stack, ⟨_, position, found⟩⟩ := s
  obtain rfl := hrest
  have hleads := l.leads_step c
  simp only [move?] at hm
  simp only [run, behind, go, scan]
  generalize l.step c = step at hm hleads
  cases hleads with
  | stay hd ho hreport =>
    obtain rfl := Option.some.inj hm
    refine ⟨hs.congr hd ho, ?_, rfl⟩
    intro d hmem
    obtain ⟨cause, hcause, rfl⟩ := Option.map_eq_some_iff.1 (Option.mem_toList.1 hmem)
    rw [hreport cause hcause]
    rfl
  | descend hplain =>
    obtain rfl := Option.some.inj hm
    refine ⟨?_, by simp, ?_⟩
    · exact ⟨rfl, rfl, l.flushPending_mode.trans hplain, l.flushPending_token, hs.flushPending⟩
    · simp only [System.advance_call]
      rfl
  | leave hplain =>
    cases stack with
    | nil => exact absurd hm.symm (Option.some_ne_none m)
    | cons w stack =>
      obtain rfl := Option.some.inj hm
      obtain ⟨hdepth, -, -, -, hw⟩ := hs.flushPending
      have hinside : l.flushPending.depth ≠ 0 := by
        rw [hdepth]
        exact Nat.succ_ne_zero _
      refine ⟨hw.receive config _, isTruncation_receive config w.level w.offset _, ?_⟩
      simp only [hinside, ↓reduceIte, List.nil_append, advance_finish]
      rfl

/-- **One character** of the text keeps what holds of a stage, and does not change what the call
comes to. -/
theorem Sound.next? {text : List Char} (hs : s.Sound text) (h : s.next? config = some s') :
    s'.Sound text ∧ s.run config = s'.run config := by
  obtain ⟨c, rest, m, hrest, hm, rfl⟩ := next?_eq_some h
  obtain ⟨hstacked, hreports, hrun⟩ := stacked_move? hs.stacked hrest hm
  have hbehind : rest = text.drop (s.cursor.position + 1) := by
    rw [← List.drop_drop, ← hs.rest, hrest, List.drop_one, List.tail_cons]
  refine ⟨⟨hstacked, hbehind, ?_⟩, hrun⟩
  intro d hmem
  rcases List.mem_append.1 hmem with hmem | hmem
  · exact hreports d hmem
  · exact hs.found d hmem

/-! ## Less text -/

/-- The same stage in the text that ends at an offset. -/
def within (s : Stage) (n : Nat) : Stage :=
  { s with cursor := { s.cursor with rest := s.cursor.rest.take (n - s.cursor.position) } }

theorem next?_within {n : Nat} (h : s.next? config = some s') (hn : s.cursor.position < n) :
    (s.within n).next? config = some (s'.within n) := by
  obtain ⟨c, rest, m, hrest, hm, rfl⟩ := next?_eq_some h
  have hlength : n - s.cursor.position = n - (s.cursor.position + 1) + 1 := by omega
  have htake : (s.within n).cursor.rest = c :: rest.take (n - (s.cursor.position + 1)) := by
    show s.cursor.rest.take (n - s.cursor.position) = _
    rw [hrest, hlength, List.take_succ_cons]
  -- a move does not look at what lies behind the character
  have hmove : (s.within n).move? config c = some m := hm
  simp only [next?, htake, hmove]
  rfl

/-! ## The end of a call -/

/-- The chain of a level that ends does not depend on where the text ends. -/
theorem fst_finish (config : ReaderConfig) (l : Level) (n n' : Nat) :
    (l.finish config n).1 = (l.finish config n').1 := by
  unfold Level.finish finishToken finishList
  cases l.mode <;> simp only <;> split_ifs <;> rfl

/-- Unless truncations show in the tree, a level adds nothing to its chain but a pending token. -/
theorem fst_finish_lax {config : ReaderConfig} {l : Level} {n : Nat}
    (hlax : config.reportUnterminated = false) (h : l.mode = .plain → l.token = []) :
    (l.finish config n).1 = l.chain := by
  have htoken : (l.finishToken config n).1 = l := by
    unfold finishToken
    cases hm : l.mode with
    | plain => rw [flushPending, if_pos (h hm)]
    | comment => rfl
    | string => simp [hlax]
  have hlist : (l.finishList config n).1 = l := by
    unfold finishList
    simp only [hlax, Bool.false_eq_true, ↓reduceIte]
    split <;> rfl
  calc (l.finish config n).1 = ((l.finishToken config n).1.finishList config n).1.chain := rfl
    _ = l.chain := by rw [htoken, hlist]

/-- Two levels that end with the same chain make the same of it. -/
theorem fst_go_end (config : ReaderConfig) {l l' : Level} {n n' : Nat}
    (found found' : List Diagnostic) (stack : List Waiting)
    (h : (l.finish config n).1 = (l'.finish config n').1) :
    (go config l ⟨[], n, found⟩ stack).1 = (go config l' ⟨[], n', found'⟩ stack).1 := by
  induction stack generalizing l l' found found' with
  | nil =>
    simp only [go, scan, System.advance_finish_nil]
    exact h
  | cons w stack ih =>
    simp only [go, scan, advance_finish, h]
    exact ih _ _ (fst_finish config _ n n')

/-- A list that the text ends in is no string. -/
theorem anomaly_finishList (config : ReaderConfig) (l : Level) (n : Nat) :
    ∀ d ∈ (l.finishList config n).2, d.cause.anomaly ≠ .unterminatedString := by
  unfold finishList
  split
  · simp
  · simp [Cause.anomaly]

/-- **The end of the text** is the end of the call. Of the levels only the one that runs can be
inside a string. -/
theorem exists_go_end (config : ReaderConfig) {l : Level} {stack : List Waiting}
    (hs : Stacked l stack) (n : Nat) (found : List Diagnostic) :
    ∃ reports, (go config l ⟨[], n, found⟩ stack).2 =
        ⟨[], n, reports ++ (l.finishToken config n).2 ++ found⟩ ∧
      ∀ d ∈ reports, d.cause.anomaly ≠ .unterminatedString := by
  induction stack generalizing l found with
  | nil =>
    refine ⟨((l.finishToken config n).1.finishList config n).2, ?_, anomaly_finishList config _ n⟩
    simp only [go, scan, Level.finish, System.advance_finish_nil]
  | cons w stack ih =>
    obtain ⟨-, -, hm, ht, hstack⟩ := hs
    simp only [go, scan, advance_finish]
    -- the level that waits goes on between two tokens
    let chain := (l.finish config n).1
    obtain ⟨reports, heq, hreports⟩ := ih (hstack.receive config chain)
      ((w.level.receive config w.offset chain).2 ++ ((l.finish config n).2 ++ found))
    have htoken : ((w.level.receive config w.offset chain).1.finishToken config n).2 = [] := by
      obtain ⟨form, report, hr, -⟩ := receive_eq config w.level w.offset chain
      rw [hr]
      simp [finishToken, hm]
    refine ⟨reports ++ (w.level.receive config w.offset chain).2 ++
      ((l.finishToken config n).1.finishList config n).2, ?_, ?_⟩
    · refine heq.trans ?_
      rw [htoken, Level.finish]
      simp only [List.append_nil, List.append_assoc]
    · intro d hd
      simp only [List.mem_append] at hd
      rcases hd with (hd | hd) | hd
      · exact hreports d hd
      · intro hstring
        have hcut := isTruncation_receive config w.level w.offset chain d hd
        rw [Diagnostic.isTruncation, hstring] at hcut
        exact Bool.noConfusion hcut
      · exact anomaly_finishList config _ n d hd

/-- Where no stage follows the call ends, behind a closing parenthesis at the latest. -/
theorem Sound.position_run_le {text : List Char} (hs : s.Sound text)
    (h : s.next? config = none) : (s.run config).2.position ≤ s.cursor.position + 1 := by
  obtain ⟨l, stack, ⟨rest, position, found⟩⟩ := s
  cases rest with
  | nil =>
    obtain ⟨reports, hend, -⟩ := exists_go_end config hs.stacked position found
    rw [run, hend]
    exact Nat.le_succ position
  | cons c rest =>
    have hmove := Option.map_eq_none_iff.1 h
    simp only [move?] at hmove
    simp only [run, go, scan]
    generalize l.step c = step at hmove
    cases step with
    | stay l' report => exact absurd hmove (Option.some_ne_none _)
    | descend l' => exact absurd hmove (Option.some_ne_none _)
    | leave l' =>
      cases stack with
      | nil =>
        simp only [System.advance_finish_nil]
        exact Nat.le_refl _
      | cons w stack => exact absurd hmove (Option.some_ne_none _)

end Stage

/-! ## The stages of a call -/

namespace Reader

/-- The stage that a call starts with. -/
def first (r : Reader) : Stage :=
  let outermost : Opening := ⟨0, r.position⟩
  ⟨outermost.level, [], r.cursor⟩

/-- A call of the reader comes to a stage. -/
def Visits (r : Reader) : Stage → Prop :=
  Relation.ReflTransGen (fun s s' => s.next? r.config = some s') r.first

variable {r : Reader} {s : Stage}

theorem sound_first (r : Reader) : r.first.Sound r.text where
  stacked := rfl
  rest := rfl
  found _ hd := absurd hd List.not_mem_nil

/-- **All stages of a call**, by induction on the way there: what holds of a stage holds of each,
and what the call comes to is still to come. -/
theorem Visits.sound (h : r.Visits s) :
    s.Sound r.text ∧ (Level.system r.config).run ⟨0, r.position⟩ r.cursor = s.run r.config := by
  induction h with
  | refl => exact ⟨r.sound_first, rfl⟩
  | tail _ hnext ih =>
    obtain ⟨hsound, hrun⟩ := ih
    obtain ⟨hsound', hsame⟩ := hsound.next? hnext
    exact ⟨hsound', hrun.trans hsame⟩

theorem Visits.fst_parse (h : r.Visits s) : r.parse.1 = (s.run r.config).1 :=
  congrArg Prod.fst h.sound.2

theorem Visits.position_parse (h : r.Visits s) :
    r.parse.2.position = (s.run r.config).2.position :=
  congrArg (·.2.position) h.sound.2

theorem Visits.diagnostics_parse (h : r.Visits s) :
    r.parse.2.diagnostics = r.diagnostics ++ (s.run r.config).2.found.reverse :=
  congrArg (fun out : Tree × Cursor => r.diagnostics ++ out.2.found.reverse) h.sound.2

/-- **Every offset that a call reads** is met at one stage. -/
theorem exists_visits (r : Reader) {p : Nat} (hp : r.position ≤ p)
    (hread : p < r.parse.2.position) : ∃ s, r.Visits s ∧ s.cursor.position = p := by
  obtain ⟨k, rfl⟩ := Nat.exists_eq_add_of_le hp
  clear hp
  induction k with
  | zero => exact ⟨r.first, .refl, rfl⟩
  | succ k ih =>
    obtain ⟨s, hs, hposition⟩ := ih (Nat.lt_of_succ_lt hread)
    rw [← Nat.add_assoc, ← hposition] at hread ⊢
    cases hnext : s.next? r.config with
    | none =>
      have hend := hs.sound.1.position_run_le hnext
      rw [hs.position_parse] at hread
      omega
    | some s' => exact ⟨s', hs.tail hnext, Stage.position_next? hnext⟩

/-- Two stages of a call at one offset are the same. -/
theorem Visits.unique {s' : Stage} (h : r.Visits s) (h' : r.Visits s')
    (hposition : s.cursor.position = s'.cursor.position) : s = s' := by
  have hmoves : ∀ {a b : Stage},
      Relation.ReflTransGen (fun s s' => s.next? r.config = some s') a b →
      a = b ∨ a.cursor.position < b.cursor.position := by
    intro a b hab
    induction hab with
    | refl => exact .inl rfl
    | tail _ hnext ih =>
      have hstep := Stage.position_next? hnext
      rcases ih with rfl | ih
      · exact .inr (by omega)
      · exact .inr (by omega)
  have hfunctional : Relator.RightUnique fun s s' : Stage => s.next? r.config = some s' :=
    fun _ _ _ hb hc => Option.some.inj (hb.symm.trans hc)
  rcases Relation.ReflTransGen.total_of_right_unique hfunctional h h' with hway | hway
  · exact (hmoves hway).resolve_right (by omega)
  · exact ((hmoves hway).resolve_right (by omega)).symm

/-- What lies behind a stage has no part in how the call came there. -/
theorem Visits.within (h : r.Visits s) {n : Nat} (hn : s.cursor.position ≤ n) :
    ({ r with text := r.text.take n } : Reader).Visits (s.within n) := by
  induction h with
  | refl =>
    have hfirst : ({ r with text := r.text.take n } : Reader).first = r.first.within n := by
      simp only [first, cursor, remaining, Stage.within, List.drop_take]
    rw [← hfirst]
    exact .refl
  | tail _ hnext ih =>
    rw [Stage.position_next? hnext] at hn
    exact (ih (Nat.le_of_succ_le hn)).tail (Stage.next?_within hnext hn)

end Reader

end Sexpr
