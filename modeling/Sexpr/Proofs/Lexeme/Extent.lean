import Mathlib.Data.List.Induction
import Sexpr.Proofs.Lexeme.Parallel
import Sexpr.Proofs.Lexeme.Reports

/-!
# How far a reading goes

A reading goes to the end of the text, or past the first closing parenthesis outside of all lists.
What comes behind such a parenthesis has no part in the lexemes in front of it.

* `exists_stray` finds that parenthesis.
* `Extent` tells the two cases apart, and `extent` has one of them for every text.
* `position_read_append` is where a reading ends.
* `offsetsOf` are the offsets of all reports of one kind. Of a closing parenthesis without an open
  list there is one for a reading that ends at it, and none else: `strayCloses_timeline` and
  `strayCloses_timeline_closing`.
-/

namespace Sexpr

namespace Lexeme

/-! ## The two cases -/

/-- Only a closing parenthesis outside of lists, strings and comments ends a row. -/
theorem stray_of_openBehind {opened : List Nat} {state : State} {c : Char} {offset : Nat}
    (h : openBehind opened (advance state c offset).1 = none) :
    c = ')' ∧ opened = [] ∧ ∃ latest start, state = .plain latest start := by
  cases state with
  | comment => exact absurd h (Option.some_ne_none opened)
  | string latest escaped start =>
    simp only [advance] at h
    split_ifs at h <;> exact absurd h (Option.some_ne_none opened)
  | plain latest start =>
    have hended := openBehind_ended opened latest start
    have hout := advanced_plain latest start c offset
    generalize advance (.plain latest start) c offset = out at hout h
    cases hout with
    | closing hc =>
      rw [openBehind_append, hended] at h
      cases opened with
      | nil => exact ⟨hc, rfl, latest, start, rfl⟩
      | cons o around => exact absurd h (Option.some_ne_none around)
    | opening =>
      rw [openBehind_append, hended] at h
      exact absurd h (Option.some_ne_none _)
    | comment => exact absurd (hended.symm.trans h) (Option.some_ne_none opened)
    | space => exact absurd (hended.symm.trans h) (Option.some_ne_none opened)
    | mark => exact absurd h (Option.some_ne_none opened)
    | quote => exact absurd h (Option.some_ne_none opened)
    | dropped => exact absurd h (Option.some_ne_none opened)
    | grown => exact absurd h (Option.some_ne_none opened)

/-- How far a text is read that is cut from a state, inside some lists. -/
inductive Extent (opened : List Nat) (state : State) (offset : Nat) : List Char → Prop
  /-- To its end. -/
  | whole {cs : List Char} {left : List Nat} :
    openBehind opened (cut state offset cs) = some left → Extent opened state offset cs
  /-- Past a closing parenthesis. The row `xs` of what is in front of it leaves no list open, and
  does not depend on what comes behind it. -/
  | part {body unread : List Char} {xs : List Lexeme} :
    openBehind opened xs = some [] → (∀ cs start, .openString cs start ∉ xs) →
    (∀ rest, cut state offset (body ++ ')' :: rest) =
      xs ++ .closing (offset + body.length) :: ofText (offset + body.length + 1) rest) →
    Extent opened state offset (body ++ ')' :: unread)

/-- A row that ends at a closing parenthesis: all lists are closed in front of it, and it stands
outside of strings and comments. -/
theorem exists_stray {opened : List Nat} {state : State} {offset : Nat} {cs : List Char}
    (h : openBehind opened (passed state offset cs).1 = none) :
    ∃ body unread latest start, cs = body ++ ')' :: unread ∧
      openBehind opened (passed state offset body).1 = some [] ∧
        (passed state offset body).2 = .plain latest start := by
  induction cs using List.reverseRecOn with
  | nil => exact absurd h (Option.some_ne_none opened)
  | append_singleton cs c ih =>
    rw [passed_append, openBehind_append] at h
    cases hfront : openBehind opened (passed state offset cs).1 with
    | none =>
      obtain ⟨body, unread, latest, start, rfl, hbody, hstate⟩ := ih hfront
      exact ⟨body, unread ++ [c], latest, start, by simp, hbody, hstate⟩
    | some left =>
      rw [hfront, Option.bind_some, passed, passed, List.append_nil] at h
      obtain ⟨rfl, rfl, latest, start, hstate⟩ := stray_of_openBehind h
      exact ⟨cs, [], latest, start, rfl, hfront, hstate⟩

/-- **Every text** is read to its end or past a closing parenthesis. -/
theorem extent (opened : List Nat) (state : State) (offset : Nat) (cs : List Char) :
    Extent opened state offset cs := by
  cases hrow : openBehind opened (passed state offset cs).1 with
  | some left =>
    have hcut : openBehind opened (cut state offset cs) = some left := by
      rw [cut_eq, openBehind_append, hrow]
      exact openBehind_atEnd left _
    exact .whole hcut
  | none =>
    obtain ⟨body, unread, latest, start, rfl, hbody, hstate⟩ := exists_stray hrow
    have hopen : openBehind opened ((passed state offset body).1 ++ ended latest start) =
        some [] := by
      rw [openBehind_append, hbody]
      exact openBehind_ended [] latest start
    refine .part hopen ?_ ?_
    · intro cs start' hmem
      rw [List.mem_append] at hmem
      exact hmem.elim (openString_notMem_passed state offset body cs start')
        (openString_notMem_ended latest start cs start')
    · intro rest
      rw [cut_append, hstate, cut_bounded _ (bounded_cons rfl rest), ofText_closing,
        List.append_assoc]

/-! ## Where a reading ends -/

variable (config : ReaderConfig) (last : Nat)

/-- The first one of two readings ends at an offset. -/
def EndsAt (q : Nat) (r _ : Reading) : Prop := r.position = q

theorem kept_endsAt (q : Nat) : Kept config config id (EndsAt q) :=
  kept_position fun position _ => position = q

/-- A row decides where a reading ends only if it ends it. -/
theorem position_read_append {opened left : List Nat} {xs : List Lexeme} (ys : List Lexeme)
    (h : openBehind opened xs = some left) :
    (read config last opened (xs ++ ys)).position = (read config last left ys).position := by
  let q := (read config last left ys).position
  have hread : EndsAt q (read config last opened (xs ++ ys))
      (read config last (opened.map id) (xs.map (move id) ++ ys)) := by
    apply (kept_endsAt config q).read_append
    · intro cs offset _ r _ hr
      exact (position_breakOff config last cs r).trans hr
    · exact fun hnone => absurd (h.symm.trans hnone) (Option.some_ne_none left)
    · intro left' hleft'
      obtain rfl := Option.some.inj (h.symm.trans hleft')
      rfl
  exact hread

/-! ## Reports of one kind -/

/-- The offsets of the reports of a kind, in order. -/
def offsetsOf (a : Anomaly) (ds : List Diagnostic) : List Nat :=
  (ds.filter (·.cause.anomaly = a)).map Diagnostic.position

section OffsetsOf

variable (a : Anomaly)

theorem offsetsOf_append (ds ds' : List Diagnostic) :
    offsetsOf a (ds ++ ds') = offsetsOf a ds ++ offsetsOf a ds' := by
  rw [offsetsOf, List.filter_append, List.map_append]
  rfl

theorem filter_of_offsetsOf {ds : List Diagnostic} (h : offsetsOf a ds = []) :
    ds.filter (·.cause.anomaly = a) = [] :=
  List.map_eq_nil_iff.1 h

variable {a}

theorem offsetsOf_beyond (h : a ≠ .nestingTooDeep) (x : Place) :
    offsetsOf a (beyond config x) = [] := by
  have hnone : ∀ limit o, offsetsOf a [⟨.nestingTooDeep limit, o⟩] = [] := by
    intro limit o
    simp [offsetsOf, Cause.anomaly, Ne.symm h]
  unfold beyond
  split
  · rfl
  · split
    · exact hnone _ _
    · rfl

/-- The end of the text reports lists and nothing else. -/
theorem offsetsOf_cutOff (h : a ≠ .nestingTooDeep) (h' : a ≠ .unterminatedList)
    (left : List Nat) : offsetsOf a (cutOff config last left) = [] := by
  induction left with
  | nil => rfl
  | cons o around ih =>
    have hlist : offsetsOf a [⟨.unterminatedList o, last⟩] = [] := by
      simp [offsetsOf, Cause.anomaly, Ne.symm h']
    rw [cutOff, ← List.singleton_append, offsetsOf_append, offsetsOf_append, hlist,
      offsetsOf_beyond config h, ih]
    rfl

end OffsetsOf

/-! ## Closing parentheses without an open list -/

theorem mem_of_mem_strayCloses {ds : List Diagnostic} {offset : Nat}
    (h : offset ∈ offsetsOf .strayClose ds) : ⟨.strayClose, offset⟩ ∈ ds := by
  obtain ⟨⟨cause, position⟩, hd, rfl⟩ := List.mem_map.1 h
  obtain ⟨hmem, hstray⟩ := List.mem_filter.1 hd
  rw [decide_eq_true_eq] at hstray
  cases cause with
  | strayClose => exact hmem
  | strayQuote token => exact Anomaly.noConfusion hstray
  | unterminatedString pending => exact Anomaly.noConfusion hstray
  | unterminatedList openedAt => exact Anomaly.noConfusion hstray
  | nestingTooDeep limit => exact Anomaly.noConfusion hstray

theorem strayCloses_cutOff (left : List Nat) :
    offsetsOf .strayClose (cutOff config last left) = [] :=
  offsetsOf_cutOff config last (by decide) (by decide) left

theorem strayCloses_reported {opened left : List Nat} {x : Lexeme}
    (h : enter opened x = some left) :
    offsetsOf .strayClose (reported config last opened x) = [] := by
  cases x with
  | closing offset =>
    cases opened with
    | nil => exact absurd h.symm (Option.some_ne_none left)
    | cons o around => exact offsetsOf_beyond config (by decide) ⟨o, around⟩
  | opening offset => rfl
  | token cs offset => rfl
  | string cs offset => rfl
  | droppedQuote cs offset => rfl
  | openString cs offset => rfl

/-- A row that ends at no closing parenthesis reports none. -/
theorem strayCloses_collect {opened left : List Nat} {xs : List Lexeme}
    (h : openBehind opened xs = some left) :
    offsetsOf .strayClose (collect (reported config last) opened xs) = [] := by
  induction xs generalizing opened with
  | nil => rfl
  | cons x xs ih =>
    obtain ⟨behind, hx, hxs⟩ := Option.bind_eq_some_iff.1 h
    rw [collect, hx, offsetsOf_append, strayCloses_reported config last hx]
    exact ih hxs

theorem strayCloses_timeline {opened left : List Nat} {xs : List Lexeme}
    (h : openBehind opened xs = some left) :
    offsetsOf .strayClose (timeline config last opened xs) = [] := by
  rw [timeline, offsetsOf_append, strayCloses_collect config last h, h]
  exact strayCloses_cutOff config last left

theorem strayCloses_timeline_closing {opened : List Nat} {xs : List Lexeme}
    (h : openBehind opened xs = some []) (offset : Nat) (ys : List Lexeme) :
    offsetsOf .strayClose (timeline config last opened (xs ++ .closing offset :: ys)) =
      [offset] := by
  rw [timeline_append, offsetsOf_append, strayCloses_collect config last h, h]
  show offsetsOf .strayClose (timeline config last [] (.closing offset :: ys)) = [offset]
  rw [timeline_cons]
  rfl

end Lexeme

end Sexpr
