import Sexpr.Proofs.Lexeme.Nesting
import Sexpr.Proofs.Lexeme.Reading

/-!
# What is reported, in order

A reading tells of each level what is reported on the way. Put together these are the reports of
the row of lexemes from left to right, and then those of the end of the text: `reports_read`.

* `beyond` is the report of a list, if it lies beyond the limit. It comes when the list ends.
* `reported` has the reports of one lexeme, `cutOff` those of the end of the text inside some lists,
  and `timeline` all of a row in order.
-/

namespace Sexpr

namespace Lexeme

variable (config : ReaderConfig) (last : Nat)

/-- The report of a list that lies beyond the limit. -/
def beyond (x : Place) : List Diagnostic :=
  match config.maxDepth with
  | none => []
  | some limit =>
    if limit.count.value < x.around.length + 1 then [⟨.nestingTooDeep limit.text, x.offset⟩]
    else []

/-- What is reported at a lexeme, in view of the lists that are open in front of it. -/
def reported (opened : List Nat) : Lexeme → List Diagnostic
  | .opening _ => []
  | .closing offset =>
    match opened with
    | [] => [⟨.strayClose, offset⟩]
    | o :: around => beyond config ⟨o, around⟩
  | .token _ _ => []
  | .string _ _ => []
  | .droppedQuote cs offset => [⟨.strayQuote (String.ofList cs), offset⟩]
  | .openString cs _ => [⟨.unterminatedString (String.ofList cs), last⟩]

/-- What is reported at the end of the text inside some lists, from the innermost one outwards. -/
def cutOff : List Nat → List Diagnostic
  | [] => []
  | o :: around => ⟨.unterminatedList o, last⟩ :: (beyond config ⟨o, around⟩ ++ cutOff around)

/-- What is reported of a row of lexemes, in order, when the text ends behind it. -/
def timeline (opened : List Nat) (xs : List Lexeme) : List Diagnostic :=
  collect (reported config last) opened xs ++ (openBehind opened xs).elim [] (cutOff config last)

theorem timeline_cons (opened : List Nat) (x : Lexeme) (xs : List Lexeme) :
    timeline config last opened (x :: xs) = reported config last opened x ++
      (enter opened x).elim [] (timeline config last · xs) := by
  rw [timeline, collect, openBehind]
  cases enter opened x with
  | none => simp
  | some left => simp [timeline]

theorem timeline_append (opened : List Nat) (xs ys : List Lexeme) :
    timeline config last opened (xs ++ ys) = collect (reported config last) opened xs ++
      (openBehind opened xs).elim [] (timeline config last · ys) := by
  rw [timeline, collect_append, openBehind_append]
  cases openBehind opened xs with
  | none => simp
  | some left => simp [timeline]

/-- The lists that are open at the end of the text, each with its two reports. -/
theorem cutOff_eq_flatMap (left : List Nat) :
    cutOff config last left = (openPlaces left).flatMap fun x =>
      ⟨.unterminatedList x.offset, last⟩ :: beyond config x := by
  induction left with
  | nil => rfl
  | cons o around ih =>
    rw [cutOff, ih]
    rfl

/-! ## Truncations -/

theorem isTruncation_beyond (x : Place) : ∀ d ∈ beyond config x, d.isTruncation = false := by
  unfold beyond
  intro d hd
  split at hd
  · exact absurd hd List.not_mem_nil
  · split at hd
    · obtain rfl := List.mem_singleton.1 hd
      rfl
    · exact absurd hd List.not_mem_nil

/-- **Before its end** nothing of a text is reported to be cut off. -/
theorem isTruncation_collect {xs : List Lexeme} (h : ∀ cs offset, .openString cs offset ∉ xs)
    (opened : List Nat) :
    ∀ d ∈ collect (reported config last) opened xs, d.isTruncation = false := by
  apply forall_mem_collect
  intro x hx opened d hd
  cases x with
  | openString cs offset => exact absurd hx (h cs offset)
  | closing offset =>
    cases opened with
    | nil =>
      obtain rfl := List.mem_singleton.1 hd
      rfl
    | cons o around => exact isTruncation_beyond config ⟨o, around⟩ d hd
  | droppedQuote cs offset =>
    obtain rfl := List.mem_singleton.1 hd
    rfl
  | opening offset => exact absurd hd List.not_mem_nil
  | token cs offset => exact absurd hd List.not_mem_nil
  | string cs offset => exact absurd hd List.not_mem_nil

/-- Where the text ends does not matter before its end. -/
theorem collect_reported_congr {xs : List Lexeme} (h : ∀ cs offset, .openString cs offset ∉ xs)
    (last' : Nat) (opened : List Nat) :
    collect (reported config last) opened xs = collect (reported config last') opened xs := by
  apply collect_congr
  intro x hx opened
  cases x with
  | openString cs offset => exact absurd hx (h cs offset)
  | opening offset => rfl
  | closing offset => rfl
  | token cs offset => rfl
  | string cs offset => rfl
  | droppedQuote cs offset => rfl

/-- Of a row that closes all its lists nothing is reported at the end of the text. -/
theorem timeline_closed {xs : List Lexeme} (hopen : openBehind [] xs = some [])
    (hstring : ∀ cs offset, .openString cs offset ∉ xs) (last' : Nat) :
    timeline config last [] xs = collect (reported config last') [] xs := by
  rw [timeline, hopen, collect_reported_congr config last hstring last']
  exact List.append_nil _

/-! ## The reports of all levels -/

/-- The reports of all levels of a reading, from the innermost one outwards, and between two of them
the report of the list that ends there. -/
def woven : List Nat → List Stretch → List Diagnostic
  | _, [] => []
  | [], s :: _ => s.reports
  | o :: around, s :: levels => s.reports ++ (beyond config ⟨o, around⟩ ++ woven around levels)

theorem woven_report (opened : List Nat) (d : Diagnostic) (s : Stretch) (levels : List Stretch) :
    woven config opened (s.report d :: levels) = d :: woven config opened (s :: levels) := by
  cases opened <;> rfl

theorem woven_precede (opened : List Nat) (form : Form) (s : Stretch) (levels : List Stretch) :
    woven config opened (s.precede form :: levels) = woven config opened (s :: levels) := by
  cases opened <;> rfl

/-- A list that is read reports what is inside of it, then perhaps itself, then what is behind
it. -/
theorem reports_enclose (opened : List Nat) (offset : Nat) (inner outer : Stretch) :
    (enclose config opened.length offset inner outer).reports =
      inner.reports ++ (beyond config ⟨offset, opened⟩ ++ outer.reports) := by
  unfold enclose beyond
  cases config.maxDepth with
  | none => rfl
  | some limit =>
    simp only
    split <;> rfl

theorem woven_enclose (opened : List Nat) (offset : Nat) (inner outer : Stretch)
    (levels : List Stretch) :
    woven config opened (enclose config opened.length offset inner outer :: levels) =
      woven config (offset :: opened) (inner :: outer :: levels) := by
  cases opened with
  | nil => exact reports_enclose config [] offset inner outer
  | cons o around =>
    rw [woven, reports_enclose, woven, woven]
    simp only [List.append_assoc]

theorem woven_ending (opened : List Nat) :
    woven config opened (opened.map (truncated config last) ++ [.nothing]) =
      cutOff config last opened := by
  induction opened with
  | nil => rfl
  | cons o around ih =>
    have hreports : (truncated config last o).reports = [⟨.unterminatedList o, last⟩] := by
      unfold truncated
      split <;> rfl
    rw [List.map_cons, List.cons_append, woven, hreports, ih]
    rfl

theorem woven_read (opened : List Nat) (xs : List Lexeme) :
    woven config opened
        ((read config last opened xs).here :: (read config last opened xs).around) =
      timeline config last opened xs := by
  induction xs generalizing opened with
  | nil =>
    rw [read, ending_levels]
    exact woven_ending config last opened
  | cons x xs ih =>
    rw [timeline_cons]
    cases x with
    | token cs offset => exact (woven_precede ..).trans (ih opened)
    | string cs offset => exact (woven_precede ..).trans (ih opened)
    | droppedQuote cs offset =>
      exact (woven_report ..).trans (congrArg _ (ih opened))
    | openString cs offset =>
      rw [read]
      split
      · exact (woven_precede ..).trans ((woven_report ..).trans (congrArg _ (ih opened)))
      · exact (woven_report ..).trans (congrArg _ (ih opened))
    | closing offset =>
      cases opened with
      | nil => rfl
      | cons o around => exact congrArg (beyond config ⟨o, around⟩ ++ ·) (ih around)
    | opening offset =>
      have hinner := ih (offset :: opened)
      obtain ⟨here, outer, around, position, hlist, hopening⟩ :=
        exists_read_opening config last opened offset xs
      rw [hlist] at hinner
      rw [hopening]
      exact (woven_enclose ..).trans hinner

/-- **The reports of a reading** are those of its lexemes in order, and then those of the end of the
text. -/
theorem reports_read (xs : List Lexeme) :
    (read config last [] xs).here.reports = timeline config last [] xs :=
  woven_read config last [] xs

end Lexeme

end Sexpr
