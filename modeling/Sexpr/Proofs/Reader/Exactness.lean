import Sexpr.Proofs.Lexeme.Parens
import Sexpr.Proofs.Reader.Phases
import Sexpr.Session
import Sexpr.SourceFile

/-!
# What a call reports

The diagnostics that a call of the reader adds can be told from the characters of the text, by
counting parentheses (`Reader.diagnostics_exact`): nothing is missing, and nothing is there without
a reason.

* `Lexeme.droppedQuotes` are the double quotes that stand right behind a token.
* `Reader.Course` is the row of reports in each of two cases: a call goes to the end of the text, or
  to a closing parenthesis without an open list.
* `Reader.Exact` is what is said of a row of reports.
-/

namespace Sexpr

namespace Lexeme

/-! ## Double quotes that are dropped -/

/-- Right behind the characters of a token. -/
def State.isPending : State → Bool
  | .plain latest _ => latest ≠ []
  | _ => false

/-- The string that a text ends in, with its first double quote. -/
def State.pending? : State → Option String
  | .string latest _ _ => some (String.ofList latest.reverse)
  | _ => none

/-- The double quotes that stand right behind the characters of a token. -/
def droppedQuotes (state : State) (offset : Nat) (cs : List Char) : List Nat :=
  spots (fun state c => state.isPending && c = '"') state offset cs

/-- The offset of a double quote that is dropped. -/
def droppedAt? : Lexeme → Option Nat
  | .droppedQuote _ offset => some offset
  | _ => none

theorem droppedAt?_ended (latest : List Char) (start : Nat) :
    (ended latest start).filterMap droppedAt? = [] := by
  unfold ended
  split <;> rfl

theorem droppedAt?_advance (state : State) (c : Char) (offset : Nat) :
    (advance state c offset).1.filterMap droppedAt? =
      if state.isPending && c = '"' then [offset] else [] := by
  cases state with
  | comment => rfl
  | string latest escaped start =>
    simp only [advance, State.isPending, Bool.false_and, Bool.false_eq_true, ↓reduceIte]
    split_ifs <;> rfl
  | plain latest start =>
    have hended := droppedAt?_ended latest start
    have hout := advanced_plain latest start c offset
    generalize advance (.plain latest start) c offset = out at hout ⊢
    cases hout with
    | opening hc => simp [hended, hc, droppedAt?]
    | closing hc => simp [hended, hc, droppedAt?]
    | comment hc => simp [hended, hc]
    | space hc =>
      have hne : c ≠ '"' := by rintro rfl; exact absurd hc (by decide)
      simp [hended, hne]
    | mark hc => simp [hc, droppedAt?, Text.apostrophe]
    | quote hc hnil => simp [hnil, State.isPending]
    | dropped hc hne => simp [hc, hne, State.isPending, droppedAt?]
    | grown hc =>
      have hne : c ≠ '"' := by rintro rfl; exact absurd hc (by decide)
      simp [hne]

/-- The lexemes of a text have just these double quotes. -/
theorem droppedAt?_passed (state : State) (offset : Nat) (cs : List Char) :
    (passed state offset cs).1.filterMap droppedAt? = droppedQuotes state offset cs := by
  induction cs generalizing state offset with
  | nil => rfl
  | cons c cs ih =>
    rw [passed, List.filterMap_append, ih, droppedAt?_advance]
    rfl

/-! ## Reports of one kind -/

variable (config : ReaderConfig) (last : Nat)

theorem strayQuotes_reported (opened : List Nat) (x : Lexeme) :
    offsetsOf .strayQuote (reported config last opened x) = (droppedAt? x).toList := by
  cases x with
  | closing offset =>
    cases opened with
    | nil => rfl
    | cons o around => exact offsetsOf_beyond config (by decide) ⟨o, around⟩
  | _ => rfl

/-- A row that ends at no parenthesis reports all its double quotes. -/
theorem strayQuotes_collect {opened left : List Nat} {xs : List Lexeme}
    (h : openBehind opened xs = some left) :
    offsetsOf .strayQuote (collect (reported config last) opened xs) =
      xs.filterMap droppedAt? := by
  induction xs generalizing opened with
  | nil => rfl
  | cons x xs ih =>
    obtain ⟨behind, hx, hxs⟩ := Option.bind_eq_some_iff.1 h
    rw [collect, hx, offsetsOf_append, strayQuotes_reported, Option.elim_some, ih hxs]
    cases hdropped : droppedAt? x <;> simp [hdropped]

/-- The truncations at the end of the text, innermost list first. -/
theorem filter_isTruncation_cutOff (left : List Nat) :
    (cutOff config last left).filter Diagnostic.isTruncation =
      left.map fun o => ⟨.unterminatedList o, last⟩ := by
  induction left with
  | nil => rfl
  | cons o around ih =>
    have hbeyond : (beyond config ⟨o, around⟩).filter Diagnostic.isTruncation = [] :=
      List.filter_eq_nil_iff.2 fun d hd => by simp [isTruncation_beyond config _ d hd]
    rw [cutOff, List.filter_cons_of_pos rfl, List.filter_append, hbeyond, ih]
    rfl

theorem timeline_atEnd (left : List Nat) (state : State) :
    timeline config last left (atEnd state) =
      state.pending?.toList.map (fun s => ⟨.unterminatedString s, last⟩) ++
        cutOff config last left := by
  cases state with
  | string => rfl
  | comment => rfl
  | plain latest start =>
    rw [atEnd, ended]
    split <;> rfl

/-- Nothing is reported behind a closing parenthesis without an open list. -/
theorem timeline_stray (latest : List Char) (start offset : Nat) (rest : List Char) :
    timeline config last [] (cut (.plain latest start) offset (')' :: rest)) =
      [⟨.strayClose, offset⟩] := by
  rw [cut_bounded _ (bounded_cons rfl rest), ofText_closing, ended]
  split <;> rfl

end Lexeme

namespace Reader

open Lexeme

/-! ## In terms of the text -/

/-- The parentheses of the unread text outside of strings and comments. -/
def parens (r : Reader) : Parens := Lexeme.parens (.plain [] r.position) r.position r.remaining

/-- The double quotes of the unread text that stand right behind the characters of a token. -/
def droppedQuotes (r : Reader) : List Nat :=
  Lexeme.droppedQuotes (.plain [] r.position) r.position r.remaining

/-- The string that the unread text ends in, with its first double quote. -/
def pending? (r : Reader) : Option String :=
  (passed (.plain [] r.position) r.position r.remaining).2.pending?

/-- What a call of the reader reports. -/
structure Exact (r : Reader) (ds : List Diagnostic) : Prop where
  /-- Of the closing parentheses the first one without an open list is reported. -/
  strayClose : ds.filter (·.cause.anomaly = .strayClose) =
    r.parens.stray?.toList.map fun k => ⟨.strayClose, k⟩
  /-- It ends the call, and the reports. -/
  stops : ∀ k, r.parens.stray? = some k →
    ds.getLast? = some ⟨.strayClose, k⟩ ∧ r.parse.2.position = k + 1
  /-- The end of the text is reported to cut off a string, and then the open lists, innermost
  first, if the call gets there. -/
  truncations : (ds.filter Diagnostic.isTruncation).map Diagnostic.report =
    if r.parens.stray?.isSome then [] else
      (r.pending?.toList.map fun s =>
        ⟨.unterminatedString, "string <" ++ s ++ "> not closed", r.text.length⟩) ++
      r.parens.unclosed.reverse.map fun o =>
        ⟨.unterminatedList, "list opened at " ++ toString o ++ " not closed", r.text.length⟩
  /-- The double quotes behind tokens are reported, as far as the call gets. -/
  strayQuotes : (ds.filter (·.cause.anomaly = .strayQuote)).map Diagnostic.position =
    r.droppedQuotes.filter (· < r.parse.2.position)
  /-- Both kinds of offsets increase, so an inner list has the larger one. -/
  ordered : r.droppedQuotes.Pairwise (· < ·) ∧ r.parens.unclosed.Pairwise (· < ·)

/-! ## In terms of the lexemes -/

/-- The lexemes of the first characters of the unread text, and the state behind them. -/
def front (r : Reader) (cs : List Char) : List Lexeme × State :=
  passed (.plain [] r.position) r.position cs

/-- The offset of the end of the text. -/
def last (r : Reader) : Nat := r.position + r.remaining.length

/-- What is reported of the first characters of the unread text. -/
def onTheWay (r : Reader) (cs : List Char) : List Diagnostic :=
  collect (reported r.config r.last) [] (r.front cs).1

/-- What is reported at the end of the text inside some lists. -/
def atTheEnd (r : Reader) (left : List Nat) : List Diagnostic :=
  r.pending?.toList.map (fun s => ⟨.unterminatedString s, r.last⟩) ++ cutOff r.config r.last left

/-- The reports of a call, in order, in each of the two cases. -/
inductive Course (r : Reader) : List Diagnostic → Prop
  /-- To the end of the text, inside some lists. -/
  | whole {left : List Nat} : openBehind [] (r.front r.remaining).1 = some left →
    r.parse.2.position = r.last →
    Course r (r.onTheWay r.remaining ++ r.atTheEnd left)
  /-- To a closing parenthesis that stands behind `body`. -/
  | part {body rest latest : List Char} {start : Nat} : r.remaining = body ++ ')' :: rest →
    openBehind [] (r.front body).1 = some [] → (r.front body).2 = .plain latest start →
    r.parse.2.position = r.position + body.length + 1 →
    Course r (r.onTheWay body ++ [⟨.strayClose, r.position + body.length⟩])

/-- **Every call** takes one of the two. -/
theorem course (r : Reader) : r.Course r.reading.here.reports := by
  have hreading : r.reading =
      Lexeme.read r.config r.last [] (cut (.plain [] r.position) r.position r.remaining) := rfl
  cases hrow : openBehind [] (r.front r.remaining).1 with
  | some left =>
    have hcut : openBehind [] (cut (.plain [] r.position) r.position r.remaining) = some left := by
      rw [cut_eq, openBehind_append, ← front, hrow]
      exact openBehind_atEnd left _
    have hposition := position_read_append r.config r.last [] hcut
    rw [List.append_nil, ← hreading, ← position_parse] at hposition
    rw [hreading, reports_read, cut_eq, ← front, timeline_append, hrow, Option.elim_some,
      timeline_atEnd]
    exact .whole hrow (hposition.trans (ending_position ..))
  | none =>
    obtain ⟨body, rest, latest, start, hremaining, hbody, hstate⟩ := exists_stray hrow
    rw [← front] at hbody hstate
    have hcut : cut (.plain [] r.position) r.position r.remaining =
        (r.front body).1 ++ cut (.plain latest start) (r.position + body.length) (')' :: rest) := by
      rw [hremaining, cut_append, ← front, hstate]
    have hposition : r.parse.2.position = r.position + body.length + 1 := by
      rw [position_parse, hreading, hcut, position_read_append _ _ _ hbody,
        cut_bounded _ (bounded_cons rfl rest), ofText_closing,
        position_read_append _ _ _ (openBehind_ended [] latest start)]
      rfl
    have hreports := timeline_append r.config r.last []
      (r.front body).1 (cut (.plain latest start) (r.position + body.length) (')' :: rest))
    rw [hbody, Option.elim_some, timeline_stray] at hreports
    rw [hreading, reports_read, hcut, hreports]
    exact .part hremaining hbody hstate hposition

/-- The end of a text that is not read through stands where its last character does. -/
theorem last_cases (r : Reader) : r.last = r.text.length ∨ r.remaining = [] := by
  by_cases h : r.position ≤ r.text.length
  · left
    rw [last, remaining, List.length_drop]
    omega
  · right
    exact List.drop_eq_nil_of_le (by omega)

theorem filter_isTruncation_onTheWay (r : Reader) (cs : List Char) :
    (r.onTheWay cs).filter Diagnostic.isTruncation = [] := by
  have hstring : ∀ body start, .openString body start ∉ (r.front cs).1 :=
    openString_notMem_passed _ _ cs
  refine List.filter_eq_nil_iff.2 fun d hd => ?_
  rw [isTruncation_collect r.config r.last hstring [] d hd]
  exact Bool.false_ne_true

/-- A closing parenthesis bounds the double quotes that a call gets to. -/
theorem filter_droppedQuotes {state : State} {latest : List Char} {offset start : Nat}
    {body : List Char} (h : (passed state offset body).2 = .plain latest start)
    (rest : List Char) :
    (Lexeme.droppedQuotes state offset (body ++ ')' :: rest)).filter
        (· < offset + body.length + 1) = Lexeme.droppedQuotes state offset body := by
  have hlater : (spots (fun state c => state.isPending && c = '"') (.plain latest start)
      (offset + body.length) (')' :: rest)).filter (· < offset + body.length + 1) = [] := by
    have hclosing : ((State.plain latest start).isPending && (')' : Char) = '"') = false := by
      simp
    refine List.filter_eq_nil_iff.2 fun k hk => ?_
    rw [spots, hclosing] at hk
    have := mem_spots _ _ _ hk
    simp only [decide_eq_true_eq]
    omega
  have hearlier : (Lexeme.droppedQuotes state offset body).filter
      (· < offset + body.length + 1) = Lexeme.droppedQuotes state offset body := by
    refine List.filter_eq_self.2 fun k hk => ?_
    have := mem_spots _ _ _ hk
    simp only [decide_eq_true_eq]
    omega
  rw [Lexeme.droppedQuotes, spots_append, h, List.filter_append, hlater, List.append_nil]
  exact hearlier

section Course

variable {r : Reader} {left : List Nat}

/-- The truncations of a call to the end of the text. -/
theorem truncations_whole (hrow : openBehind [] (r.front r.remaining).1 = some left) :
    ((r.onTheWay r.remaining ++ r.atTheEnd left).filter Diagnostic.isTruncation).map
        Diagnostic.report =
      (r.pending?.toList.map fun s =>
        ⟨.unterminatedString, "string <" ++ s ++ "> not closed", r.text.length⟩) ++
      left.map fun o =>
        ⟨.unterminatedList, "list opened at " ++ toString o ++ " not closed", r.text.length⟩ := by
  have hpending : (r.pending?.toList.map fun s => (⟨.unterminatedString s, r.last⟩ :
      Diagnostic)).filter Diagnostic.isTruncation =
        r.pending?.toList.map fun s => ⟨.unterminatedString s, r.last⟩ := by
    cases r.pending? <;> rfl
  rw [List.filter_append, filter_isTruncation_onTheWay, atTheEnd, List.filter_append, hpending,
    filter_isTruncation_cutOff, List.nil_append, List.map_append, List.map_map, List.map_map]
  rcases r.last_cases with hlast | hnil
  · rw [hlast]
    rfl
  · -- nothing is unread, so no list and no string is open
    rw [hnil] at hrow
    obtain rfl := Option.some.inj hrow
    rw [pending?, hnil]
    rfl

theorem strayQuotes_whole (hrow : openBehind [] (r.front r.remaining).1 = some left) :
    offsetsOf .strayQuote (r.onTheWay r.remaining ++ r.atTheEnd left) =
      r.droppedQuotes.filter (· < r.last) := by
  have hpending : offsetsOf .strayQuote
      (r.pending?.toList.map fun s => ⟨.unterminatedString s, r.last⟩) = [] := by
    cases r.pending? <;> rfl
  rw [offsetsOf_append, onTheWay, strayQuotes_collect _ _ hrow, front, droppedAt?_passed,
    atTheEnd, offsetsOf_append, hpending, offsetsOf_cutOff r.config r.last (by decide) (by decide),
    List.append_nil, List.append_nil]
  symm
  refine List.filter_eq_self.2 fun k hk => ?_
  have hlt : k < r.last := (mem_spots _ _ _ hk).2
  exact decide_eq_true hlt

theorem pairwise_offsets (r : Reader) :
    r.droppedQuotes.Pairwise (· < ·) ∧ r.parens.unclosed.Pairwise (· < ·) :=
  ⟨pairwise_spots _ _ _ _, (pairwise_spots _ _ _ _).filter _⟩

/-- **The reports of both cases** are as the characters of the text have them. -/
theorem Course.exact {ds : List Diagnostic} (h : r.Course ds) : r.Exact ds := by
  cases h with
  | @whole left hrow hposition =>
    have hleaves := leaves_passed _ _ hrow
    have hstray : r.parens.stray? = none := hleaves.stray?_eq_none
    have hunclosed : r.parens.unclosed.reverse = left := by
      rw [← List.reverse_reverse left, ← hleaves.unclosed]
      rfl
    refine ⟨?_, ?_, ?_, ?_, r.pairwise_offsets⟩
    · rw [hstray]
      apply filter_of_offsetsOf
      show offsetsOf .strayClose _ = []
      rw [offsetsOf_append, onTheWay, strayCloses_collect _ _ hrow, atTheEnd, offsetsOf_append,
        strayCloses_cutOff]
      cases r.pending? <;> rfl
    · intro k hk
      rw [hstray] at hk
      exact absurd hk.symm (Option.some_ne_none k)
    · rw [hstray, hunclosed]
      exact truncations_whole hrow
    · rw [hposition]
      exact strayQuotes_whole hrow
  | @part body rest latest start hremaining hbody hstate hposition =>
    have hstray : r.parens.stray? = some (r.position + body.length) := by
      rw [parens, hremaining]
      exact stray?_parens _ _ hbody hstate
    refine ⟨?_, ?_, ?_, ?_, r.pairwise_offsets⟩
    · rw [hstray, List.filter_append, onTheWay,
        filter_of_offsetsOf .strayClose (strayCloses_collect r.config _ hbody)]
      rfl
    · intro k hk
      obtain rfl := Option.some.inj (hstray.symm.trans hk)
      exact ⟨List.getLast?_concat, hposition⟩
    · rw [hstray, List.filter_append, filter_isTruncation_onTheWay]
      rfl
    · show offsetsOf .strayQuote _ = _
      rw [offsetsOf_append, onTheWay, strayQuotes_collect r.config _ hbody, front,
        droppedAt?_passed, hposition, droppedQuotes, hremaining, filter_droppedQuotes hstate]
      exact List.append_nil _

end Course

/-- Something is cut off exactly if the call gets to the end of the text inside a string or a
list. -/
theorem Exact.any_isTruncation {r : Reader} {ds : List Diagnostic} (h : r.Exact ds) :
    ds.any Diagnostic.isTruncation = true ↔
      r.parens.stray? = none ∧ (r.pending? ≠ none ∨ r.parens.unclosed ≠ []) := by
  have hnonempty : ds.any Diagnostic.isTruncation = true ↔
      (ds.filter Diagnostic.isTruncation).map Diagnostic.report ≠ [] := by
    simp [List.any_eq_true, List.filter_eq_nil_iff]
  rw [hnonempty, h.truncations]
  cases r.parens.stray? with
  | some k => simp
  | none => cases r.pending? <;> simp

/-! ## The log -/

/-- The records that the reader leaves in the log for some diagnostics: for debugging if they are
truncations, as warnings otherwise. -/
def logged (ds : List Diagnostic) : List Record :=
  ds.map fun d => ⟨if d.isTruncation then .debug else .warning, .reader, d.report.line⟩

/-- The records of a call are those of what it notes. -/
theorem parseLog_of_diagnostics {r : Reader} {ds : List Diagnostic}
    (h : r.parse.2.diagnostics = r.diagnostics ++ ds) : r.parseLog = logged ds := by
  rw [diagnostics_parse] at h
  rw [parseLog_eq, List.append_cancel_left h]
  rfl

/-- Of the records of a program those of its reader are left. -/
theorem filter_parseLog_append (text : List Char) (config : ReaderConfig) {more : List Record}
    (h : ∀ record ∈ more, record.speaker ≠ .reader) :
    ((ofText text config).parseLog ++ more).filter (·.speaker = .reader) =
      logged (ofText text config).parse.2.diagnostics := by
  have hlog : (ofText text config).parseLog = logged (ofText text config).parse.2.diagnostics :=
    parseLog_of_diagnostics rfl
  have hreader : (ofText text config).parseLog.filter (·.speaker = .reader) =
      (ofText text config).parseLog := by
    refine List.filter_eq_self.2 fun record hrecord => ?_
    obtain ⟨d, -, rfl⟩ := List.mem_map.1 hrecord
    rfl
  have hmore : more.filter (·.speaker = .reader) = [] :=
    List.filter_eq_nil_iff.2 fun record hrecord => by simpa using h record hrecord
  rw [List.filter_append, hreader, hmore, List.append_nil, hlog]

theorem filter_load (name : String) (config : ReaderConfig) (text : List Char) :
    (SourceFile.load name config text).2.filter (·.speaker = .reader) =
      logged (ofText text config).parse.2.diagnostics := by
  have hload : ∃ more, (SourceFile.load name config text).2 =
      (ofText text config).parseLog ++ more ∧ ∀ record ∈ more, record.speaker ≠ .reader := by
    simp only [SourceFile.load]
    split
    · exact ⟨[], (List.append_nil _).symm, by simp⟩
    · exact ⟨_, rfl, by simp⟩
  obtain ⟨more, heq, hmore⟩ := hload
  rw [heq, filter_parseLog_append text config hmore]

theorem filter_consider (config : ReaderConfig) (lines : List String) :
    (Session.consider config lines).2.filter (·.speaker = .reader) =
      logged (ofText (Session.textOf lines) config).parse.2.diagnostics := by
  have hconsider : ∃ more, (Session.consider config lines).2 =
      (ofText (Session.textOf lines) config).parseLog ++ more ∧
        ∀ record ∈ more, record.speaker ≠ .reader := by
    simp only [Session.consider]
    split
    · exact ⟨_, rfl, by simp⟩
    · split <;> exact ⟨[], (List.append_nil _).symm, by simp⟩
  obtain ⟨more, heq, hmore⟩ := hconsider
  rw [heq, filter_parseLog_append _ config hmore]

/-- **The diagnostics of a call are exact**, whatever the text, the settings and the position, and
the call leaves one record for each of them in the log, in the same order. So the text counts as
truncated, unless it did before, exactly if the call gets to its end inside a string or a list. The
files and the lines of a program are read so, and what its reader leaves in the log is no more. -/
theorem diagnostics_exact (r : Reader) :
    (∃ ds, r.parse.2.diagnostics = r.diagnostics ++ ds ∧ r.Exact ds ∧ r.parseLog = logged ds) ∧
      (r.parse.2.truncated = true ↔ r.truncated = true ∨
        r.parens.stray? = none ∧ (r.pending? ≠ none ∨ r.parens.unclosed ≠ [])) ∧
      (∀ name, (SourceFile.load name r.config r.text).2.filter (·.speaker = .reader) =
        logged (ofText r.text r.config).parse.2.diagnostics) ∧
      ∀ lines, (Session.consider r.config lines).2.filter (·.speaker = .reader) =
        logged (ofText (Session.textOf lines) r.config).parse.2.diagnostics := by
  have hexact := r.course.exact
  refine ⟨⟨_, r.diagnostics_parse, hexact, parseLog_of_diagnostics r.diagnostics_parse⟩, ?_,
    fun name => filter_load name r.config r.text, filter_consider r.config⟩
  rw [truncated, diagnostics_parse, List.any_append, Bool.or_eq_true, hexact.any_isTruncation,
    truncated]

end Reader

end Sexpr
