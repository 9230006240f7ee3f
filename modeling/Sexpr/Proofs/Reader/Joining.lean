import Sexpr.Proofs.Lexeme.Padding
import Sexpr.Proofs.Lexeme.Splitting
import Sexpr.Proofs.Reader.Resumption
import Sexpr.Proofs.Reader.RoundTrip

/-!
# Texts that are put together

What is read of a text can tell what is read of a longer one.

* Behind whole lines of which nothing is cut off a text is read as if it were alone
  (`Reader.parse_append_lines`). The reader is as it was at the start: no list, string or comment is
  open, and no token is pending.
* Blanks and whole comments in a text change nothing but offsets (`Reader.parse_insert_padding`), at
  every place outside of strings and comments that parts no token.
-/

namespace Sexpr

namespace Reader

open Lexeme

/-! ## Behind whole lines -/

/-- Of a text that is read to its end, without a list or a string that is open there, nothing is cut
off. -/
theorem not_cutsOff {text : List Char} {config : ReaderConfig}
    (hwhole : (ofText text config).parse.2.truncated = false)
    (hstray : ∀ d ∈ (ofText text config).parse.2.diagnostics, d.cause ≠ .strayClose) :
    ∀ d ∈ (Lexeme.read config text.length [] (Lexeme.ofText 0 text)).reports, ¬CutsOff d := by
  rw [truncated, diagnostics_parse_ofText, reading_ofText, List.any_eq_false] at hwhole
  rw [diagnostics_parse_ofText, reading_ofText] at hstray
  rw [Reading.reports, around_read_outermost, List.flatMap_singleton]
  rintro d hd (hcut | hcause)
  · exact hwhole d hd hcut
  · exact hstray d hd hcause

/-- **Whole lines and then any text.** If a new reader reads some lines to their end and nothing of
them is cut off, then it reads the lines and a text behind them as it reads both alone: the forms of
the text follow those of the lines, and so do the diagnostics, with their offsets counted from the
start of the lines. The text may be anything, also malformed or cut off itself. -/
theorem parse_append_lines (config : ReaderConfig) {lines : List Char}
    (hlines : lines.getLast? = some '\n')
    (hwhole : (ofText lines config).parse.2.truncated = false)
    (hstray : ∀ d ∈ (ofText lines config).parse.2.diagnostics, d.cause ≠ .strayClose)
    (rest : List Char) :
    let one := (ofText lines config).parse
    let other := (ofText rest config).parse
    let both := (ofText (lines ++ rest) config).parse
    both.1 = one.1.before other.1 ∧
      both.2.diagnostics = one.2.diagnostics ++
        other.2.diagnostics.map (Diagnostic.move (· + lines.length)) ∧
      both.2.position = lines.length + other.2.position := by
  intro one other both
  obtain ⟨cs, rfl⟩ := List.getLast?_eq_some_iff.1 hlines
  let last := (cs ++ ['\n'] ++ rest).length
  have hclean := not_cutsOff hwhole hstray
  obtain ⟨hopen, hstring⟩ := openBehind_of_reports config _ [] hclean
  have hrow := ofText_append_lines config hclean rest
  have hother : Lexeme.read config last [] (Lexeme.ofText (cs ++ ['\n']).length rest) =
      (ofText rest config).reading.move (· + (cs ++ ['\n']).length) := by
    rw [← read_ofText, ← List.length_append]
  refine ⟨?_, ?_, ?_⟩
  · have hchain := chain_read_lines config last hclean 0 rest
    have hlength : 0 + (cs.length + 1) = (cs ++ ['\n']).length := by simp
    rw [hlength, hother] at hchain
    rw [fst_parse, fst_parse, fst_parse, reading_ofText, reading_ofText, hchain]
    rfl
  · have hlines := timeline_closed config (cs ++ ['\n']).length hopen hstring last
    rw [diagnostics_parse_ofText, diagnostics_parse_ofText, diagnostics_parse_ofText,
      reading_ofText, reading_ofText, reports_read, reports_read, hrow, timeline_append, hopen,
      hlines, Option.elim_some, ← reports_read, hother]
    rfl
  · rw [position_parse, position_parse, reading_ofText, hrow, position_read_append _ _ _ hopen,
      hother]
    exact Nat.add_comm _ _

/-- A text that is cut off, behind two lines of which nothing is. -/
theorem parse_append_lines_cut_off :
    let lines := "a\"b ; c\n(b)\n".toList
    let rest := "(c \"d".toList
    let one := (ofText lines {}).parse
    let both := (ofText (lines ++ rest) {}).parse
    lines.getLast? = some '\n' ∧ one.2.truncated = false ∧
      (∀ d ∈ one.2.diagnostics, d.cause ≠ .strayClose) ∧
      both.1 = one.1.before (ofText rest {}).parse.1 ∧
      both.2.diagnostics = [⟨.strayQuote "a", 1⟩, ⟨.unterminatedString "\"d", 17⟩,
        ⟨.unterminatedList 12, 17⟩] ∧
      both.2.position = 17 := by
  intro lines rest one both
  have hlines : lines.getLast? = some '\n' := by decide
  have hone : one.2.diagnostics = [⟨.strayQuote "a", 1⟩] := by
    rw [diagnostics_parse]
    decide
  have hother : (ofText rest {}).parse.2.diagnostics =
      [⟨.unterminatedString "\"d", 5⟩, ⟨.unterminatedList 0, 5⟩] := by
    rw [diagnostics_parse]
    decide
  have hend : (ofText rest {}).parse.2.position = 5 := by
    rw [position_parse]
    decide
  have hwhole : one.2.truncated = false := by
    rw [truncated, hone]
    decide
  have hstray : ∀ d ∈ one.2.diagnostics, d.cause ≠ .strayClose := by
    rw [hone]
    decide
  obtain ⟨htree, hdiagnostics, hposition⟩ :=
    parse_append_lines {} hlines hwhole hstray rest
  rw [hother] at hdiagnostics
  rw [hend] at hposition
  exact ⟨hlines, hwhole, hstray, htree, hdiagnostics.trans (by rw [hone]; decide), hposition⟩

/-! ## Around padding -/

/-- No float of a tree that was read is a NaN. -/
theorem equivalent_self (r : Reader) : r.parse.1.equivalent r.parse.1 = true := by
  rw [Tree.equivalent_eq_same]
  exact same_self_of_text r.madeOf_parse

/-- **Blanks and whole comments** between the characters of a text change nothing of what is read,
but that the diagnostics behind them have greater offsets: at every depth, in front of every
character and with every end of the text. They have to stand outside of strings and comments, and
where a token is pending they have to stand where it ends anyway. -/
theorem parse_insert_padding (config : ReaderConfig) {u w v latest : List Char} {start : Nat}
    (hpadding : Padding w) (hstate : (passed (.plain [] 0) 0 u).2 = .plain latest start)
    (hend : latest = [] ∨ Bounded v) :
    let parted := (ofText (u ++ w ++ v) config).parse
    let joined := (ofText (u ++ v) config).parse
    parted.1 = joined.1 ∧ parted.1.equivalent joined.1 = true ∧
      parted.2.diagnostics =
        joined.2.diagnostics.map (Diagnostic.move (makeRoom u.length w.length)) := by
  intro parted joined
  have hlength : (u ++ w ++ v).length = makeRoom u.length w.length (u ++ v).length := by
    simp only [List.length_append, makeRoom_add]
  obtain ⟨hhere, -⟩ := levels_read_move config (makeRoom u.length w.length) (u ++ v).length []
    (Lexeme.ofText 0 (u ++ v))
  rw [← ofText_insert_padding hpadding hstate hend, ← hlength, List.map_nil, ← reading_ofText,
    ← reading_ofText] at hhere
  have htree : parted.1 = joined.1 := by
    rw [fst_parse, fst_parse, hhere]
    rfl
  refine ⟨htree, ?_, ?_⟩
  · rw [htree]
    exact equivalent_self _
  · rw [diagnostics_parse, diagnostics_parse, hhere]
    rfl

/-- A blank and a comment in a list, behind the characters of a token and in front of the
parenthesis that ends it. -/
theorem parse_insert_padding_in_list :
    let u := "(a".toList
    let w := " ;x\n".toList
    let v := ")(b\"".toList
    let parted := (ofText (u ++ w ++ v) {}).parse
    let joined := (ofText (u ++ v) {}).parse
    Padding w ∧ (passed (.plain [] 0) 0 u).2 = .plain ['a'] 1 ∧ Bounded v ∧
      parted.1 = joined.1 ∧ parted.1.equivalent joined.1 = true ∧
      joined.2.diagnostics = [⟨.strayQuote "b", 5⟩, ⟨.unterminatedList 3, 6⟩] ∧
      parted.2.diagnostics = [⟨.strayQuote "b", 9⟩, ⟨.unterminatedList 7, 10⟩] := by
  intro u w v parted joined
  have hbody : '\n' ∉ ['x'] := by decide
  have hpadding : Padding w := .blank rfl (.comment hbody .nil)
  have hstate : (passed (.plain [] 0) 0 u).2 = .plain ['a'] 1 := by decide
  have hend : Bounded v := bounded_cons rfl _
  have hjoined : joined.2.diagnostics = [⟨.strayQuote "b", 5⟩, ⟨.unterminatedList 3, 6⟩] := by
    rw [diagnostics_parse]
    decide
  obtain ⟨htree, hequivalent, hdiagnostics⟩ := parse_insert_padding {} hpadding hstate (.inr hend)
  exact ⟨hpadding, hstate, hend, htree, hequivalent, hjoined,
    hdiagnostics.trans (by rw [hjoined]; decide)⟩

end Reader

end Sexpr
