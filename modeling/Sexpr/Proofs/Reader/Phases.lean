import Sexpr.Proofs.Reader.Levels

/-!
# Reading in two phases

A call of the reader runs its levels on the explicit stack. It gives what two phases without any
stack give: the text is cut into lexemes, and the row of lexemes is read by recursion on it.

* `Reader.reading` is what the lexemes of the unread text read as.
* `Reader.fst_parse`, `Reader.position_parse` and `Reader.diagnostics_parse` are the three results
  of a call in terms of it, and `Reader.parseLog_eq` is what the call leaves in the log. All that is
  shown of the reader goes through these.
* `Reader.parse_eq_readLexemes` is the statement for the call as a whole.
-/

namespace Sexpr

open Level

namespace Reader

/-- What the lexemes of the unread text read as. -/
def reading (r : Reader) : Lexeme.Reading :=
  Lexeme.read r.config (r.position + r.remaining.length) []
    (Lexeme.cut (.plain [] r.position) r.position r.remaining)

/-- The outermost level starts between two tokens, and none waits for it. -/
theorem ends_run (r : Reader) :
    Ends ((Level.system r.config).run ⟨0, r.position⟩ r.cursor) r.reading.here r.reading.position
      [] := by
  let outermost : Level := { depth := 0, openedAt := r.position }
  have hfollows : outermost.Follows (.plain [] r.position) := ⟨rfl, rfl⟩
  have hstacked : Stacked outermost [] := rfl
  exact ends_go r.config hfollows hstacked r.remaining r.position []

theorem fst_parse (r : Reader) : r.parse.1 = r.reading.here.chain := r.ends_run.chain

theorem position_parse (r : Reader) : r.parse.2.position = r.reading.position :=
  r.ends_run.position

/-- What the levels note, in order. -/
theorem reverse_found_run (r : Reader) :
    ((Level.system r.config).run ⟨0, r.position⟩ r.cursor).2.found.reverse =
      r.reading.here.reports := by
  rw [r.ends_run.found, List.append_nil, List.reverse_reverse]

theorem diagnostics_parse (r : Reader) :
    r.parse.2.diagnostics = r.diagnostics ++ r.reading.here.reports :=
  congrArg (r.diagnostics ++ ·) r.reverse_found_run

theorem parseLog_eq (r : Reader) : r.parseLog = r.reading.here.reports.map Diagnostic.record :=
  congrArg (List.map Diagnostic.record) r.reverse_found_run

theorem text_parse (r : Reader) : r.parse.2.text = r.text := rfl

theorem config_parse (r : Reader) : r.parse.2.config = r.config := rfl

/-- **One call of the reader is the two phases**: whatever the text, the settings, the position and
the diagnostics so far, both give the same tree, end at the same position and add the same
diagnostics in the same order. -/
theorem parse_eq_readLexemes (r : Reader) : r.parse = r.readLexemes := by
  refine Prod.ext r.fst_parse ?_
  rw [Reader.mk.injEq]
  exact ⟨r.text_parse, r.config_parse, r.position_parse, r.diagnostics_parse⟩

end Reader

end Sexpr
