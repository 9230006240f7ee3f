import Mathlib.Order.Bounds.Defs
import Sexpr.Proofs.Reader.Stages
import Sexpr.Proofs.Token.Legible

/-!
# Strings in a text

A double quote between two tokens starts a string. It ends at the next double quote that has no
backslash right in front of it, whatever stands in between, and every backslash is dropped.

* `EndsString` says of an offset that a string ends there, by two characters of the text.
* `Stage.inString` is the stage inside a string, in front of an offset, and
  `Reader.OpensString.visits_inString` is the invariant: a call stays inside the string up to its
  end.
* `Stage.afterString` is the stage behind a string. The call comes there
  (`Reader.OpensString.visits_afterString`).
* `Reader.reads_string` puts this together with what the call comes to if the text ends inside the
  string, and `Reader.exists_stage_of_quote` says which double quotes start one.
-/

namespace Sexpr

open Coroutine Level

/-- What a string keeps of its characters. -/
def unescaped (cs : List Char) : List Char := cs.filter (· ≠ '\\')

/-- The string that starts at one offset ends at another one: there is a double quote, and no
backslash right in front of it. -/
def EndsString (text : List Char) (p q : Nat) : Prop :=
  p < q ∧ text[q]? = some '"' ∧ text[q - 1]? ≠ some '\\'

instance (text : List Char) (p q : Nat) : Decidable (EndsString text p q) :=
  inferInstanceAs (Decidable (_ ∧ _ ∧ _))

/-- A piece of a text and the character behind it. -/
theorem extract_succ {text : List Char} {p k : Nat} {c : Char} (hp : p ≤ k)
    (hc : text[k]? = some c) : text.extract p (k + 1) = text.extract p k ++ [c] := by
  have hlength : k + 1 - p = (k - p) + 1 := by omega
  rw [List.extract_eq_take_drop, List.extract_eq_take_drop, hlength, List.take_add_one,
    List.getElem?_drop, Nat.add_sub_cancel' hp, hc]
  rfl

theorem drop_eq_cons {text : List Char} {k : Nat} {c : Char} (hc : text[k]? = some c) :
    text.drop k = c :: text.drop (k + 1) := by
  obtain ⟨hk, rfl⟩ := List.getElem?_eq_some_iff.1 hc
  exact List.drop_eq_getElem_cons hk

theorem unescaped_concat_slash (cs : List Char) : unescaped (cs ++ ['\\']) = unescaped cs := by
  simp [unescaped]

theorem unescaped_concat (cs : List Char) {c : Char} (hc : c ≠ '\\') :
    unescaped (cs ++ [c]) = unescaped cs ++ [c] := by
  simp [unescaped, hc]

namespace Level

variable {l : Level}

/-! ## The characters of a string -/

/-- A double quote between two tokens. -/
theorem step_opening (hm : l.mode = .plain) (ht : l.token = []) :
    l.step '"' = .stay { l.add '"' with mode := .string, escaped := false } none := by
  have hstep : l.step '"' = l.plainStep '"' := by rw [step, hm]
  exact hstep.trans (if_pos ht)

theorem step_string (hm : l.mode = .string) (c : Char) : l.step c = l.stringStep c := by
  rw [step, hm]

theorem step_slash (hm : l.mode = .string) :
    l.step '\\' = .stay { l with escaped := true } none :=
  step_string hm _

/-- A character that is not dropped and does not end the string. -/
theorem step_kept (hm : l.mode = .string) {c : Char} (hslash : c ≠ '\\')
    (hkept : ¬(c = '"' ∧ l.escaped = false)) :
    l.step c = .stay { l.add c with escaped := false } none := by
  rw [step_string hm, stringStep, if_neg hslash, if_neg hkept]

theorem step_ending (hm : l.mode = .string) (hfree : l.escaped = false) :
    l.step '"' = .stay { (l.add '"').flush with mode := .plain } none := by
  rw [step_string hm, stringStep, if_neg (by decide), if_pos ⟨rfl, hfree⟩]

end Level

namespace Stage

/-- The stage inside the string that starts at a stage, in front of an offset. -/
def inString (text : List Char) (s : Stage) (k : Nat) : Stage where
  level := { s.level with
    mode := .string
    token := (unescaped (text.extract s.cursor.position k)).reverse
    escaped := text[k - 1]? = some '\\' }
  stack := s.stack
  cursor := ⟨text.drop k, k, s.cursor.found⟩

/-- The stage behind the string that starts at a stage and ends at an offset: between two tokens of
the same list, with the string read. -/
def afterString (text : List Char) (s : Stage) (q : Nat) : Stage where
  level := { s.level with
    mode := .plain
    token := []
    escaped := false
    forms :=
      ⟨.string (String.ofList (unescaped (text.extract (s.cursor.position + 1) q))), .absent⟩ ::
        s.level.forms }
  stack := s.stack
  cursor := ⟨text.drop (q + 1), q + 1, s.cursor.found⟩

variable (config : ReaderConfig) {text : List Char} {s : Stage}

/-- The double quote that starts a string. -/
theorem next?_opening (hm : s.level.mode = .plain) (ht : s.level.token = [])
    (hrest : s.cursor.rest = text.drop s.cursor.position)
    (hquote : text[s.cursor.position]? = some '"') :
    s.next? config = some (s.inString text (s.cursor.position + 1)) := by
  have htoken : unescaped (text.extract s.cursor.position (s.cursor.position + 1)) = ['"'] := by
    rw [extract_succ (Nat.le_refl _) hquote, List.extract_eq_take_drop, Nat.sub_self]
    rfl
  rw [next?_of_stay (hrest.trans (drop_eq_cons hquote)) (step_opening hm ht), inString, htoken]
  simp [hquote, add, ht]

/-- A character inside a string that does not end it. -/
theorem next?_inString {k : Nat} {c : Char} (hk : s.cursor.position < k) (hc : text[k]? = some c)
    (hend : ¬EndsString text s.cursor.position k) :
    (s.inString text k).next? config = some (s.inString text (k + 1)) := by
  have htoken := extract_succ (Nat.le_of_lt hk) hc
  have hrest : (s.inString text k).cursor.rest = c :: text.drop (k + 1) := drop_eq_cons hc
  by_cases hslash : c = '\\'
  · subst hslash
    rw [next?_of_stay hrest (step_slash rfl)]
    simp [inString, htoken, unescaped_concat_slash, hc]
  · have hkept : ¬(c = '"' ∧ (s.inString text k).level.escaped = false) := by
      rintro ⟨rfl, hfree⟩
      exact hend ⟨hk, hc, of_decide_eq_false hfree⟩
    rw [next?_of_stay hrest (step_kept rfl hslash hkept)]
    simp [inString, htoken, unescaped_concat _ hslash, hc, hslash, add]

/-- The double quote that ends a string. What is pending is a string as a whole, whatever it looks
like between the double quotes. -/
theorem next?_ending {q : Nat} (hquote : text[s.cursor.position]? = some '"')
    (hend : EndsString text s.cursor.position q) :
    (s.inString text q).next? config = some (s.afterString text q) := by
  obtain ⟨hq, hc, hfree⟩ := hend
  have hpending : unescaped (text.extract s.cursor.position q) =
      '"' :: unescaped (text.extract (s.cursor.position + 1) q) := by
    have hlength : q - s.cursor.position = q - (s.cursor.position + 1) + 1 := by omega
    rw [List.extract_eq_take_drop, List.extract_eq_take_drop, drop_eq_cons hquote, hlength,
      List.take_succ_cons]
    rfl
  have hrest : (s.inString text q).cursor.rest = '"' :: text.drop (q + 1) := drop_eq_cons hc
  rw [next?_of_stay hrest (step_ending rfl (decide_eq_false hfree))]
  simp [inString, afterString, hpending, hfree, add, flush, push, Atom.ofToken_quoted]

end Stage

namespace Reader

/-- A call of the reader meets a double quote outside of strings and comments, with no token
pending. -/
structure OpensString (r : Reader) (s : Stage) : Prop where
  visits : r.Visits s
  mode : s.level.mode = .plain
  token : s.level.token = []
  quote : r.text[s.cursor.position]? = some '"'

namespace OpensString

variable {r : Reader} {s : Stage}

/-- **Inside the string**, by induction on the offset: as long as nothing ends the string, every
character of the text is read as one of its own. -/
theorem visits_inString (h : r.OpensString s) {k : Nat} (hk : s.cursor.position < k)
    (hlength : k ≤ r.text.length) (hopen : ∀ j < k, ¬EndsString r.text s.cursor.position j) :
    r.Visits (s.inString r.text k) := by
  induction k, hk using Nat.le_induction with
  | base =>
    exact h.visits.tail
      (Stage.next?_opening r.config h.mode h.token h.visits.sound.1.rest h.quote)
  | succ k hk ih =>
    have hinside := ih (Nat.le_of_succ_le hlength) fun j hj => hopen j (Nat.lt_succ_of_lt hj)
    have hc := List.getElem?_eq_getElem hlength
    exact hinside.tail (Stage.next?_inString r.config hk hc (hopen k (Nat.lt_succ_self k)))

theorem visits_afterString (h : r.OpensString s) {q : Nat}
    (hq : EndsString r.text s.cursor.position q)
    (hopen : ∀ j < q, ¬EndsString r.text s.cursor.position j) :
    r.Visits (s.afterString r.text q) := by
  have hlength : q < r.text.length := (List.getElem?_eq_some_iff.1 hq.2.1).1
  have hinside := h.visits_inString hq.1 (Nat.le_of_lt hlength) hopen
  exact hinside.tail (Stage.next?_ending r.config h.quote hq)

/-! ## A string that the text ends in -/

theorem position_lt (h : r.OpensString s) : s.cursor.position < r.text.length :=
  (List.getElem?_eq_some_iff.1 h.quote).1

section Open

variable (h : r.OpensString s) (hopen : ∀ j, ¬EndsString r.text s.cursor.position j)
include h hopen

/-- The call comes to the end of the text inside the string. -/
theorem visits_end : r.Visits (s.inString r.text r.text.length) :=
  h.visits_inString h.position_lt (Nat.le_refl _) fun j _ => hopen j

/-- The end of the text is all that is left, and the string is reported there. -/
theorem exists_run_end : ∃ reports,
    ((s.inString r.text r.text.length).run r.config).2 = ⟨[], r.text.length, reports ++
      ⟨.unterminatedString (String.ofList (unescaped (r.text.drop s.cursor.position))),
        r.text.length⟩ :: s.cursor.found⟩ ∧
    ∀ d ∈ reports, d.cause.anomaly ≠ .unterminatedString := by
  have hstacked := (h.visits_end hopen).sound.1.stacked
  obtain ⟨reports, hend, hreports⟩ :=
    Stage.exists_go_end r.config hstacked r.text.length s.cursor.found
  refine ⟨reports, ?_, hreports⟩
  have hdone : r.text.drop r.text.length = [] := List.drop_length
  have hpending : r.text.extract s.cursor.position r.text.length =
      r.text.drop s.cursor.position := by
    rw [List.extract_eq_take_drop, ← List.length_drop, List.take_length]
  rw [Stage.run, Stage.inString, hdone]
  refine hend.trans ?_
  simp [Stage.inString, finishToken, tokenText, hpending]

theorem position_parse_end : r.parse.2.position = r.text.length := by
  obtain ⟨reports, hend, -⟩ := h.exists_run_end hopen
  rw [(h.visits_end hopen).position_parse, hend]

/-- **One report** of a string, with what it keeps of the rest of the text. -/
theorem diagnostics_parse_end : ∃ added, r.parse.2.diagnostics = r.diagnostics ++ added ∧
    (added.filter (·.cause.anomaly = .unterminatedString)).map Diagnostic.report =
      [⟨.unterminatedString,
        "string <" ++ String.ofList (unescaped (r.text.drop s.cursor.position)) ++ "> not closed",
        r.text.length⟩] := by
  obtain ⟨reports, hend, hreports⟩ := h.exists_run_end hopen
  refine ⟨_, (h.visits_end hopen).diagnostics_parse, ?_⟩
  have hbehind : reports.reverse.filter (·.cause.anomaly = .unterminatedString) = [] := by
    rw [List.filter_eq_nil_iff]
    intro d hd
    simpa using hreports d (List.mem_reverse.1 hd)
  have hbefore : s.cursor.found.reverse.filter (·.cause.anomaly = .unterminatedString) = [] := by
    rw [List.filter_eq_nil_iff]
    intro d hd hstring
    have hcut := h.visits.sound.1.found d (List.mem_reverse.1 hd)
    rw [Diagnostic.isTruncation, of_decide_eq_true hstring] at hcut
    exact Bool.noConfusion hcut
  rw [hend]
  simp only [List.reverse_append, List.reverse_cons, List.filter_append, hbehind, hbefore,
    List.append_nil, List.nil_append]
  rfl

/-- **The tree** has nothing of the string, unless truncations show in it. -/
theorem fst_parse_end (hlax : r.config.reportUnterminated = false) :
    r.parse.1 = ({ r with text := r.text.take s.cursor.position } : Reader).parse.1 := by
  let p := s.cursor.position
  have hbefore := h.visits.within (Nat.le_refl p)
  rw [(h.visits_end hopen).fst_parse, hbefore.fst_parse]
  have hdone : r.text.drop r.text.length = [] := List.drop_length
  have hnone : s.cursor.rest.take (p - p) = [] := by rw [Nat.sub_self, List.take_zero]
  rw [Stage.run, Stage.run, Stage.within, hnone, Stage.inString, hdone]
  apply Stage.fst_go_end
  -- the levels differ in what is pending, and end with the same forms
  rw [Stage.fst_finish_lax hlax (by simp), Stage.fst_finish_lax hlax fun _ => h.token]
  rfl

end Open

end OpensString

/-- **Strings.** A call that meets a double quote between two tokens reads a string up to the next
double quote without a backslash in front of it, whatever stands in between: the lists around it
stay as they are, nothing is reported, and behind it the same list goes on with one more atom. If
there is no such double quote, then the whole text is read, one string is reported at its end, and
the tree is the one of the text in front, unless truncations show in it. -/
theorem reads_string {r : Reader} {s : Stage} (h : r.OpensString s) :
    let p := s.cursor.position
    (∀ q, IsLeast {q | EndsString r.text p q} q →
      (∀ k, p < k → k ≤ q → r.Visits (s.inString r.text k)) ∧
        r.Visits (s.afterString r.text q)) ∧
    ((∀ q, ¬EndsString r.text p q) →
      (∀ k, p < k → k ≤ r.text.length → r.Visits (s.inString r.text k)) ∧
      r.parse.2.position = r.text.length ∧
      (∃ added, r.parse.2.diagnostics = r.diagnostics ++ added ∧
        (added.filter (·.cause.anomaly = .unterminatedString)).map Diagnostic.report =
          [⟨.unterminatedString,
            "string <" ++ String.ofList (unescaped (r.text.drop p)) ++ "> not closed",
            r.text.length⟩]) ∧
      (r.config.reportUnterminated = false →
        r.parse.1 = ({ r with text := r.text.take p } : Reader).parse.1)) := by
  intro p
  constructor
  · intro q hq
    have hopen : ∀ j < q, ¬EndsString r.text p j := fun j hj hend => Nat.not_lt.2 (hq.2 hend) hj
    have hlength : q < r.text.length := (List.getElem?_eq_some_iff.1 hq.1.2.1).1
    refine ⟨fun k hk hkq => ?_, h.visits_afterString hq.1 hopen⟩
    exact h.visits_inString hk (by omega) fun j hj => hopen j (by omega)
  · intro hopen
    exact ⟨fun k hk hlength => h.visits_inString hk hlength fun j _ => hopen j,
      h.position_parse_end hopen, h.diagnostics_parse_end hopen, h.fst_parse_end hopen⟩

/-- **Each double quote that a call reads** is met at one stage of it. There it starts a string, or
a string is open that it may end, or it stands in a comment, or right behind the characters of a
token. -/
theorem exists_stage_of_quote (r : Reader) {p : Nat} (hp : r.position ≤ p)
    (hread : p < r.parse.2.position) (hquote : r.text[p]? = some '"') :
    ∃ s, (r.Visits s ∧ s.cursor.position = p) ∧
      (∀ s', r.Visits s' → s'.cursor.position = p → s' = s) ∧
      (r.OpensString s ∨ s.level.mode = .string ∨ s.level.mode = .comment ∨
        s.level.mode = .plain ∧ s.level.token ≠ []) := by
  obtain ⟨s, hs, hposition⟩ := r.exists_visits hp hread
  refine ⟨s, ⟨hs, hposition⟩, fun s' hs' h => hs'.unique hs (h.trans hposition.symm), ?_⟩
  cases hm : s.level.mode with
  | string => exact .inr (.inl rfl)
  | comment => exact .inr (.inr (.inl rfl))
  | plain =>
    by_cases ht : s.level.token = []
    · exact .inl ⟨hs, hm, ht, hposition ▸ hquote⟩
    · exact .inr (.inr (.inr ⟨rfl, ht⟩))

/-- In the list `(a "b\";)(c" d)` a string starts at offset 3, and a double quote with a backslash
in front of it, a semicolon and two parentheses are inside of it. It ends at offset 11 and is
`b";)(c`. In `x "a;b` a string starts at offset 2 and does not end. -/
theorem reads_string_in_list :
    let closed := ofText "(a \"b\\\";)(c\" d)".toList {}
    let cut := ofText "x \"a;b".toList {}
    (∃ s, closed.OpensString s ∧ s.cursor.position = 3 ∧ s.stack.length = 1 ∧
      closed.Visits ⟨{ s.level with forms := ⟨.string "b\";)(c", .absent⟩ :: s.level.forms },
        s.stack, ⟨" d)".toList, 12, []⟩⟩) ∧
      cut.parse.2.position = 6 ∧ cut.parse.1 = (ofText "x ".toList {}).parse.1 := by
  intro closed cut
  constructor
  · let s : Stage :=
      ⟨⟨1, 0, .plain, [], false, [⟨.symbol "a", .absent⟩]⟩, [⟨⟨0, 0, .plain, [], false, []⟩, 0⟩],
        ⟨"\"b\\\";)(c\" d)".toList, 3, []⟩⟩
    have hopens : closed.OpensString s :=
      ⟨.head rfl (.head rfl (.head rfl .refl)), rfl, rfl, rfl⟩
    have hleast : IsLeast {q | EndsString closed.text 3 q} 11 := by
      have hopen : ∀ j < 11, ¬EndsString closed.text 3 j := by decide
      exact ⟨by decide, fun q hq => Nat.le_of_not_lt fun hlt => hopen q hlt hq⟩
    exact ⟨s, hopens, rfl, rfl, ((reads_string hopens).1 11 hleast).2⟩
  · let s : Stage :=
      ⟨⟨0, 0, .plain, [], false, [⟨.symbol "x", .absent⟩]⟩, [], ⟨"\"a;b".toList, 2, []⟩⟩
    have hopens : cut.OpensString s := ⟨.head rfl (.head rfl .refl), rfl, rfl, rfl⟩
    have hopen : ∀ q, ¬EndsString cut.text 2 q := by
      intro q hq
      have hinside : ∀ j < 6, ¬EndsString cut.text 2 j := by decide
      exact hinside q (List.getElem?_eq_some_iff.1 hq.2.1).1 hq
    obtain ⟨-, hposition, -, htree⟩ := (reads_string hopens).2 hopen
    exact ⟨hposition, htree rfl⟩

end Reader

end Sexpr
