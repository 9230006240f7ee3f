import Sexpr.Proofs.Lexeme.Extent
import Sexpr.Proofs.Lexeme.Offsets
import Sexpr.Proofs.Reader.Trees

/-!
# Call after call

A reader that goes on reads a slice of its text, and knows of nothing else: what it reads is what a
new reader reads of the slice alone, but for the offsets. Behind the slice the text ends, or the
slice ends with a closing parenthesis without an open list.

* `Reader.Takes` says so of a slice, and `Reader.exists_takes` has one for every call.
* `Reader.Drains` says how many calls it takes to read all that is left. One more call comes in
  front (`Reader.Drains.step`), so every reader has a number of calls (`Reader.exists_drains`).
* `Reader.parse_resumes` puts both together.
-/

namespace Sexpr

namespace Reader

open Lexeme

/-! ## One call -/

/-- What is read of a text that stands at an offset. -/
theorem read_ofText (config : ReaderConfig) (p : Nat) (cs : List Char) :
    Lexeme.read config (p + cs.length) [] (Lexeme.ofText p cs) =
      (ofText cs config).reading.move (· + p) := by
  have hcut : Lexeme.ofText p cs = (Lexeme.ofText 0 cs).map (move (· + p)) :=
    ofText_move fun i _ => by omega
  rw [reading_ofText, hcut, Nat.add_comm]
  exact read_move config p cs.length [] (Lexeme.ofText 0 cs)

/-- A call of the reader takes `slice` of its text and leaves `rest`. -/
structure Takes (r : Reader) (slice rest : List Char) : Prop where
  remaining : r.remaining = slice ++ rest
  reading : r.reading = (ofText slice r.config).reading.move (· + r.position)
  position : r.parse.2.position = r.position + slice.length
  /-- The slice ends with the text, or with a closing parenthesis. -/
  ends : rest = [] ∧ offsetsOf .strayClose r.reading.here.reports = [] ∨
    ∃ body, slice = body ++ [')'] ∧
      offsetsOf .strayClose r.reading.here.reports = [r.position + body.length]

/-- **One call** takes a slice. -/
theorem exists_takes (r : Reader) : ∃ slice rest, r.Takes slice rest := by
  have hextent := extent [] (.plain [] r.position) r.position r.remaining
  have hreading : r.reading = Lexeme.read r.config (r.position + r.remaining.length) []
      (Lexeme.ofText r.position r.remaining) := rfl
  generalize hcs : r.remaining = cs at hextent hreading
  cases hextent with
  | @whole _ left hopen =>
    refine ⟨cs, [], ?_, ?_, ?_, .inl ⟨rfl, ?_⟩⟩
    · rw [hcs, List.append_nil]
    · rw [hreading, read_ofText]
    · have hend := position_read_append r.config (r.position + cs.length) [] hopen
      rw [List.append_nil] at hend
      rw [position_parse, hreading]
      exact hend.trans (ending_position ..)
    · rw [hreading, reports_read]
      exact strayCloses_timeline r.config _ hopen
  | @part body unread xs hopen hstring hrow =>
    have hslice : Lexeme.ofText r.position (body ++ [')']) =
        xs ++ .closing (r.position + body.length) ::
          Lexeme.ofText (r.position + body.length + 1) [] := hrow []
    have hlength : (body ++ [')']).length = body.length + 1 := by simp
    rw [Lexeme.ofText, hrow] at hreading
    refine ⟨body ++ [')'], unread, ?_, ?_, ?_, .inr ⟨body, rfl, ?_⟩⟩
    · rw [hcs, List.append_assoc, List.singleton_append]
    · rw [← read_ofText, hslice, hreading]
      -- behind the parenthesis neither the lexemes nor the end of the text count
      apply read_append_congr hstring
      intro left hleft
      obtain rfl := Option.some.inj (hopen.symm.trans hleft)
      rfl
    · rw [position_parse, hreading, position_read_append _ _ _ hopen, hlength, ← Nat.add_assoc]
      rfl
    · rw [hreading, reports_read]
      exact strayCloses_timeline_closing r.config _ hopen _ _

section Takes

variable {r : Reader} {slice rest : List Char}

theorem Takes.length (h : r.Takes slice rest) (hr : r.position ≤ r.text.length) :
    r.position + slice.length + rest.length = r.text.length := by
  have hlength := congrArg List.length h.remaining
  rw [Reader.remaining, List.length_drop, List.length_append] at hlength
  omega

/-- The slice lies between the two positions. -/
theorem Takes.extract (h : r.Takes slice rest) :
    r.text.extract r.position r.parse.2.position = slice := by
  have htake : r.parse.2.position - r.position = slice.length := by
    rw [h.position]
    omega
  rw [List.extract_eq_take_drop, htake]
  show r.remaining.take slice.length = slice
  rw [h.remaining, List.take_left]

/-- The rest is what the next call starts with. -/
theorem Takes.remaining_parse (h : r.Takes slice rest) : r.parse.2.remaining = rest := by
  rw [Reader.remaining, text_parse, h.position, ← List.drop_drop]
  show r.remaining.drop slice.length = rest
  rw [h.remaining, List.drop_left]

/-- A call that has something to read reads something. -/
theorem Takes.slice_ne_nil (h : r.Takes slice rest) (hr : r.remaining ≠ []) : slice ≠ [] := by
  rcases h.ends with ⟨hrest, -⟩ | ⟨body, hslice, -⟩
  · rw [h.remaining, hrest, List.append_nil] at hr
    exact hr
  · rw [hslice]
    exact List.append_ne_nil_of_right_ne_nil body (List.cons_ne_nil ')' [])

/-- A new reader of the slice alone reads the same. -/
theorem Takes.fst_parse (h : r.Takes slice rest) :
    r.parse.1 = (ofText slice r.config).parse.1 := by
  rw [Reader.fst_parse, Reader.fst_parse, h.reading]
  rfl

theorem Takes.reports (h : r.Takes slice rest) : r.reading.here.reports =
    (ofText slice r.config).parse.2.diagnostics.map (Diagnostic.move (· + r.position)) := by
  rw [h.reading, diagnostics_parse]
  rfl

/-- A slice that does not end with the text ends with a closing parenthesis, which is reported. -/
theorem Takes.position_cases (h : r.Takes slice rest) (hr : r.position ≤ r.text.length) :
    r.parse.2.position = r.text.length ∨ ∃ i, r.parse.2.position = i + 1 ∧
      r.text[i]? = some ')' ∧ ⟨.strayClose, i⟩ ∈ r.reading.here.reports := by
  rcases h.ends with ⟨hrest, -⟩ | ⟨body, hslice, hstrays⟩
  · left
    have hlength := h.length hr
    rw [hrest, List.length_nil] at hlength
    rw [h.position]
    exact hlength
  · right
    have hremaining : r.remaining = body ++ ')' :: rest := by
      rw [h.remaining, hslice, List.append_assoc, List.singleton_append]
    refine ⟨r.position + body.length, ?_, ?_, ?_⟩
    · rw [h.position, hslice, List.length_append, List.length_singleton, Nat.add_assoc]
    · rw [← List.getElem?_drop]
      show r.remaining[body.length]? = some ')'
      rw [hremaining, List.getElem?_append_right (Nat.le_refl _), Nat.sub_self]
      rfl
    · apply mem_of_mem_strayCloses
      rw [hstrays]
      exact List.mem_singleton_self _

end Takes

/-- **With nothing left to read** a call changes nothing. -/
theorem parse_of_remaining_nil {r : Reader} (h : r.remaining = []) : r.parse = (.sentinel, r) := by
  have hreading : r.reading = ⟨.nothing, [], r.position⟩ := by
    rw [reading, h]
    rfl
  refine Prod.ext ?_ ?_
  · rw [fst_parse, hreading]
    rfl
  · rw [Reader.mk.injEq]
    refine ⟨r.text_parse, r.config_parse, ?_, ?_⟩
    · rw [position_parse, hreading]
    · rw [diagnostics_parse, hreading]
      exact List.append_nil _

theorem exhausted_iff (r : Reader) : r.exhausted = true ↔ r.remaining = [] := by
  rw [exhausted, decide_eq_true_eq, remaining, List.drop_eq_nil_iff]

theorem position_lt (r : Reader) (h : r.remaining ≠ []) : r.position < r.text.length := by
  rw [remaining, Ne, List.drop_eq_nil_iff] at h
  omega

/-! ## All calls -/

/-- The reader after some calls. -/
def after (r : Reader) : Nat → Reader
  | 0 => r
  | n + 1 => r.parse.2.after n

/-- The part of the text that the next call reads. -/
def taken (r : Reader) : List Char := r.text.extract r.position r.parse.2.position

/-- It takes just so many calls to read what is left, and they report `ds`: one call for each
closing parenthesis without an open list, and one more if the text goes on behind the last of
these. -/
structure Drains (r : Reader) (calls : Nat) (ds : List Diagnostic) : Prop where
  unfinished : ∀ n < calls, (r.after n).exhausted = false
  finished : (r.after calls).exhausted = true
  slices : (List.range calls).flatMap (fun n => (r.after n).taken) = r.remaining
  diagnostics : (r.after calls).diagnostics = r.diagnostics ++ ds
  count : calls = (offsetsOf .strayClose ds).length +
    if r.remaining = [] ∨ (offsetsOf .strayClose ds).getLast? = some (r.text.length - 1) then 0
    else 1

theorem drains_of_remaining_nil {r : Reader} (h : r.remaining = []) : r.Drains 0 [] where
  unfinished n hn := absurd hn (Nat.not_lt_zero n)
  finished := r.exhausted_iff.2 h
  slices := h.symm
  diagnostics := (List.append_nil _).symm
  count := by rw [if_pos (.inl h)]; rfl

section Drains

variable {r : Reader} {calls : Nat} {ds : List Diagnostic}

/-- Where nothing is left it takes no call. -/
theorem Drains.calls_eq_zero (h : r.Drains calls ds) (hr : r.remaining = []) : calls = 0 := by
  by_contra hcalls
  have hunfinished : r.exhausted = false := h.unfinished 0 (Nat.pos_of_ne_zero hcalls)
  exact Bool.noConfusion (hunfinished.symm.trans (r.exhausted_iff.2 hr))

/-- The text ends with the last closing parenthesis of all calls just if it does so with the last
one of all but the first call, or if the first call is the only one. -/
theorem Drains.ends_iff (h : r.parse.2.Drains calls ds) {slice rest body : List Char}
    (htakes : r.Takes slice rest) (hr : r.position < r.text.length)
    (hslice : slice = body ++ [')']) :
    ((r.position + body.length) :: offsetsOf .strayClose ds).getLast? = some (r.text.length - 1) ↔
      r.parse.2.remaining = [] ∨
        (offsetsOf .strayClose ds).getLast? = some (r.text.length - 1) := by
  cases hstrays : offsetsOf .strayClose ds with
  | nil =>
    have hlength := htakes.length hr.le
    have hbody : slice.length = body.length + 1 := by simp [hslice]
    have hrest : rest = [] ↔ r.position + body.length = r.text.length - 1 := by
      rw [← List.length_eq_zero_iff]
      omega
    rw [htakes.remaining_parse, hrest]
    simp
  | cons o offsets =>
    have hmore : r.parse.2.remaining ≠ [] := by
      intro hnil
      have hcalls := h.count.symm.trans (h.calls_eq_zero hnil)
      rw [hstrays, List.length_cons] at hcalls
      omega
    rw [List.getLast?_cons_cons, or_iff_right hmore]

/-- **One more call** in front of the others. -/
theorem Drains.step (h : r.parse.2.Drains calls ds) (hr : r.remaining ≠ []) :
    r.Drains (calls + 1) (r.reading.here.reports ++ ds) where
  unfinished n hn := by
    cases n with
    | zero =>
      rw [← Bool.not_eq_true]
      exact fun hexhausted => hr (r.exhausted_iff.1 hexhausted)
    | succ n => exact h.unfinished n (Nat.lt_of_succ_lt_succ hn)
  finished := h.finished
  slices := by
    obtain ⟨slice, rest, htakes⟩ := r.exists_takes
    have hslices : (List.range calls).flatMap (fun n => (r.after (n + 1)).taken) = rest :=
      h.slices.trans htakes.remaining_parse
    rw [List.range_succ_eq_map, List.flatMap_cons, List.flatMap_map, htakes.remaining]
    exact congrArg₂ (· ++ ·) htakes.extract hslices
  diagnostics := by
    rw [← List.append_assoc, ← diagnostics_parse]
    exact h.diagnostics
  count := by
    obtain ⟨slice, rest, htakes⟩ := r.exists_takes
    have hcount := h.count
    rw [offsetsOf_append]
    rcases htakes.ends with ⟨hrest, hnone⟩ | ⟨body, hslice, hone⟩
    · -- the text is read to its end, and no call is left
      have hcalls := h.calls_eq_zero (htakes.remaining_parse.trans hrest)
      have hstrays : offsetsOf .strayClose ds = [] := List.length_eq_zero_iff.1 (by omega)
      rw [hcalls, hnone, hstrays, if_neg (by simp [hr])]
      rfl
    · have hends : (r.remaining = [] ∨ ([r.position + body.length] ++
            offsetsOf .strayClose ds).getLast? = some (r.text.length - 1)) ↔
          r.parse.2.remaining = [] ∨
            (offsetsOf .strayClose ds).getLast? = some (r.text.length - 1) :=
        (or_iff_right hr).trans (h.ends_iff htakes (r.position_lt hr) hslice)
      rw [hone, if_congr hends rfl rfl, List.length_append, List.length_singleton]
      rw [text_parse] at hcount
      omega

end Drains

/-- **Calls come to an end**, wherever the reader stands. -/
theorem exists_drains (r : Reader) : ∃ calls ds, r.Drains calls ds := by
  induction hlength : r.remaining.length using Nat.strongRecOn generalizing r with
  | ind n ih =>
    by_cases hr : r.remaining = []
    · exact ⟨0, [], drains_of_remaining_nil hr⟩
    · obtain ⟨slice, rest, htakes⟩ := r.exists_takes
      have hslice := List.length_pos_iff.2 (htakes.slice_ne_nil hr)
      have hshorter : r.parse.2.remaining.length < n := by
        rw [htakes.remaining_parse, ← hlength, htakes.remaining, List.length_append]
        omega
      obtain ⟨calls, ds, h⟩ := ih _ hshorter r.parse.2 rfl
      exact ⟨calls + 1, _, h.step hr⟩

/-- **Reading on.** Wherever in its text a reader stands, and whatever was read before, a call goes
on to the end of the text or past a closing parenthesis, which it reports. It reads what a new
reader reads of this slice alone, with the offsets moved. At the end of the text, or past it, a call
changes nothing. So a new reader reads all of its text in a number of calls, slice by slice: one
for each closing parenthesis without an open list, and one for what is behind the last of these. -/
theorem parse_resumes (text : List Char) (config : ReaderConfig) (earlier : List Diagnostic) :
    (∀ p ≤ text.length,
      let r : Reader := ⟨text, config, p, earlier⟩
      let q := r.parse.2.position
      let alone := (ofText (text.extract p q) config).parse
      let added := alone.2.diagnostics.map (Diagnostic.move (· + p))
      r.parse.1 = alone.1 ∧ r.parse.2.diagnostics = earlier ++ added ∧
        q ≤ text.length ∧ (p < text.length → p < q) ∧
        (q = text.length ∨
          ∃ i, q = i + 1 ∧ text[i]? = some ')' ∧ ⟨.strayClose, i⟩ ∈ added)) ∧
    (∀ p ≥ text.length,
      let r : Reader := ⟨text, config, p, earlier⟩
      r.parse = (.sentinel, r)) ∧
    ∃ calls,
      let readers := (ofText text config).after
      let offsets := offsetsOf .strayClose (readers calls).diagnostics
      (∀ n < calls, (readers n).exhausted = false) ∧ (readers calls).exhausted = true ∧
        (List.range calls).flatMap (fun n => (readers n).taken) = text ∧
        calls = offsets.length +
          if text = [] ∨ offsets.getLast? = some (text.length - 1) then 0 else 1 := by
  refine ⟨?_, ?_, ?_⟩
  · intro p hp r q alone added
    obtain ⟨slice, rest, htakes⟩ := r.exists_takes
    have hlength : p + slice.length + rest.length = text.length := htakes.length hp
    have hslice : text.extract p q = slice := htakes.extract
    have hadded : added = r.reading.here.reports := by
      rw [htakes.reports, ← hslice]
    have hq : q = p + slice.length := htakes.position
    refine ⟨?_, ?_, ?_, ?_, ?_⟩
    · rw [htakes.fst_parse, ← hslice]
    · rw [hadded]
      exact r.diagnostics_parse
    · omega
    · intro hp
      have hunread : r.remaining ≠ [] := by
        rw [remaining, Ne, List.drop_eq_nil_iff]
        exact Nat.not_le_of_lt hp
      have hpos := List.length_pos_iff.2 (htakes.slice_ne_nil hunread)
      omega
    · rw [hadded]
      exact htakes.position_cases hp
  · intro p hp r
    exact parse_of_remaining_nil (List.drop_eq_nil_iff.2 hp)
  · obtain ⟨calls, ds, h⟩ := (ofText text config).exists_drains
    have hds : ((ofText text config).after calls).diagnostics = ds := h.diagnostics
    refine ⟨calls, h.unfinished, h.finished, h.slices, ?_⟩
    rw [hds]
    exact h.count

/-- From inside of a string a call takes what stands there for forms, and stops at the parenthesis
in the string. Past the end of the text a call changes nothing. -/
theorem parse_resumes_inside_string :
    let text := "(a \"b) c\" d)".toList
    let inside : Reader := ⟨text, {}, 4, []⟩
    let past : Reader := ⟨text, {}, 20, []⟩
    4 < text.length ∧ 4 < inside.parse.2.position ∧ inside.parse.2.position = 6 ∧
      inside.parse.1 = (ofText "b)".toList {}).parse.1 ∧
      inside.parse.2.diagnostics = [⟨.strayClose, 5⟩] ∧
      20 ≥ text.length ∧ past.parse = (.sentinel, past) := by
  intro text inside past
  have hlt : 4 < text.length := by decide
  have hge : 20 ≥ text.length := by decide
  have hposition : inside.parse.2.position = 6 := by
    rw [position_parse]
    decide
  have hslice : text.extract 4 inside.parse.2.position = "b)".toList := by
    rw [hposition]
    decide
  have halone : (ofText "b)".toList {}).parse.2.diagnostics = [⟨.strayClose, 1⟩] := by
    rw [diagnostics_parse]
    decide
  obtain ⟨htree, hdiagnostics, -, hprogress, -⟩ := (parse_resumes text {} []).1 4 hlt.le
  refine ⟨hlt, hprogress hlt, hposition, ?_, ?_, hge, (parse_resumes text {} []).2.1 20 hge⟩
  · rw [← hslice]
    exact htree
  · rw [hslice, halone] at hdiagnostics
    exact hdiagnostics

end Reader

end Sexpr
