import Sexpr.Proofs.Lexeme.Extent
import Sexpr.Proofs.Reader.Limit

/-!
# What the settings leave alone

A limit and the errors for what is cut off change the tree that is read, and a limit adds reports.
Nothing else of a reading depends on the settings (`Reader.parse_settings`): where it ends, whether
it is truncated, and all reports but those of lists that lie too deep.

* `Lexeme.filter_timeline_settings` compares the reports, `Lexeme.position_read_settings` the ends.
* `Lexeme.read_strict` has it that a row of which nothing is cut off reads the same whether
  truncations show in the tree or not.
* `Tree.anyForm_prune` says which questions about a chain a limit does not change.
-/

namespace Sexpr

namespace Lexeme

variable (config config' : ReaderConfig) (last : Nat)

/-! ## The end -/

theorem position_read_settings (xs : List Lexeme) :
    (read config' last [] xs).position = (read config last [] xs).position := by
  apply (kept_position fun position position' => position' = position).read_same
  · exact fun cs _ _ r r' h => by rw [position_breakOff, position_breakOff, h]
  · exact fun _ => rfl
  · exact fun left => by rw [ending_position, ending_position]

/-! ## The reports -/

/-- The reports do not depend on whether truncations show in the tree. -/
theorem timeline_strict (limit : Option Limit) (strict strict' : Bool) (opened : List Nat)
    (xs : List Lexeme) :
    timeline ⟨limit, strict'⟩ last opened xs = timeline ⟨limit, strict⟩ last opened xs := by
  have hreported : reported ⟨limit, strict'⟩ last = reported ⟨limit, strict⟩ last := rfl
  have hcut : cutOff ⟨limit, strict'⟩ last = cutOff ⟨limit, strict⟩ last := by
    funext left
    rw [cutOff_eq_flatMap, cutOff_eq_flatMap]
    rfl
  rw [timeline, timeline, hreported, hcut]

/-- **The reports but those of lists that lie too deep** are the same under all settings. -/
theorem filter_timeline_settings (opened : List Nat) (xs : List Lexeme) :
    (timeline config last opened xs).filter (!ofDepth ·) = timeline {} last opened xs := by
  obtain ⟨limit, strict⟩ := config
  rw [timeline_strict last limit false strict]
  cases limit with
  | some limit => exact filter_timeline_others limit false last opened xs
  | none =>
    -- the reports without a limit are those that any limit leaves
    have hothers := filter_timeline_others ⟨.integer 1, Int.one_pos⟩ false last opened xs
    rw [← hothers, List.filter_filter]
    simp only [Bool.and_self]

/-! ## The tree of what is not cut off -/

/-- The second reading is the first one, unless something of the first one is cut off. -/
def SameUnlessCut (r r' : Reading) : Prop := (∃ d ∈ r.reports, d.isTruncation = true) ∨ r' = r

variable (limit : Option Limit) (strict strict' : Bool)

theorem kept_sameUnlessCut : Kept ⟨limit, strict⟩ ⟨limit, strict'⟩ id SameUnlessCut where
  form _ h := h.imp id fun h => by rw [h]
  droppedQuote _ _ h :=
    h.imp (fun ⟨d, hd, hcut⟩ => ⟨d, List.mem_cons_of_mem _ hd, hcut⟩) fun h => by rw [h, id]
  closing h := h.imp id fun h => by rw [h]
  opening offset _ h := by
    rcases h with ⟨d, hd, hcut⟩ | h
    · simp only [Reading.reports, List.flatMap_cons, List.mem_append] at hd
      refine .inl ⟨d, ?_, hcut⟩
      simp only [Reading.reports, List.flatMap_cons, List.mem_append]
      rcases hd with hd | hd | hd
      · exact .inl (mem_reports_enclose _ (.inl hd))
      · exact .inl (mem_reports_enclose _ (.inr hd))
      · exact .inr hd
    · simp only [Reading.mk.injEq, List.cons.injEq] at h
      obtain ⟨rfl, ⟨rfl, rfl⟩, rfl⟩ := h
      exact .inr rfl

/-- A string that the text ends in is cut off. -/
theorem sameUnlessCut_breakOff (cs : List Char) (r r' : Reading) :
    SameUnlessCut (r.breakOff ⟨limit, strict⟩ last cs) (r'.breakOff ⟨limit, strict'⟩ last cs) := by
  refine .inl ⟨⟨.unterminatedString (String.ofList cs), last⟩, ?_, rfl⟩
  cases strict <;> exact List.mem_cons_self

/-- A list that the text ends in is cut off. -/
theorem sameUnlessCut_ending (left : List Nat) :
    SameUnlessCut (ending ⟨limit, strict⟩ last left) (ending ⟨limit, strict'⟩ last left) := by
  cases left with
  | nil => exact .inr rfl
  | cons openedAt left =>
    exact .inl ⟨⟨.unterminatedList openedAt, last⟩, List.mem_cons_self, rfl⟩

/-- **What is not cut off** reads the same, whether truncations show in the tree or not. -/
theorem read_strict {xs : List Lexeme}
    (h : ∀ d ∈ (read ⟨limit, strict⟩ last [] xs).here.reports, d.isTruncation = false) :
    read ⟨limit, strict'⟩ last [] xs = read ⟨limit, strict⟩ last [] xs := by
  have hsame : SameUnlessCut (read ⟨limit, strict⟩ last [] xs)
      (read ⟨limit, strict'⟩ last [] xs) := by
    apply (kept_sameUnlessCut limit strict strict').read_same
    · exact fun cs _ _ r r' _ => sameUnlessCut_breakOff last limit strict strict' cs r r'
    · exact fun _ => .inr rfl
    · exact sameUnlessCut_ending last limit strict strict'
  rcases hsame with ⟨d, hd, hcut⟩ | hsame
  · rw [Reading.reports, around_read_outermost, List.flatMap_singleton] at hd
    exact absurd hcut (by rw [h d hd]; exact Bool.false_ne_true)
  · exact hsame

end Lexeme

namespace Tree

/-! ## Questions about a chain -/

/-- A chain ends where it is pruned exactly if it ends there. -/
theorem endsHere_prune {a : Atom} (h : a ≠ .nil) (depth : Nat) (t : Tree) :
    (t.prune a depth).endsHere = t.endsHere := by
  cases t with
  | absent => rfl
  | node b child next =>
    by_cases hbranch : b = .branch
    · subst hbranch
      cases depth with
      | zero => simp [prune, endsHere, h]
      | succ depth => rfl
    · rw [prune_node a depth hbranch]
      rfl

/-- What holds of a list holds of it with its inside pruned, and the other way round: the outermost
lists of a chain are never too deep. -/
theorem anyForm_prune (a : Atom) {p : Form → Bool} (depth : Nat)
    (h : ∀ child, p ⟨.branch, child.prune a depth⟩ = p ⟨.branch, child⟩) (t : Tree) :
    (t.prune a (depth + 1)).anyForm p = t.anyForm p := by
  induction t with
  | absent => rfl
  | node b child next ihchild ihnext =>
    by_cases hbranch : b = .branch
    · subst hbranch
      rw [prune, anyForm, anyForm, h, ihnext]
      · exact Atom.noConfusion
      · exact Atom.noConfusion
    · rw [prune_node a _ hbranch]
      by_cases hnil : b = .nil
      · subst hnil
        rfl
      · rw [anyForm, anyForm, ihnext]
        · exact hnil
        · exact hnil

end Tree

namespace Reader

open Lexeme

/-! ## One call -/

/-- Whether truncations show in the tree does not matter to what is reported. -/
theorem diagnostics_strict (text : List Char) (limit : Option Limit) (strict strict' : Bool) :
    (ofText text ⟨limit, strict'⟩).parse.2.diagnostics =
      (ofText text ⟨limit, strict⟩).parse.2.diagnostics := by
  rw [diagnostics_parse, diagnostics_parse, reading_ofText, reading_ofText, reports_read,
    reports_read, timeline_strict _ limit strict strict']
  rfl

/-- Nor does it matter to the tree of a text of which nothing is cut off. -/
theorem fst_parse_strict {text : List Char} {limit : Option Limit} {strict : Bool}
    (h : (ofText text ⟨limit, strict⟩).parse.2.truncated = false) (strict' : Bool) :
    (ofText text ⟨limit, strict'⟩).parse.1 = (ofText text ⟨limit, strict⟩).parse.1 := by
  have hreports : (ofText text ⟨limit, strict⟩).parse.2.diagnostics =
      (ofText text ⟨limit, strict⟩).reading.here.reports := diagnostics_parse _
  rw [truncated, hreports, List.any_eq_false, reading_ofText] at h
  rw [fst_parse, fst_parse, reading_ofText, reading_ofText,
    read_strict text.length limit strict strict' fun d hd => by simpa using h d hd]

/-- The tree under a limit is the pruned one. -/
theorem fst_parse_limited (text : List Char) (limit : Limit) (strict : Bool) :
    (ofText text ⟨some limit, strict⟩).parse.1 =
      (ofText text ⟨none, strict⟩).parse.1.prune (tooDeep limit) limit.depth := by
  rw [fst_parse, fst_parse, reading_ofText, reading_ofText]
  exact (prunes_read limit strict _ _).chain_here (around_read_outermost _ _ _)

/-- A truncation is no report of depth. -/
theorem any_isTruncation_filter (ds : List Diagnostic) :
    (ds.filter (!ofDepth ·)).any Diagnostic.isTruncation = ds.any Diagnostic.isTruncation := by
  rw [List.any_filter]
  congr 1
  funext d
  obtain ⟨cause, position⟩ := d
  cases cause <;> rfl

/-- **The settings leave alone** where a reading ends, whether it is truncated, and what it reports,
apart from the lists that lie too deep. -/
theorem parse_settings (text : List Char) (position : Nat) (config config' : ReaderConfig) :
    let one := ((ofText text config).seek position).parse.2
    let other := ((ofText text config').seek position).parse.2
    other.position = one.position ∧ other.truncated = one.truncated ∧
      other.diagnostics.filter (·.cause.anomaly ≠ .nestingTooDeep) =
        one.diagnostics.filter (·.cause.anomaly ≠ .nestingTooDeep) := by
  intro one other
  let xs := Lexeme.ofText position (text.drop position)
  let last := position + (text.drop position).length
  have hone : one.diagnostics = timeline config last [] xs := by
    rw [← reports_read]
    exact diagnostics_parse _
  have hother : other.diagnostics = timeline config' last [] xs := by
    rw [← reports_read]
    exact diagnostics_parse _
  have hothers : (fun d : Diagnostic => decide (d.cause.anomaly ≠ .nestingTooDeep)) =
      (!ofDepth ·) := by
    funext d
    exact decide_not
  have hfilter : other.diagnostics.filter (!ofDepth ·) = one.diagnostics.filter (!ofDepth ·) := by
    rw [hone, hother, filter_timeline_settings, filter_timeline_settings]
  refine ⟨?_, ?_, ?_⟩
  · rw [position_parse, position_parse]
    exact position_read_settings config config' last xs
  · rw [truncated, truncated, ← any_isTruncation_filter, hfilter, any_isTruncation_filter]
  · rw [hothers, hfilter]

/-- A text is truncated under all settings or under none. -/
theorem truncated_ofText_settings (text : List Char) (config config' : ReaderConfig) :
    (ofText text config').parse.2.truncated = (ofText text config).parse.2.truncated :=
  (parse_settings text 0 config config').2.1

end Reader

end Sexpr
