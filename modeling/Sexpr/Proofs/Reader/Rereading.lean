import Sexpr.Proofs.Lexeme.DoubleQuotes
import Sexpr.Proofs.Reader.RoundTrip

/-!
# Reading other texts of a tree again

The styles that show floats by their six decimal places are not made to be read again. Where reading
such a text gives an equivalent tree nevertheless is what `Reader.reread_render_fixed` tells: the
tree has no errors, the places of each float spell an equal float, and strings are not written
without their quotes.

That a tree is lost with its errors and its floats is a matter of what its atoms are read as one by
one. Strings without their quotes are not, for they can shift everything behind them; here the
double quotes are counted (`Tree.kind_ne_string_of_alike`). The text lacks two of them for each
string of the tree, and what is read of it cannot hold more than the text.
-/

namespace Sexpr

namespace Tree

variable {l r t : Tree} {cs : List Char}

/-- Equivalent trees hold the same number of double quotes. -/
theorem doubleQuotes_eq_of_alike (h : l.alike Atom.same r = true) :
    l.doubleQuotes = r.doubleQuotes := by
  induction l generalizing r with
  | absent => rw [eq_absent_of_alike h]
  | node a child next ihchild ihnext =>
    obtain ⟨b, child', next', rfl, hatom, hchild, hnext⟩ := exists_of_alike_node h
    rw [doubleQuotes_node, doubleQuotes_node, Atom.doubleQuotes_eq_of_same hatom,
      ihchild hchild, ihnext hnext]

/-- The text of a tree without the quotes of its strings lacks two double quotes for each of
these. -/
theorem doubleQuotes_laidOut (h : t.LaidOut .plain cs) :
    t.doubleQuotes = cs.count '"' + 2 * t.preorder.countP fun a => a.kind = .string := by
  induction h with
  | done => simp [sentinel, Atom.kind]
  | space _ ih => simpa using ih
  | list _ _ ihchild ihnext =>
    simp only [doubleQuotes_node, Atom.doubleQuotes_branch, ihchild, ihnext, preorder_node,
      List.countP_cons, List.countP_append, List.count_cons, List.count_append]
    simp [Atom.kind]
    omega
  | @form a next cs hnil hbranch _ _ ih =>
    simp only [doubleQuotes_node, ih, doubleQuotes_absent, Atom.doubleQuotes, preorder_node,
      preorder_absent, List.nil_append, List.countP_cons, List.count_append, decide_eq_true_eq]
    split <;> omega

/-- **A text without the quotes of some string** is not read as an equivalent tree. -/
theorem kind_ne_string_of_alike (h : t.LaidOut .plain cs)
    (hread : (Lexeme.read {} cs.length [] (Lexeme.ofText 0 cs)).here.chain.alike Atom.same t =
      true) :
    ∀ a ∈ t.preorder, a.kind ≠ .string := by
  have hstart : Lexeme.State.Proper (.plain [] 0) := Or.inl rfl
  have hproper : ∀ x ∈ Lexeme.ofText 0 cs, x.Proper := Lexeme.proper_of_mem_cut hstart 0 cs
  have hlexemes := Lexeme.doubleQuotes_read_le cs.length hproper []
  have htext := Lexeme.doubleQuotes_cut_le (.plain [] 0) 0 cs
  have htree := doubleQuotes_eq_of_alike hread
  have hlacks := doubleQuotes_laidOut h
  have hnone : t.preorder.countP (fun a => a.kind = .string) = 0 := by
    -- the tree holds no more than its text, so the text lacks none
    simp only [Lexeme.Reading.doubleQuotes, List.map_cons, List.sum_cons] at hlexemes
    simp only [Lexeme.State.doubleQuotes] at htext
    rw [Lexeme.ofText] at hlexemes htree
    omega
  simpa [List.countP_eq_zero] using hnone

end Tree

namespace Atom

theorem same_float_iff (a : Atom) (x : Binary64) :
    a.same (.float x) = true ↔ ∃ y, a = .float y ∧ y.same x = true := by
  cases a <;> simp [same]

/-- What a legible atom is read as is the same atom, unless it is a float whose six decimal places
spell another number or none. -/
theorem same_reread_iff {style : Style} (hstyle : style ≠ .source) {a : Atom} (ha : a.Legible) :
    (a.reread style).same a = true ↔
      ∀ x, a = .float x → ∃ y, ofToken x.fixed.toList = .float y ∧ y.same x = true := by
  by_cases hfloat : ∃ x, a = .float x
  · obtain ⟨x, rfl⟩ := hfloat
    rw [reread, if_neg hstyle, same_float_iff]
    simp
  · have hreread : a.reread style = a := by
      cases a with
      | float x => exact absurd ⟨x, rfl⟩ hfloat
      | _ => rfl
    rw [hreread]
    exact iff_of_true ha.same_self fun x hx => absurd ⟨x, hx⟩ hfloat

end Atom

namespace Reader

variable {style : Style} {t : Tree}

/-- A tree of readable atoms against what is read of its text. -/
theorem alike_reading_render_iff (hstyle : style = .ascii ∨ style = .plain)
    (h : t.MadeOf (Atom.Readable style)) :
    (ofText (t.render style).toList {}).reading.here.chain.alike Atom.same t = true ↔
      ∀ x, .float x ∈ t.preorder → ∃ y,
        Atom.ofToken x.fixed.toList = .float y ∧ y.same x = true := by
  have hunmarked : style ≠ .unicode := by rcases hstyle with rfl | rfl <;> decide
  have hrounded : style ≠ .source := by rcases hstyle with rfl | rfl <;> decide
  rw [reading_render_readable h hunmarked, Tree.alike_mapAtoms_iff]
  constructor
  · intro hsame x hx
    rcases h.forall_mem _ hx with hnil | hbranch | hreadable
    · exact Atom.noConfusion hnil
    · exact Atom.noConfusion hbranch
    · exact (Atom.same_reread_iff hrounded hreadable.legible).1 (hsame _ hx) x rfl
  · intro hfloats a ha
    rcases h.forall_mem a ha with rfl | rfl | hreadable
    · rfl
    · rfl
    · refine (Atom.same_reread_iff hrounded hreadable.legible).2 ?_
      rintro x rfl
      exact hfloats x ha

/-- The same for a tree that may hold errors: then it is not read back. -/
theorem equivalent_reread_iff (hstyle : style = .ascii ∨ style = .plain)
    (h : t.MadeOf fun a => a.Readable style ∨ a.kind = .error) :
    (ofText (t.render style).toList {}).parse.1.equivalent t = true ↔
      (∀ a ∈ t.preorder, a.kind ≠ .error) ∧
        ∀ x, .float x ∈ t.preorder → ∃ y,
          Atom.ofToken x.fixed.toList = .float y ∧ y.same x = true := by
  have hunmarked : style ≠ .unicode := by rcases hstyle with rfl | rfl <;> decide
  by_cases hno : ∀ a ∈ t.preorder, a.kind ≠ .error
  · rw [Tree.equivalent_eq_alike, fst_parse,
      alike_reading_render_iff hstyle (Lexeme.readable_of_no_error h hno)]
    exact (and_iff_right hno).symm
  · have herror : ∃ a ∈ t.preorder, a.kind = .error := by simpa using hno
    have hdiffers := not_same_reading_render hunmarked h herror
    rw [Tree.equivalent_eq_same, fst_parse, hdiffers]
    exact iff_of_false Bool.false_ne_true fun hkept => hno hkept.1

/-- Strings are lost in the plain text. -/
theorem kind_ne_string_of_equivalent {p : Atom → Prop} (h : t.MadeOf p)
    (hequivalent : (ofText (t.render .plain).toList {}).parse.1.equivalent t = true) :
    ∀ a ∈ t.preorder, a.kind ≠ .string := by
  rw [Tree.equivalent_eq_alike, fst_parse, reading_ofText] at hequivalent
  exact Tree.kind_ne_string_of_alike (laidOut_render h (by decide)) hequivalent

/-- **Reading the texts with six decimal places again.** Whatever text a tree was read from, from
whatever position and with whatever settings: reading its decorated text gives an equivalent tree
exactly if the tree holds no error and the six decimal places of each of its floats spell an equal
float. For its plain text it must not hold a string, either. -/
theorem reread_render_fixed (r : Reader) :
    let t := r.parse.1
    let again style := (ofText (t.render style).toList {}).parse.1
    let kept := (∀ a ∈ t.preorder, a.kind ≠ .error) ∧
      ∀ x, .float x ∈ t.preorder → ∃ y,
        Atom.ofToken x.fixed.toList = .float y ∧ y.same x = true
    ((again .ascii).equivalent t = true ↔ kept) ∧
      ((again .plain).equivalent t = true ↔ kept ∧ ∀ a ∈ t.preorder, a.kind ≠ .string) := by
  intro t again kept
  have hmade : t.MadeOf Atom.FromText := r.madeOf_parse
  have hascii : t.MadeOf fun a => a.Readable .ascii ∨ a.kind = .error :=
    hmade.sharpen fun a _ ha => ha.imp_left fun hlegible =>
      ⟨hlegible, by decide, fun hplain => absurd hplain (by decide)⟩
  have hplain : (∀ a ∈ t.preorder, a.kind ≠ .string) →
      t.MadeOf fun a => a.Readable .plain ∨ a.kind = .error := fun hno =>
    hmade.sharpen fun a ha hfrom => hfrom.imp_left fun hlegible =>
      ⟨hlegible, by decide, fun _ => hno a ha⟩
  refine ⟨equivalent_reread_iff (.inl rfl) hascii, ?_, ?_⟩
  · intro hequivalent
    have hno := kind_ne_string_of_equivalent hmade hequivalent
    exact ⟨(equivalent_reread_iff (.inr rfl) (hplain hno)).1 hequivalent, hno⟩
  · rintro ⟨hkept, hno⟩
    exact (equivalent_reread_iff (.inr rfl) (hplain hno)).2 hkept

end Reader

end Sexpr
