import Sexpr.Proofs.Session.Groups

/-!
# The form that ends a session

A session ends at a group of lines with the list `(quit)` among its forms, and shows the whole tree
of any other group (`Session.readForm_quits`). The mark of a quotation is a form of its own, so a
list behind it counts as well: the quotation of `(quit)` ends a session, too
(`Session.readForm_quoted_quit`).

* `Session.QuitList` is the form `(quit)` by its parts, and `isQuit_iff` says that the session tells
  it from all other forms.
* `Session.HasQuit` has it among the forms of a tree, and `Session.HasUnquotedQuit` has it there
  without the mark of a quotation in front.
-/

namespace Sexpr

namespace Tree

variable {t : Tree}

theorem anyForm_eq_any (p : Form → Bool) (t : Tree) : t.anyForm p = t.forms.any p := by
  induction t with
  | absent => rfl
  | node a child next _ ihnext =>
    by_cases hnil : a = .nil
    · subst hnil
      rfl
    · rw [forms_node hnil, anyForm, ihnext, List.any_cons]
      exact hnil

/-- A list of a tree of the reader owns such a tree. -/
theorem WellFormed.child (h : t.WellFormed) {f : Form} (hf : f ∈ t.forms)
    (hbranch : f.atom = .branch) : f.child.WellFormed := by
  induction h with
  | sentinel => exact absurd hf List.not_mem_nil
  | branch hchild _ _ ihnext =>
    rw [forms_node Atom.noConfusion, List.mem_cons] at hf
    rcases hf with rfl | hf
    · exact hchild
    · exact ihnext hf
  | leaf hnil hleaf _ ihnext =>
    rw [forms_node hnil, List.mem_cons] at hf
    rcases hf with rfl | hf
    · exact absurd hbranch hleaf
    · exact ihnext hf

/-- Only the end of a chain has no forms. -/
theorem WellFormed.forms_eq_nil (h : t.WellFormed) : t.forms = [] ↔ t.endsHere = true := by
  cases h with
  | sentinel => exact ⟨fun _ => rfl, fun _ => rfl⟩
  | branch => simp [forms, endsHere]
  | leaf hnil => simp [forms_node hnil, endsHere, hnil]

end Tree

namespace Session

/-! ## The form `(quit)` -/

/-- A form is the list of the symbol `quit` and nothing else. -/
def QuitList (f : Form) : Prop :=
  f.atom = .branch ∧ f.child.forms = [⟨.symbol quitName, .absent⟩]

/-- One of the forms of a tree is `(quit)`. -/
def HasQuit (t : Tree) : Prop := ∃ f ∈ t.forms, QuitList f

/-- One of the forms of a tree is `(quit)`, and the form in front of it, if there is one, is no mark
of a quotation. -/
def HasUnquotedQuit (t : Tree) : Prop :=
  ∃ front f back, t.forms = front ++ f :: back ∧ QuitList f ∧
    front.getLast?.map Form.atom ≠ some .quote

theorem HasUnquotedQuit.hasQuit {t : Tree} (h : HasUnquotedQuit t) : HasQuit t := by
  obtain ⟨front, f, back, hforms, hquit, -⟩ := h
  refine ⟨f, ?_, hquit⟩
  rw [hforms]
  exact List.mem_append_right front List.mem_cons_self

/-- The session tells `(quit)` from the other forms of a tree. -/
theorem isQuit_iff {t : Tree} (h : t.WellFormed) {f : Form} (hf : f ∈ t.forms) :
    isQuit f = true ↔ QuitList f := by
  have hchild := h.child hf
  obtain ⟨atom, child⟩ := f
  by_cases hbranch : atom = .branch
  · subst hbranch
    have hinside := hchild rfl
    simp only [QuitList, true_and]
    cases hinside with
    | sentinel => simp [isQuit, Tree.forms]
    | branch => simp [isQuit, Tree.forms]
    | @leaf a next hnil _ hnext =>
      rw [Tree.forms_node hnil, List.cons.injEq, hnext.forms_eq_nil]
      cases a <;> simp [isQuit]
  · have hother : isQuit ⟨atom, child⟩ = false := by
      cases atom with
      | branch => exact absurd rfl hbranch
      | _ => rfl
    simp [QuitList, hother, hbranch]

variable {config : ReaderConfig}

theorem quits_iff (lines : List String) :
    quits config lines = true ↔ HasQuit (treeOf config lines) := by
  have hshape : (treeOf config lines).WellFormed := (Reader.madeOf_parse _).wellFormed
  rw [quits, Tree.anyForm_eq_any, List.any_eq_true]
  constructor
  · rintro ⟨f, hf, hquit⟩
    exact ⟨f, hf, (isQuit_iff hshape hf).1 hquit⟩
  · rintro ⟨f, hf, hquit⟩
    exact ⟨f, hf, (isQuit_iff hshape hf).2 hquit⟩

/-! ## One turn -/

/-- **The end of a session.** A turn comes to the end of the input, or it takes a group of lines. It
ends the session exactly if `(quit)` is one of the forms of the group. So it does so exactly for
`(quit)` without the mark of a quotation in front, as long as not all of the group have one. The
tree of any other group is given as a whole, and it is shown before the session goes on with the
lines behind the group. -/
theorem readForm_quits (config : SessionConfig) (input : List String) :
    let turn := readForm config [] input
    (Unfinished config.reader input ∧ turn.result = none) ∨
      ∃ g rest, input = g ++ rest ∧ IsGroup config.reader g ∧ turn.rest = rest ∧
        let t := treeOf config.reader g
        (turn.result = none ↔ HasQuit t) ∧
        ((HasQuit t → HasUnquotedQuit t) → (turn.result = none ↔ HasUnquotedQuit t)) ∧
        (¬HasQuit t → turn.result = some t ∧
          Action.texts (run config input) =
            answer config t :: Action.texts (run config rest)) := by
  intro turn
  rcases readForm_cases config unfinished_nil input with ⟨g, rest, -, hinput, htaken⟩ | hout
  · obtain ⟨hgroup, hrest, hresult, htexts, -⟩ := htaken
    rw [List.nil_append] at hgroup hresult
    let t := treeOf config.reader g
    have hquits : quits config.reader g = true ↔ HasQuit t := quits_iff g
    have hnone : turn.result = none ↔ HasQuit t := by
      rw [← hquits]
      constructor
      · intro h
        by_contra hquit
        rw [if_neg hquit] at hresult
        exact absurd (hresult.symm.trans h) (Option.some_ne_none _)
      · exact fun hquit => hresult.trans (if_pos hquit)
    refine .inr ⟨g, rest, hinput, hgroup, hrest, hnone, ?_, ?_⟩
    · intro hsome
      exact hnone.trans ⟨hsome, HasUnquotedQuit.hasQuit⟩
    · intro hquit
      have hsome : turn.result = some t := by
        rw [← hquits] at hquit
        exact hresult.trans (if_neg hquit)
      refine ⟨hsome, ?_⟩
      rw [run_some config hsome, texts_append, htexts, texts_write, hrest]
      rfl
  · obtain ⟨hunfinished, hresult, -, -⟩ := hout
    exact .inl ⟨hunfinished, hresult⟩

/-- The quotation of `(quit)` ends a session: nothing of its line is shown, and no further line is
taken. -/
theorem readForm_quoted_quit :
    let config : SessionConfig := ⟨{}, .plain, "> ", "= "⟩
    let g := ["'(quit)"]
    let turn := readForm config [] (g ++ ["x"])
    IsGroup config.reader g ∧ turn.result = none ∧ turn.rest = ["x"] ∧
      ¬HasUnquotedQuit (treeOf config.reader g) ∧
      Action.texts (run config (g ++ ["x"])) = [] := by
  intro config g turn
  have hforms : (treeOf config.reader g).forms =
      [⟨.quote, .absent⟩, ⟨.branch, .node (.symbol "quit") .absent .sentinel⟩] := by
    rw [treeOf_eq]
    decide
  have hquits : quits config.reader g = true := by
    rw [quits, treeOf_eq]
    decide
  have hcomplete : Complete config.reader g := by
    rw [Complete, parseLines, Reader.truncated, Reader.diagnostics_parse_ofText,
      Reader.reading_ofText]
    decide
  have hgroup : IsGroup config.reader g := unfinished_nil.isGroup hcomplete
  have hverdict : (consider config.reader g).1 = .quit := by
    rw [verdict_consider, if_neg (by rw [hcomplete]; exact Bool.false_ne_true), if_pos hquits]
  have hturn : turn = ⟨none, ["x"],
      .prompt config.prompt :: (consider config.reader g).2.map .log⟩ := by
    show readForm config [] ("'(quit)" :: ["x"]) = _
    rw [readForm]
    simp only [List.nil_append]
    rw [hverdict]
  have hresult : turn.result = none := by rw [hturn]
  refine ⟨hgroup, hresult, by rw [hturn], ?_, ?_⟩
  · -- the list is the second form, and the first one is the mark
    rintro ⟨front, f, back, hsplit, hquit, hmark⟩
    rw [hforms] at hsplit
    rcases front with _ | ⟨a, _ | ⟨b, front⟩⟩
    · obtain ⟨rfl, -⟩ := List.cons.inj hsplit
      exact absurd hquit.1 Atom.noConfusion
    · obtain ⟨rfl, -⟩ := List.cons.inj hsplit
      exact hmark rfl
    · exact absurd (congrArg List.length hsplit) (by simp)
  · rw [run_none config hresult]
    show Action.texts turn.actions = []
    rw [hturn]
    simp [Action.texts, List.filterMap_map]

end Session

end Sexpr
