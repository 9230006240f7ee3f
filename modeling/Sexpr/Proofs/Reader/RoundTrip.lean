import Sexpr.Proofs.Reader.Trees
import Sexpr.Proofs.Tree.Layout

/-!
# Writing a tree and reading it again

A tree whose atoms are all readable in a style is read atom by atom from its text in that style:
`read_laidOut` says so for a text that goes on behind it, by induction on the layout of the tree. A
tree with an error is not read back, for everything in front of its first error is read, and the
error itself is read as a symbol (`not_same_read_laidOut`).

Since the trees of the reader hold legible atoms and errors, reading the source text of such a tree
gives an equivalent one exactly if it holds no error (`Reader.reread_render_source`).
-/

namespace Sexpr

namespace Lexeme

open Atom

variable (last : Nat)

/-- The forms of a tree in front of a stretch. -/
def follow (t : Tree) (s : Stretch) : Stretch := { s with chain := t.before s.chain }

theorem follow_node {a : Atom} (h : a ≠ .nil) (child next : Tree) (s : Stretch) :
    follow (.node a child next) s = (follow next s).precede ⟨a, child⟩ := by
  rw [follow, Tree.before_node h]
  rfl

/-! ## Without errors -/

/-- A list whose inside is read as a chain is read as the list of that chain. -/
theorem read_list {xs ys : List Lexeme} {opened : List Nat} {offset offset' : Nat} {child : Tree}
    (h : read {} last (offset :: opened) xs =
      (read {} last (offset :: opened) (.closing offset' :: ys)).mapHere (follow child))
    (hchild : child.WellFormed) :
    read {} last opened (.opening offset :: xs) =
      (read {} last opened ys).mapHere (Stretch.precede ⟨.branch, child⟩) := by
  have hinner : follow child .nothing = ⟨child, []⟩ := by
    rw [follow, Stretch.nothing, Tree.before_sentinel hchild]
  rw [read, h, read, Reading.mapHere]
  simp only [hinner]
  rfl

/-- The inside of a list, and what is behind it, in front of a rest. -/
theorem list_append (inner outer rest : List Char) :
    '(' :: (inner ++ ')' :: outer) ++ rest = '(' :: (inner ++ ')' :: (outer ++ rest)) := by
  simp

theorem bounded_behind {a : Atom} {cs rest : List Char} (h : a = .quote ∨ Bounded cs)
    (hrest : Bounded rest) : a = .quote ∨ Bounded (cs ++ rest) := by
  refine h.imp_right fun hcs => ?_
  cases cs with
  | nil => exact hrest
  | cons c cs => exact bounded_cons (hcs c rfl) _

variable {style : Style} {t : Tree} {cs : List Char}

theorem wellFormed_reread (h : t.MadeOf (Readable style)) :
    (t.mapAtoms (reread style)).WellFormed :=
  h.wellFormed_mapAtoms rfl rfl (reread_form style)

/-- **A tree of readable atoms is read** atom by atom from its text, in front of anything that ends
a token. -/
theorem read_laidOut (h : t.LaidOut style cs) (ht : t.MadeOf (Readable style))
    {rest : List Char} (hrest : Bounded rest) (opened : List Nat) (offset : Nat) :
    read {} last opened (ofText offset (cs ++ rest)) =
      (read {} last opened (ofText (offset + cs.length) rest)).mapHere
        (follow (t.mapAtoms (reread style))) := by
  induction h generalizing rest opened offset with
  | done => rfl
  | @space t cs _ ih =>
    have hlength : offset + (' ' :: cs).length = offset + 1 + cs.length := by
      rw [List.length_cons]; omega
    rw [List.cons_append, ofText_space (c := ' ') _ _ rfl, ih ht hrest, hlength]
  | @list child next inner outer _ _ ihchild ihnext =>
    obtain ⟨hchild, hnext⟩ := ht.of_branch
    have hlength : offset + ('(' :: (inner ++ ')' :: outer)).length =
        offset + 1 + inner.length + 1 + outer.length := by
      simp only [List.length_cons, List.length_append]; omega
    have hinner := ihchild hchild (bounded_cons (c := ')') (by decide) (outer ++ rest))
      (offset :: opened) (offset + 1)
    rw [ofText_closing] at hinner
    rw [list_append, ofText_opening, read_list last hinner (wellFormed_reread hchild),
      ihnext hnext hrest, hlength]
    rfl
  | @form a next cs hnil hbranch hbehind _ ih =>
    obtain ⟨ha, hnext⟩ := ht.of_leaf hnil hbranch
    have hlength : offset + ((a.text style).toList ++ cs).length =
        offset + (a.text style).length + cs.length := by
      rw [List.length_append, String.length_toList]; omega
    rw [List.append_assoc, read_text {} _ _ _ ha (bounded_behind hbehind hrest), ih hnext hrest,
      hlength]
    have hform := reread_form style a hnil hbranch
    simp only [Reading.mapHere, Tree.mapAtoms_node, follow_node hform.1]
    rfl

/-! ## With an error -/

/-- A list is read as a list of what its inside is read as. -/
theorem exists_read_list (opened : List Nat) (offset : Nat) (xs : List Lexeme) :
    ∃ next, (read {} last opened (.opening offset :: xs)).here.chain =
      .node .branch (read {} last (offset :: opened) xs).here.chain next := by
  obtain ⟨here, outer, around, position, hlist, hopening⟩ :=
    exists_read_opening {} last opened offset xs
  rw [hlist, hopening]
  exact ⟨outer.chain, rfl⟩

theorem readable_of_no_error (h : t.MadeOf fun a => a.Readable style ∨ a.kind = .error)
    (hno : ∀ a ∈ t.preorder, a.kind ≠ .error) : t.MadeOf (Readable style) :=
  h.sharpen fun a ha hreadable => hreadable.resolve_right (hno a ha)

/-- An error that is neither the first node nor inside of it is behind it. -/
theorem error_behind {a : Atom} {child next : Tree}
    (h : ∃ b ∈ (Tree.node a child next).preorder, b.kind = .error) (ha : a.kind ≠ .error)
    (hchild : ¬∃ b ∈ child.preorder, b.kind = .error) : ∃ b ∈ next.preorder, b.kind = .error := by
  obtain ⟨b, hb, hkind⟩ := h
  rw [Tree.preorder_node, List.mem_cons, List.mem_append] at hb
  rcases hb with rfl | hb | hb
  · exact absurd hkind ha
  · exact absurd ⟨b, hb, hkind⟩ hchild
  · exact ⟨b, hb, hkind⟩

/-- **A tree with an error is not read back**: everything in front of the first error is read, and
the error itself is read as a symbol. -/
theorem not_same_read_laidOut (h : t.LaidOut style cs)
    (ht : t.MadeOf fun a => a.Readable style ∨ a.kind = .error)
    (herror : ∃ a ∈ t.preorder, a.kind = .error) {rest : List Char} (hrest : Bounded rest)
    (opened : List Nat) (offset : Nat) :
    (read {} last opened (ofText offset (cs ++ rest))).here.chain.same t = false := by
  induction h generalizing rest opened offset with
  | done => simp [Tree.sentinel, kind] at herror
  | @space t cs _ ih =>
    rw [List.cons_append, ofText_space (c := ' ') _ _ rfl]
    exact ih ht herror hrest opened (offset + 1)
  | @list child next inner outer hinside _ ihchild ihnext =>
    obtain ⟨hchild, hnext⟩ := ht.of_branch
    have hclosing : Bounded (')' :: (outer ++ rest)) := bounded_cons (by decide) _
    rw [list_append, ofText_opening]
    -- the first error is inside of the list, or the list is read and the error is behind it
    by_cases hin : ∃ a ∈ child.preorder, a.kind = .error
    · obtain ⟨behind, hread⟩ := exists_read_list last opened offset
        (ofText (offset + 1) (inner ++ ')' :: (outer ++ rest)))
      rw [hread, Tree.same_node, ihchild hchild hin hclosing]
      simp
    · have hreadable : child.MadeOf (Readable style) :=
        readable_of_no_error hchild fun a ha hkind => hin ⟨a, ha, hkind⟩
      have hbehind := error_behind herror Kind.noConfusion hin
      have hinner := read_laidOut last hinside hreadable hclosing (offset :: opened) (offset + 1)
      rw [ofText_closing] at hinner
      rw [read_list last hinner (wellFormed_reread hreadable)]
      simp only [Reading.mapHere, Stretch.precede, Tree.same_node, ihnext hnext hbehind hrest,
        Bool.and_false]
  | @form a next cs hnil hbranch hend _ ih =>
    obtain ⟨ha, hnext⟩ := ht.of_leaf hnil hbranch
    rw [List.append_assoc]
    rcases ha with hreadable | hkind
    · have hbehind := error_behind herror hreadable.legible.kind_ne_error (by simp)
      rw [read_text {} _ _ _ hreadable (bounded_behind hend hrest)]
      simp only [Reading.mapHere, Stretch.precede, Tree.same_node, ih hnext hbehind hrest,
        Bool.and_false]
    · cases a with
      | error message =>
        obtain ⟨reading, hread⟩ := read_error {} last opened offset style message (cs ++ rest)
        rw [hread]
        rfl
      | _ => exact absurd hkind Kind.noConfusion

theorem legible_of_no_error (h : t.MadeOf FromText)
    (hno : ∀ a ∈ t.preorder, a.kind ≠ .error) : t.MadeOf Legible :=
  h.sharpen fun a ha hfrom => hfrom.resolve_right (hno a ha)

/-- A tree from a text is the same as itself. -/
theorem same_self_of_text (h : t.MadeOf FromText) : t.same t = true := by
  induction h with
  | sentinel => rfl
  | branch _ _ hchild hnext => simp [hchild, hnext, Atom.same]
  | leaf _ _ ha _ hnext => simp [ha.same_self, hnext]

theorem same_self (h : t.MadeOf Legible) : t.same t = true :=
  same_self_of_text (h.sharpen fun _ _ ha => .inl ha)

end Lexeme

namespace Reader

variable {style : Style} {t : Tree} {p : Atom → Prop}

/-- The text of a tree in a style without marks. -/
theorem laidOut_render (h : t.MadeOf p) (hstyle : style ≠ .unicode) :
    t.LaidOut style (t.render style).toList := by
  rw [Tree.render_eq_written]
  cases style with
  | plain => exact Tree.laidOut_writtenForms h (.inl rfl)
  | source => exact Tree.laidOut_writtenForms h (.inl rfl)
  | ascii => exact Tree.laidOut_writtenNodes h
  | unicode => exact absurd rfl hstyle

/-- What the text of a tree reads as. -/
theorem reading_render (style : Style) (t : Tree) :
    (ofText (t.render style).toList {}).reading =
      Lexeme.read {} (t.render style).length []
        (Lexeme.ofText 0 ((t.render style).toList ++ [])) := by
  rw [List.append_nil, reading_ofText, String.length_toList]

theorem reading_render_readable (h : t.MadeOf (Atom.Readable style)) (hstyle : style ≠ .unicode) :
    (ofText (t.render style).toList {}).reading =
      ⟨⟨t.mapAtoms (Atom.reread style), []⟩, [], (t.render style).length⟩ := by
  have hend : Lexeme.follow (t.mapAtoms (Atom.reread style)) .nothing =
      ⟨t.mapAtoms (Atom.reread style), []⟩ := by
    rw [Lexeme.follow, Stretch.nothing, Tree.before_sentinel (Lexeme.wellFormed_reread h)]
  rw [reading_render,
    Lexeme.read_laidOut _ (laidOut_render h hstyle) h Lexeme.bounded_nil, ← hend]
  rfl

theorem not_same_reading_render (hstyle : style ≠ .unicode)
    (h : t.MadeOf fun a => a.Readable style ∨ a.kind = .error)
    (herror : ∃ a ∈ t.preorder, a.kind = .error) :
    (ofText (t.render style).toList {}).reading.here.chain.same t = false := by
  rw [reading_render]
  exact Lexeme.not_same_read_laidOut _ (laidOut_render h hstyle) h herror Lexeme.bounded_nil [] 0

theorem reading_render_source_legible (h : t.MadeOf Atom.Legible) :
    (ofText (t.render .source).toList {}).reading =
      ⟨⟨t, []⟩, [], (t.render .source).length⟩ := by
  have hreadable : t.MadeOf (Atom.Readable .source) := h.sharpen fun _ _ ha => ha.readable
  rw [reading_render_readable hreadable (by decide), Atom.reread_source, Tree.mapAtoms_id]

theorem not_same_reading_render_source (h : t.MadeOf Atom.FromText)
    (herror : ∃ a ∈ t.preorder, a.kind = .error) :
    (ofText (t.render .source).toList {}).reading.here.chain.same t = false :=
  not_same_reading_render (by decide)
    (h.sharpen fun _ _ ha => ha.imp_left Atom.Legible.readable) herror

/-- **The round trip.** Whatever text a tree was read from, from whatever position and with whatever
settings: reading its source text gives an equivalent tree exactly if the tree holds no error. It
then gives the very same tree, bit for bit, consumes the whole text and finds nothing wrong. -/
theorem reread_render_source (r : Reader) :
    let t := r.parse.1
    let again := (ofText (t.render .source).toList {}).parse
    (again.1.equivalent t = true ↔ ∀ a ∈ t.preorder, a.kind ≠ .error) ∧
      ((∀ a ∈ t.preorder, a.kind ≠ .error) →
        again.1 = t ∧ again.2.position = (t.render .source).length ∧
          again.2.diagnostics = []) := by
  intro t again
  have hmade : t.MadeOf Atom.FromText := r.madeOf_parse
  refine ⟨⟨?_, ?_⟩, ?_⟩
  · intro hequivalent a ha hkind
    have hdiffers := not_same_reading_render_source hmade ⟨a, ha, hkind⟩
    rw [← fst_parse, ← Tree.equivalent_eq_same] at hdiffers
    exact Bool.false_ne_true (hdiffers.symm.trans hequivalent)
  · intro hno
    have hlegible := Lexeme.legible_of_no_error hmade hno
    rw [Tree.equivalent_eq_same, fst_parse, reading_render_source_legible hlegible]
    exact Lexeme.same_self hlegible
  · intro hno
    have hread := reading_render_source_legible (Lexeme.legible_of_no_error hmade hno)
    refine ⟨?_, ?_, ?_⟩
    · rw [fst_parse, hread]
    · rw [position_parse, hread]
    · rw [diagnostics_parse, hread]
      rfl

end Reader

end Sexpr
