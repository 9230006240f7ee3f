import Sexpr.Proofs.Tree.Acyclic
import Sexpr.Tree.Linked.Render

/-!
# The text of a tree, and how it is written

`Tree.spelled` is the text of a tree as it is meant, by recursion: `Tree.spelledForms` in the plain
styles, where a chain is its atoms before the sentinel and a space stands between two neighbours
unless the left one is a quotation mark, and `Tree.spelledNodes` in the decorated ones, where a
chain is all its atoms and a space stands behind each except quotation marks and sentinels.

What the two loops write behind a link is a row of pieces that does not depend on what is still to
be written (`Linked.exists_shown_forms`, `Linked.exists_shown_nodes`): it has that text, holds the
nodes in the order in which the loop comes to them, and closes the lists that it opens. On a table
that passes the check both loops end, and come to each node once (`Linked.render_of_validate`).
-/

namespace Sexpr

namespace Tree

/-- The text of a chain in a plain style. -/
def spelledForms (style : Style) : Tree → String
  | absent => ""
  | node a child next =>
    if a = .nil then ""
    else
      (if a = .branch then "(" ++ child.spelledForms style ++ ")" else a.text style) ++
        (if a = .quote ∨ next.endsHere = true then "" else " ") ++ next.spelledForms style

/-- The text of a chain in a decorated style. -/
def spelledNodes (style : Style) : Tree → String
  | absent => ""
  | node a child next =>
    (if a = .branch then "(" ++ child.spelledNodes style ++ ")" else a.text style) ++
      (if a = .quote ∨ a = .nil then "" else " ") ++ next.spelledNodes style

/-- The text of a tree. -/
def spelled (style : Style) (t : Tree) : String :=
  if style.decorated then t.spelledNodes style else t.spelledForms style

variable {style : Style} {a : Atom} {child next t : Tree}

@[simp] theorem spelledForms_sentinel : sentinel.spelledForms style = "" := rfl

theorem spelledForms_branch : (node .branch child next).spelledForms style =
    "(" ++ child.spelledForms style ++ ")" ++ (if next.endsHere then "" else " ") ++
      next.spelledForms style := by
  simp [spelledForms]

theorem spelledForms_leaf (hnil : a ≠ .nil) (hbranch : a ≠ .branch) :
    (node a child next).spelledForms style =
      a.text style ++ (if a = .quote ∨ next.endsHere = true then "" else " ") ++
        next.spelledForms style := by
  rw [spelledForms, if_neg hnil, if_neg hbranch]

@[simp] theorem spelledNodes_sentinel : sentinel.spelledNodes style = Atom.text style .nil := by
  simp [sentinel, spelledNodes]

theorem spelledNodes_branch : (node .branch child next).spelledNodes style =
    "(" ++ child.spelledNodes style ++ ")" ++ " " ++ next.spelledNodes style := by
  simp [spelledNodes]

theorem spelledNodes_leaf (hnil : a ≠ .nil) (hbranch : a ≠ .branch) :
    (node a child next).spelledNodes style =
      a.text style ++ (if a = .quote then "" else " ") ++ next.spelledNodes style := by
  simp [spelledNodes, hnil, hbranch]

theorem endsHere_node (hnil : a ≠ .nil) : (node a child next).endsHere = false :=
  decide_eq_false hnil

/-! ## The loops on trees -/

theorem writtenForms_eq (h : t.WellFormed) (gap : String) :
    t.writtenForms style gap = (if t.endsHere then "" else gap) ++ t.spelledForms style := by
  induction h generalizing gap with
  | sentinel => rfl
  | branch _ _ ihchild ihnext =>
    rw [writtenForms, ihchild, ihnext, spelledForms_branch, endsHere_node Atom.noConfusion]
    simp [String.append_assoc]
  | @leaf a next hnil hbranch _ ihnext =>
    rw [writtenForms_leaf style gap hnil hbranch, ihnext, spelledForms_leaf hnil hbranch,
      endsHere_node hnil]
    by_cases hquote : a = .quote <;> simp [hquote, String.append_assoc]

theorem writtenNodes_eq (h : t.WellFormed) : t.writtenNodes style = t.spelledNodes style := by
  induction h with
  | sentinel => simp [sentinel, writtenNodes, spelledNodes]
  | branch hchild hnext ihchild ihnext =>
    rw [writtenNodes_node, hchild.isAbsent, hnext.isAbsent, ihchild, ihnext, spelledNodes_branch]
    simp [-String.reduceAppend, Atom.text, String.append_assoc]
  | leaf hnil hbranch hnext ihnext =>
    rw [writtenNodes_node, hnext.isAbsent, ihnext, spelledNodes_leaf hnil hbranch]
    simp [isAbsent, String.append_assoc]

/-- **The text of a well-formed tree** is written as it is meant. -/
theorem render_eq_spelled (h : t.WellFormed) : t.render style = t.spelled style := by
  rw [render_eq_written, written, spelled, writtenNodes_eq h, writtenForms_eq h]
  simp

end Tree

namespace Linked

variable {n : Nat} {g : Linked n} {root : Fin n} {style : Style}

/-! ## Pieces -/

/-- The node whose atom a piece is. -/
def Piece.node? : Piece n → Option (Fin n)
  | atom i => some i
  | space => none
  | closing => none

/-- Each list that is opened is closed, and nothing else is. -/
inductive Bracketed (g : Linked n) : List (Piece n) → Prop
  | nil : Bracketed g []
  | space {ps : List (Piece n)} : Bracketed g ps → Bracketed g (.space :: ps)
  | atom {i : Fin n} {ps : List (Piece n)} :
    (g.cell i).atom ≠ .branch → Bracketed g ps → Bracketed g (.atom i :: ps)
  | list {i : Fin n} {inner ps : List (Piece n)} :
    (g.cell i).atom = .branch → Bracketed g inner → Bracketed g ps →
    Bracketed g (.atom i :: (inner ++ .closing :: ps))

variable {ps qs : List (Piece n)}

theorem Bracketed.append (h : g.Bracketed ps) (h' : g.Bracketed qs) : g.Bracketed (ps ++ qs) := by
  induction h with
  | nil => exact h'
  | space _ ih => exact .space ih
  | atom hbranch _ ih => exact .atom hbranch ih
  | list hbranch hinner _ _ ih =>
    rw [List.cons_append, List.append_assoc, List.cons_append]
    exact .list hbranch hinner ih

/-- What a row of pieces shows: a text, the atoms of some nodes, and no bracket without the other
one. -/
structure Shows (g : Linked n) (style : Style) (ps : List (Piece n)) (text : String)
    (nodes : List (Fin n)) : Prop where
  text_eq : String.join (ps.map (Piece.text g style)) = text
  nodes_eq : ps.filterMap Piece.node? = nodes
  bracketed : g.Bracketed ps

variable {s t : String} {is js : List (Fin n)} {i : Fin n}

theorem shows_nil : g.Shows style [] "" [] := ⟨rfl, rfl, .nil⟩

theorem shows_space : g.Shows style [.space] " " [] := ⟨by simp [Piece.text], rfl, .space .nil⟩

theorem shows_atom (hbranch : (g.cell i).atom ≠ .branch) :
    g.Shows style [.atom i] ((g.cell i).atom.text style) [i] :=
  ⟨by simp [Piece.text], rfl, .atom hbranch .nil⟩

theorem Shows.of_eq (h : g.Shows style ps s is) (htext : s = t) (hnodes : is = js) :
    g.Shows style ps t js :=
  ⟨h.text_eq.trans htext, h.nodes_eq.trans hnodes, h.bracketed⟩

theorem Shows.append (h : g.Shows style ps s is) (h' : g.Shows style qs t js) :
    g.Shows style (ps ++ qs) (s ++ t) (is ++ js) where
  text_eq := by rw [List.map_append, String.join_append, h.text_eq, h'.text_eq]
  nodes_eq := by rw [List.filterMap_append, h.nodes_eq, h'.nodes_eq]
  bracketed := h.bracketed.append h'.bracketed

/-- A list, around what its chain shows. -/
theorem Shows.list (h : g.Shows style ps s is) (hbranch : (g.cell i).atom = .branch) :
    g.Shows style (.atom i :: (ps ++ [.closing])) ("(" ++ s ++ ")") (i :: is) where
  text_eq := by simp [Piece.text, hbranch, Atom.text, h.text_eq, String.append_assoc]
  nodes_eq := by simp [Piece.node?, h.nodes_eq]
  bracketed := .list hbranch h.bracketed .nil

/-- A space, or nothing. -/
theorem shows_gap (spaced : Bool) :
    g.Shows style (if spaced then [.space] else []) (if spaced then " " else "") [] := by
  cases spaced with
  | true => exact shows_space
  | false => exact shows_nil

/-! ## The loops on linked nodes -/

/-- The node that a plain style comes to. -/
def formsAt : List (FormItem n) × List (Piece n) → Option (Fin n)
  | (.chain head _ :: _, _) => head
  | _ => none

/-- The node that a decorated style comes to. -/
def nodesAt : List (NodeItem n) × List (Piece n) → Option (Fin n)
  | (.chain i :: _, _) => some i
  | _ => none

section

variable {spaced : Bool} {work : List (FormItem n)} {parts : List (Piece n)}

theorem formsRound_sentinel (hatom : (g.cell i).atom = .nil) :
    g.formsRound (.chain (some i) spaced :: work, parts) = .inl (work, parts) := by
  rw [formsRound, if_pos hatom]

theorem formsRound_branch (hatom : (g.cell i).atom = .branch) :
    g.formsRound (.chain (some i) spaced :: work, parts) =
      .inl (.chain (g.cell i).child false :: .piece .closing :: .chain (g.cell i).next true :: work,
        .atom i :: (if spaced then [.space] else []).reverse ++ parts) := by
  rw [formsRound]
  cases spaced <;> simp [hatom]

theorem formsRound_leaf (hnil : (g.cell i).atom ≠ .nil) (hbranch : (g.cell i).atom ≠ .branch) :
    g.formsRound (.chain (some i) spaced :: work, parts) =
      .inl (.chain (g.cell i).next ((g.cell i).atom ≠ .quote) :: work,
        .atom i :: (if spaced then [.space] else []).reverse ++ parts) := by
  rw [formsRound]
  cases spaced <;> simp [hnil, hbranch]

end

section

variable {work : List (NodeItem n)} {parts : List (Piece n)} {j k : Fin n}

theorem nodesRound_sentinel (hchild : (g.cell i).child = none) (hnext : (g.cell i).next = none) :
    g.nodesRound (.chain i :: work, parts) = .inl (work, .atom i :: parts) := by
  simp [nodesRound, hchild, hnext]

theorem nodesRound_branch (hchild : (g.cell i).child = some j) (hnext : (g.cell i).next = some k) :
    g.nodesRound (.chain i :: work, parts) =
      .inl (.chain j :: .piece .closing :: .piece .space :: .chain k :: work,
        .atom i :: parts) := by
  simp [nodesRound, hchild, hnext]

theorem nodesRound_leaf (hchild : (g.cell i).child = none) (hnext : (g.cell i).next = some k) :
    g.nodesRound (.chain i :: work, parts) =
      .inl (.chain k :: work,
        (if (g.cell i).atom ≠ .quote then [.space] else []).reverse ++ .atom i :: parts) := by
  by_cases hquote : (g.cell i).atom = .quote <;> simp [nodesRound, hchild, hnext, hquote]

end

variable {target : Option (Fin n)} {tree : Tree} {places : List (Fin n)}

/-- **A chain in a plain style** is written as it is meant, without its sentinels, whatever is
still to be written behind it. -/
theorem exists_shown_forms (htree : tree.WellFormed) (h : g.Unfolds target tree places)
    (style : Style) (spaced : Bool) :
    ∃ ps, g.Shows style ps
        ((if spaced && !tree.endsHere then " " else "") ++ tree.spelledForms style)
        (places.filter fun j => (g.cell j).atom ≠ .nil) ∧
      ∀ work parts, Loop.Reaches g.formsRound formsAt (.chain target spaced :: work, parts) places
        (work, ps.reverse ++ parts) := by
  induction htree generalizing target places spaced with
  | sentinel =>
    obtain ⟨i, cs, ns, rfl, hatom, rfl, hchild, hnext⟩ := h.exists_cell
    obtain ⟨-, rfl⟩ := hchild.eq_none
    obtain ⟨-, rfl⟩ := hnext.eq_none
    refine ⟨[], shows_nil.of_eq ?_ ?_, fun work parts => ?_⟩
    · have hends : Tree.sentinel.endsHere = true := rfl
      simp [hends]
    · simp [hatom]
    · exact .head (formsRound_sentinel hatom) (.refl _)
  | @branch child next _ _ ihchild ihnext =>
    obtain ⟨i, cs, ns, rfl, hatom, rfl, hchild, hnext⟩ := h.exists_cell
    obtain ⟨ps, hps, hloop⟩ := ihchild hchild false
    obtain ⟨qs, hqs, hloop'⟩ := ihnext hnext true
    refine ⟨_, (((shows_gap spaced).append (hps.list hatom)).append hqs).of_eq ?_ ?_, ?_⟩
    · rw [Tree.spelledForms_branch, Tree.endsHere_node Atom.noConfusion]
      cases next.endsHere <;> simp [-String.reduceAppend, String.append_assoc]
    · simp [hatom]
    · intro work parts
      refine .head (formsRound_branch hatom) ((hloop _ _).trans (.head rfl ?_))
      simpa using hloop' work _
  | @leaf a next hnil hbranch _ ihnext =>
    obtain ⟨i, cs, ns, rfl, rfl, rfl, hchild, hnext⟩ := h.exists_cell
    obtain ⟨-, rfl⟩ := hchild.eq_none
    obtain ⟨qs, hqs, hloop⟩ := ihnext hnext ((g.cell i).atom ≠ .quote)
    refine ⟨_, (((shows_gap spaced).append (shows_atom hbranch)).append hqs).of_eq ?_ ?_, ?_⟩
    · rw [Tree.spelledForms_leaf hnil hbranch, Tree.endsHere_node hnil]
      by_cases hquote : (g.cell i).atom = .quote <;> cases next.endsHere <;>
        simp [hquote, String.append_assoc]
    · simp [hnil]
    · intro work parts
      refine .head (formsRound_leaf hnil hbranch) ?_
      simpa using hloop work _

/-- **A chain in a decorated style** is written as it is meant, whatever is still to be written
behind it. -/
theorem exists_shown_nodes (htree : tree.WellFormed) (h : g.Unfolds (some i) tree places)
    (style : Style) :
    ∃ ps, g.Shows style ps (tree.spelledNodes style) places ∧
      ∀ work parts, Loop.Reaches g.nodesRound nodesAt (.chain i :: work, parts) places
        (work, ps.reverse ++ parts) := by
  induction htree generalizing i places with
  | sentinel =>
    obtain ⟨i', cs, ns, hi, hatom, rfl, hchild, hnext⟩ := h.exists_cell
    obtain rfl := Option.some.inj hi
    obtain ⟨hchildOf, rfl⟩ := hchild.eq_none
    obtain ⟨hnextOf, rfl⟩ := hnext.eq_none
    have hbranch : (g.cell i).atom ≠ .branch := hatom ▸ Atom.noConfusion
    refine ⟨_, (shows_atom hbranch).of_eq ?_ rfl, ?_⟩
    · rw [Tree.spelledNodes_sentinel, hatom]
    · exact fun work parts => .head (nodesRound_sentinel hchildOf hnextOf) (.refl _)
  | @branch child next hwchild hwnext ihchild ihnext =>
    obtain ⟨i', cs, ns, hi, hatom, rfl, hchild, hnext⟩ := h.exists_cell
    obtain rfl := Option.some.inj hi
    obtain ⟨j, hchildOf⟩ := hchild.exists_target hwchild
    obtain ⟨k, hnextOf⟩ := hnext.exists_target hwnext
    obtain ⟨ps, hps, hloop⟩ := ihchild (hchildOf ▸ hchild)
    obtain ⟨qs, hqs, hloop'⟩ := ihnext (hnextOf ▸ hnext)
    refine ⟨_, (((hps.list hatom).append shows_space).append hqs).of_eq ?_ ?_, ?_⟩
    · rw [Tree.spelledNodes_branch]
    · simp
    · intro work parts
      refine .head (nodesRound_branch hchildOf hnextOf)
        ((hloop _ _).trans (.head rfl (.head rfl ?_)))
      simpa using hloop' work _
  | @leaf a next hnil hbranch hwnext ihnext =>
    obtain ⟨i', cs, ns, hi, rfl, rfl, hchild, hnext⟩ := h.exists_cell
    obtain rfl := Option.some.inj hi
    obtain ⟨hchildOf, rfl⟩ := hchild.eq_none
    obtain ⟨k, hnextOf⟩ := hnext.exists_target hwnext
    obtain ⟨qs, hqs, hloop⟩ := ihnext (hnextOf ▸ hnext)
    have hgap : g.Shows style _ _ [] := shows_gap ((g.cell i).atom ≠ .quote)
    refine ⟨_, (((shows_atom hbranch).append hgap).append hqs).of_eq ?_ ?_, ?_⟩
    · rw [Tree.spelledNodes_leaf hnil hbranch]
      by_cases hquote : (g.cell i).atom = .quote <;> simp [hquote]
    · simp
    · intro work parts
      refine .head (nodesRound_leaf hchildOf hnextOf) ?_
      simpa using hloop work _

/-! ## The check, and then the text -/

/-- The writing comes to an end, and to some pieces. -/
def Writes (g : Linked n) (style : Style) (root : Fin n) (ps : List (Piece n)) : Prop :=
  ∃ rounds, g.pieces style root rounds = some ps

/-- The writing comes to an end, and to a text. -/
def Renders (g : Linked n) (style : Style) (root : Fin n) (text : String) : Prop :=
  ∃ rounds, g.render style root rounds = some text

/-- The writing comes to an end, where nothing is left to write, and on the way to some nodes. -/
def Visits (g : Linked n) (style : Style) (root : Fin n) (nodes : List (Fin n)) : Prop :=
  if style.decorated then
    ∃ parts, Loop.Reaches g.nodesRound nodesAt ([.chain root], []) nodes ([], parts)
  else
    ∃ parts, Loop.Reaches g.formsRound formsAt ([.chain (some root) false], []) nodes ([], parts)

theorem Visits.unique {nodes nodes' : List (Fin n)} (h : g.Visits style root nodes)
    (h' : g.Visits style root nodes') : nodes = nodes' := by
  unfold Visits at h h'
  by_cases hstyle : style.decorated = true
  · rw [if_pos hstyle] at h h'
    obtain ⟨parts, hloop⟩ := h
    obtain ⟨parts', hloop'⟩ := h'
    exact hloop.unique rfl hloop' rfl
  · rw [if_neg hstyle] at h h'
    obtain ⟨parts, hloop⟩ := h
    obtain ⟨parts', hloop'⟩ := h'
    exact hloop.unique rfl hloop' rfl

/-- **Both loops write one row of pieces**, and then have nothing left to write. -/
theorem exists_written (htree : tree.WellFormed) (h : g.Unfolds (some root) tree places)
    (style : Style) :
    ∃ ps, g.Shows style ps (tree.spelled style)
        (places.filter fun j => style.decorated = true ∨ (g.cell j).atom ≠ .nil) ∧
      g.Visits style root places ∧ ∀ ps', g.Writes style root ps' ↔ ps' = ps := by
  cases hstyle : style.decorated with
  | true =>
    obtain ⟨ps, hshows, hloop⟩ := exists_shown_nodes htree h style
    refine ⟨ps, hshows.of_eq ?_ ?_, ?_, fun ps' => ?_⟩
    · rw [Tree.spelled, if_pos hstyle]
    · simp
    · rw [Visits, if_pos hstyle]
      exact ⟨_, hloop [] []⟩
    · have hends := (hloop [] []).endsWith (.now rfl)
      rw [Writes]
      simp only [pieces, hstyle, ↓reduceIte]
      rw [hends.exists_map_iff, List.append_nil, List.reverse_reverse]
  | false =>
    obtain ⟨ps, hshows, hloop⟩ := exists_shown_forms htree h style false
    refine ⟨ps, hshows.of_eq ?_ ?_, ?_, fun ps' => ?_⟩
    · rw [Tree.spelled, hstyle]
      simp
    · simp
    · rw [Visits, if_neg (Bool.eq_false_iff.1 hstyle)]
      exact ⟨_, hloop [] []⟩
    · have hends := (hloop [] []).endsWith (.now rfl)
      rw [Writes]
      simp only [pieces, hstyle, Bool.false_eq_true, ↓reduceIte]
      rw [hends.exists_map_iff, List.append_nil, List.reverse_reverse]

/-- **The text of a table that passes the check.** In every style the loop ends, and what it writes
is the text that is meant of the tree that is seen, which is also what the loop on trees writes. The
loop comes once to each node that can be reached. It writes the atoms of these nodes in that order,
in the plain styles without the sentinels, and closes each bracket that it opens. -/
theorem render_of_validate (h : g.validate root = .ok root) (style : Style) :
    (∀ text, g.Renders style root text ↔ text = (g.unfold root).spelled style) ∧
      (g.unfold root).render style = (g.unfold root).spelled style ∧
      ∃ ps nodes, (∀ ps', g.Writes style root ps' ↔ ps' = ps) ∧
        String.join (ps.map (Piece.text g style)) = (g.unfold root).spelled style ∧
        (∀ nodes', g.Visits style root nodes' ↔ nodes' = nodes) ∧
        nodes.Nodup ∧ (∀ j, j ∈ nodes ↔ g.Reachable root j) ∧
        ps.filterMap Piece.node? =
          (nodes.filter fun j => style.decorated = true ∨ (g.cell j).atom ≠ .nil) ∧
        g.Bracketed ps := by
  obtain ⟨places, hunfolds, hwf, hnodup, hmem⟩ := (isTree_of_validate h).unfolds
  obtain ⟨ps, hshows, hvisits, hwrites⟩ := exists_written hwf hunfolds style
  refine ⟨fun text => ?_, Tree.render_eq_spelled hwf, ps, places, hwrites, hshows.text_eq,
    fun nodes => ⟨fun hnodes => hnodes.unique hvisits, fun hnodes => hnodes ▸ hvisits⟩, hnodup,
    hmem, hshows.nodes_eq, hshows.bracketed⟩
  constructor
  · rintro ⟨rounds, htext⟩
    obtain ⟨ps', hps', rfl⟩ := Option.map_eq_some_iff.1 htext
    obtain rfl := (hwrites ps').1 ⟨rounds, hps'⟩
    exact hshows.text_eq
  · rintro rfl
    obtain ⟨rounds, hps⟩ := (hwrites ps).2 rfl
    exact ⟨rounds, by rw [render, hps, Option.map_some, hshows.text_eq]⟩

/-- A quoted list in front of an empty one, with which the chain ends. -/
def quotedThenEmpty : Linked 7 :=
  ⟨#v[⟨.quote, none, some 1⟩, ⟨.branch, some 2, some 4⟩, ⟨.symbol "a", none, some 3⟩,
    ⟨.nil, none, none⟩, ⟨.branch, some 5, some 6⟩, ⟨.nil, none, none⟩, ⟨.nil, none, none⟩]⟩

/-- No space stands behind a quotation mark, nor before the end of a list. -/
theorem render_quotedThenEmpty :
    quotedThenEmpty.validate 0 = .ok 0 ∧
      quotedThenEmpty.Renders .plain 0 "'(a) ()" ∧
      quotedThenEmpty.Renders .unicode 0 "'(⧼𝔰⧽a ⦉) (⦉) ⦉" := by
  have hvalid : quotedThenEmpty.validate 0 = .ok 0 := by decide +kernel
  have hplain : "'(a) ()" = (quotedThenEmpty.unfold 0).spelled .plain := by decide +kernel
  have hunicode : "'(⧼𝔰⧽a ⦉) (⦉) ⦉" = (quotedThenEmpty.unfold 0).spelled .unicode := by
    decide +kernel
  exact ⟨hvalid, ((render_of_validate hvalid .plain).1 _).2 hplain,
    ((render_of_validate hvalid .unicode).1 _).2 hunicode⟩

end Linked

end Sexpr
