import Mathlib.Data.List.Forall2
import Sexpr.Proofs.Reader.Closing
import Sexpr.Proofs.Reader.Exactness
import Sexpr.Proofs.Reader.Settings

/-!
# What a truncation leaves in the tree

A reader can be told to leave an error in the tree for each list and for the string that the text
ends in. The tree without these errors is the one that is read otherwise, and it is known where they
stand (`Reader.parse_strict`): at the ends of the chains that are still open, and nowhere else.

* `Atom.isCut` tells these errors from all other atoms, and `Tree.without` takes them out. Every
  lexeme keeps it that two readings differ by them alone (`Lexeme.kept_without`).
* `Tree.lists` has the chains of the lists of a tree, in the order in which the lists begin.
* `Tree.MarkedBy` says that a chain ends with some of these errors and has no other. `endMarks` are
  those of the chain of one list, and `Lexeme.marked_read` has it of all lists at once.
-/

namespace Sexpr

/-! ## Errors for what is cut off -/

namespace Atom

/-- The error for a list that the text ends in. -/
def cutList : Atom := .error "Unterminated list"

/-- The error for a string that the text ends in, of which `pending` is read. -/
def cutString (pending : String) : Atom := .error ("Unterminated string: <" ++ pending ++ ">")

/-- Whether an atom is an error for what the text ends in, told by its message. -/
def isCut : Atom → Bool
  | error message =>
    message = "Unterminated list" || "Unterminated string: ".toList.isPrefixOf message.toList
  | _ => false

theorem isCut_cutString (pending : String) : (cutString pending).isCut = true := by
  simp [cutString, isCut]

/-- The messages of these errors begin alike. -/
theorem isCut_error {message : String} (h : message.toList.head? ≠ some 'U') :
    (error message).isCut = false := by
  rw [isCut, Bool.or_eq_false_iff, decide_eq_false_iff_not, ← Bool.not_eq_true,
    List.isPrefixOf_iff_prefix]
  constructor
  · rintro rfl
    exact h rfl
  · rintro ⟨rest, hrest⟩
    rw [← hrest] at h
    exact h rfl

/-- A token is no such error, even if it is no literal. -/
theorem isCut_ofToken (cs : List Char) : (ofToken cs).isCut = false := by
  have hunreadable : (unreadable cs).isCut = false := isCut_error (by simp [String.toList_append])
  unfold ofToken ofToken?
  split_ifs
  · cases Token.intValue? cs with
    | none => exact hunreadable
    | some n => rfl
  · cases Token.floatValue? cs with
    | none => exact hunreadable
    | some x => rfl
  · rfl
  · rfl
  · rfl
  · exact hunreadable

end Atom

theorem Lexeme.isCut_tooDeep (limit : Limit) : (tooDeep limit).isCut = false :=
  Atom.isCut_error (by simp [String.toList_append])

namespace Tree

/-- The tree without the atoms that a test finds, and without what they own. -/
def without (p : Atom → Bool) : Tree → Tree
  | absent => absent
  | node a child next =>
    if p a then next.without p else node a (child.without p) (next.without p)

theorem without_node {p : Atom → Bool} {a : Atom} (h : p a = false) (child next : Tree) :
    (node a child next).without p = node a (child.without p) (next.without p) := by
  rw [without, if_neg (by simp [h])]

theorem without_found {p : Atom → Bool} {a : Atom} (h : p a = true) (child next : Tree) :
    (node a child next).without p = next.without p := by
  rw [without, if_pos h]

/-- The chains of the lists of a tree, in the order in which the lists begin. -/
def lists : Tree → List Tree
  | absent => []
  | node .branch child next => child :: (child.lists ++ next.lists)
  | node _ child next => child.lists ++ next.lists

theorem lists_leaf {a : Atom} (h : a ≠ .branch) (next : Tree) :
    (node a absent next).lists = next.lists := by
  rw [lists]
  · rfl
  · exact h

/-- A chain that ends with some marks and has no other one. -/
def MarkedBy (marks : List Atom) (t : Tree) : Prop :=
  ∃ front : List Form, t.forms = front ++ marks.map (⟨·, absent⟩) ∧
    ∀ form ∈ front, form.atom.isCut = false

theorem markedBy_sentinel : sentinel.MarkedBy [] := ⟨[], rfl, by simp⟩

variable {marks : List Atom} {t : Tree}

/-- A form in front that is no mark. -/
theorem MarkedBy.precede (h : t.MarkedBy marks) {a : Atom} (hnil : a ≠ .nil)
    (ha : a.isCut = false) (child : Tree) : (node a child t).MarkedBy marks := by
  obtain ⟨front, hforms, hfront⟩ := h
  refine ⟨⟨a, child⟩ :: front, ?_, ?_⟩
  · rw [forms_node hnil, hforms, List.cons_append]
  · rw [List.forall_mem_cons]
    exact ⟨ha, hfront⟩

end Tree

namespace Lexeme

variable (limit : Option Limit)

/-! ## Lists that are kept -/

/-- Whether a list that lies inside `depth` others is kept. -/
def keeps (limit : Option Limit) (depth : Nat) : Bool := limit.all (depth < ·.depth)

/-- What lies deeper than a list that is not kept is not kept either. -/
theorem keeps_succ {limit : Option Limit} {depth : Nat} (h : keeps limit depth = false) :
    keeps limit (depth + 1) = false := by
  cases limit with
  | none => exact h
  | some limit =>
    have hdepth : limit.depth ≤ depth := by simpa [keeps] using h
    simpa [keeps] using Nat.le_succ_of_le hdepth

theorem chain_enclose_kept {limit : Option Limit} {depth : Nat} (h : keeps limit depth = true)
    (strict : Bool) (offset : Nat) (inner outer : Stretch) :
    (enclose ⟨limit, strict⟩ depth offset inner outer).chain =
      .node .branch inner.chain outer.chain := by
  cases limit with
  | none => exact enclose_free strict depth offset inner outer
  | some limit =>
    have hdepth : ¬limit.depth ≤ depth := by simpa [keeps] using h
    rw [enclose_limited, if_neg hdepth]

theorem exists_chain_enclose {limit : Option Limit} {depth : Nat} (h : keeps limit depth = false) :
    ∃ most, ∀ (strict : Bool) (offset : Nat) (inner outer : Stretch),
      (enclose ⟨limit, strict⟩ depth offset inner outer).chain =
        .node (tooDeep most) .absent outer.chain := by
  cases limit with
  | none => exact absurd h (by simp [keeps])
  | some most =>
    have hdepth : most.depth ≤ depth := by simpa [keeps] using h
    refine ⟨most, fun strict offset inner outer => ?_⟩
    rw [enclose_limited, if_pos hdepth]

/-! ## Without the errors -/

/-- Every lexeme keeps it that the second reading has the chains of the first one without the errors
for what is cut off. -/
theorem kept_without : Kept ⟨limit, true⟩ ⟨limit, false⟩ id fun r r' =>
    r'.chains = r.chains.map (Tree.without Atom.isCut) where
  form {r r'} cs h := by
    simp only [Reading.chains, List.map_cons, List.cons.injEq] at h
    obtain ⟨hhere, haround⟩ := h
    simp only [Reading.chains, Reading.mapHere, Stretch.precede, List.map_cons,
      Tree.without_node (Atom.isCut_ofToken cs), hhere, haround]
    rfl
  droppedQuote _ _ h := h
  closing h := congrArg (Tree.sentinel :: ·) h
  opening {inner outer inner' outer' around around' _ _} offset hlength h := by
    simp only [Reading.chains, List.map_cons, List.cons.injEq] at h
    obtain ⟨hinner, houter, haround⟩ := h
    simp only [Reading.chains, List.map_cons, List.cons.injEq, id]
    refine ⟨?_, haround⟩
    cases hkeeps : keeps limit around.length with
    | true =>
      rw [chain_enclose_kept hkeeps, chain_enclose_kept hkeeps, Tree.without_node rfl, hinner,
        houter]
    | false =>
      obtain ⟨most, hchain⟩ := exists_chain_enclose hkeeps
      rw [hchain, hchain, Tree.without_node (isCut_tooDeep most), houter]
      rfl

theorem without_ending (last : Nat) (left : List Nat) :
    (ending ⟨limit, false⟩ last left).chains =
      (ending ⟨limit, true⟩ last left).chains.map (Tree.without Atom.isCut) := by
  rw [chains_ending, Reading.chains, ending_levels]
  induction left with
  | nil => rfl
  | cons o left ih =>
    rw [List.length_cons, List.replicate_succ, ih]
    rfl

theorem without_breakOff (last : Nat) (cs : List Char) {r r' : Reading}
    (h : r'.chains = r.chains.map (Tree.without Atom.isCut)) :
    (r'.breakOff ⟨limit, false⟩ last cs).chains =
      (r.breakOff ⟨limit, true⟩ last cs).chains.map (Tree.without Atom.isCut) := by
  have hcut := Tree.without_found (Atom.isCut_cutString (String.ofList cs)) .absent r.here.chain
  refine h.trans ?_
  rw [Reading.chains, List.map_cons, List.map_cons, ← hcut]
  rfl

/-- **The tree without the errors** for what is cut off. -/
theorem chain_read_without (last : Nat) (xs : List Lexeme) :
    (read ⟨limit, false⟩ last [] xs).here.chain =
      (read ⟨limit, true⟩ last [] xs).here.chain.without Atom.isCut := by
  have hchains : (read ⟨limit, false⟩ last [] xs).chains =
      (read ⟨limit, true⟩ last [] xs).chains.map (Tree.without Atom.isCut) := by
    apply (kept_without limit).read_same
    · exact fun cs _ _ _ _ h => without_breakOff limit last cs h
    · exact fun _ => rfl
    · exact without_ending limit last
  exact (List.cons.inj hchains).1

/-! ## The marks of all chains -/

/-- The marks at the end of the chain of the list that was opened at an offset, or of the text
itself, if the text ends inside the lists `left`, innermost first, and inside the strings
`pending`. -/
def endMarks (left : List Nat) (pending : List String) (openedAt : Option Nat) : List Atom :=
  (if openedAt = left.head? then pending.map Atom.cutString else []) ++
    if openedAt.any (· ∈ left) then [Atom.cutList] else []

/-- A list that is closed has none. -/
theorem endMarks_of_notMem {left : List Nat} {o : Nat} (h : o ∉ left) (pending : List String) :
    endMarks left pending (some o) = [] := by
  have hhead : some o ≠ left.head? := fun heq => h (List.mem_of_head? heq.symm)
  simp [endMarks, hhead, h]

/-- The chain of the list that was opened at an offset, or of the text itself, has its marks. -/
def HasMarks (left : List Nat) (pending : List String) (openedAt : Option Nat) (t : Tree) : Prop :=
  t.MarkedBy (endMarks left pending openedAt)

/-- Of some levels, the innermost first, those that lie too deep hold no list. -/
def BareBeyond : List Tree → Prop
  | [] => True
  | t :: around => (keeps limit around.length = false → t.lists = []) ∧ BareBeyond around

/-- The chains of all levels have their marks, and so have those of the lists that are still to
come, as far as they are kept. -/
structure Marked (left : List Nat) (pending : List String) (opened : List Nat)
    (inside : List Place) (r : Reading) : Prop where
  levels : List.Forall₂ (HasMarks left pending) (opened.map some ++ [none]) r.chains
  bare : BareBeyond limit r.chains
  lists : List.Forall₂ (HasMarks left pending)
    ((inside.filter fun x => keeps limit x.around.length).map fun x => some x.offset)
    (r.chains.flatMap Tree.lists)

section Marked

variable {limit : Option Limit} {left opened : List Nat} {pending : List String}
  {inside : List Place} {r : Reading}

theorem lists_chains (r : Reading) : r.chains.flatMap Tree.lists =
    r.here.chain.lists ++ (r.around.map Stretch.chain).flatMap Tree.lists := rfl

/-- Another chain in the innermost level. -/
theorem forall₂_replace {α β : Type} {R : α → β → Prop} {as : List α} {b b' : β} {bs : List β}
    (h : List.Forall₂ R as (b :: bs)) (hb : ∀ a, R a b → R a b') :
    List.Forall₂ R as (b' :: bs) := by
  cases h with
  | cons hhead htail => exact .cons (hb _ hhead) htail

theorem Marked.form (h : Marked limit left pending opened inside r) (cs : List Char) :
    Marked limit left pending opened inside
      (r.mapHere (Stretch.precede ⟨Atom.ofToken cs, .absent⟩)) := by
  obtain ⟨hlevels, hbare, hlists⟩ := h
  obtain ⟨hnil, hbranch⟩ := Atom.ofToken_form cs
  have hleaf := Tree.lists_leaf hbranch r.here.chain
  rw [lists_chains, ← hleaf] at hlists
  refine ⟨?_, ⟨fun hdeep => hleaf.trans (hbare.1 hdeep), hbare.2⟩, hlists⟩
  exact forall₂_replace hlevels fun _ hmarks => hmarks.precede hnil (Atom.isCut_ofToken cs) _

/-- A list that is closed in the end begins without marks. -/
theorem Marked.closing (h : Marked limit left pending opened inside r) {o : Nat} (ho : o ∉ left) :
    Marked limit left pending (o :: opened) inside
      ⟨.nothing, r.here :: r.around, r.position⟩ := by
  have hmarks : HasMarks left pending (some o) .sentinel := by
    rw [HasMarks, endMarks_of_notMem ho]
    exact Tree.markedBy_sentinel
  exact ⟨.cons hmarks h.levels, ⟨fun _ => rfl, h.bare⟩, h.lists⟩

section Opening

variable {offset : Nat} {inner outer : Stretch} {around : List Stretch} {position : Nat}

theorem Marked.length_around (h : Marked limit left pending (offset :: opened) inside
    ⟨inner, outer :: around, position⟩) : (around.map Stretch.chain).length = opened.length := by
  have hlength := h.levels.length_eq
  simp only [Reading.chains, List.map_cons, List.length_cons, List.length_append, List.length_map,
    List.length_nil] at hlength ⊢
  omega

/-- An inner list that is kept comes with its own marks. -/
theorem Marked.opening_kept (h : Marked limit left pending (offset :: opened) inside
      ⟨inner, outer :: around, position⟩) (hkeeps : keeps limit opened.length = true) :
    Marked limit left pending opened (⟨offset, opened⟩ :: inside)
      ⟨enclose ⟨limit, true⟩ opened.length offset inner outer, around, position⟩ := by
  obtain ⟨hinner, hlevels⟩ := List.forall₂_cons.1 h.levels
  have hlists := List.Forall₂.cons hinner h.lists
  have hchain := chain_enclose_kept hkeeps true offset inner outer
  refine ⟨?_, ⟨?_, h.bare.2.2⟩, ?_⟩
  · refine forall₂_replace hlevels fun _ hmarks => ?_
    rw [hchain]
    exact hmarks.precede Atom.noConfusion rfl _
  · rw [h.length_around, hkeeps]
    exact fun hdeep => absurd hdeep.symm Bool.false_ne_true
  · rw [List.filter_cons_of_pos (by exact hkeeps), lists_chains, hchain, Tree.lists,
      List.cons_append, List.append_assoc]
    exact hlists

/-- An inner list that is not kept has no lists inside of it that are, for these lie still
deeper. -/
theorem Marked.opening_deep (h : Marked limit left pending (offset :: opened) inside
      ⟨inner, outer :: around, position⟩) (hkeeps : keeps limit opened.length = false) :
    Marked limit left pending opened (⟨offset, opened⟩ :: inside)
      ⟨enclose ⟨limit, true⟩ opened.length offset inner outer, around, position⟩ := by
  obtain ⟨-, hlevels⟩ := List.forall₂_cons.1 h.levels
  obtain ⟨most, hchain⟩ := exists_chain_enclose hkeeps
  have hinside : inner.chain.lists = [] := by
    refine h.bare.1 ?_
    rw [List.map_cons, List.length_cons, h.length_around]
    exact keeps_succ hkeeps
  have houtside : (enclose ⟨limit, true⟩ opened.length offset inner outer).chain.lists =
      outer.chain.lists := by
    rw [hchain]
    exact Tree.lists_leaf Atom.noConfusion _
  refine ⟨?_, ⟨?_, h.bare.2.2⟩, ?_⟩
  · refine forall₂_replace hlevels fun _ hmarks => ?_
    rw [hchain]
    exact hmarks.precede Atom.noConfusion (isCut_tooDeep most) _
  · exact fun hdeep => houtside.trans (h.bare.2.1 hdeep)
  · have hlists := h.lists
    rw [lists_chains, hinside, List.nil_append] at hlists
    rw [List.filter_cons_of_neg (by simp [hkeeps]), lists_chains, houtside]
    exact hlists

theorem Marked.opening (h : Marked limit left pending (offset :: opened) inside
      ⟨inner, outer :: around, position⟩) :
    Marked limit left pending opened (⟨offset, opened⟩ :: inside)
      ⟨enclose ⟨limit, true⟩ opened.length offset inner outer, around, position⟩ := by
  cases hkeeps : keeps limit opened.length with
  | true => exact h.opening_kept hkeeps
  | false => exact h.opening_deep hkeeps

end Opening

/-! ### The end of the text -/

theorem bareBeyond_of_forall {ts : List Tree} (h : ∀ t ∈ ts, t.lists = []) :
    BareBeyond limit ts := by
  induction ts with
  | nil => trivial
  | cons t ts ih =>
    rw [List.forall_mem_cons] at h
    exact ⟨fun _ => h.1, ih h.2⟩

/-- Where no list is to come, only the levels count. -/
theorem Marked.of_levels
    (h : List.Forall₂ (HasMarks left pending) (opened.map some ++ [none]) r.chains)
    (hlists : ∀ t ∈ r.chains, t.lists = []) : Marked limit left pending opened [] r where
  levels := h
  bare := bareBeyond_of_forall hlists
  lists := by
    rw [List.flatMap_eq_nil_iff.2 hlists]
    exact .nil

/-- The chain of a list at the end of the text. -/
def cutShort : Tree := .node Atom.cutList .absent .sentinel

theorem chains_cutShort (limit : Option Limit) (last : Nat) (left : List Nat) :
    (ending ⟨limit, true⟩ last left).chains =
      (left.map fun _ => cutShort) ++ [.sentinel] := by
  rw [Reading.chains, ending_levels, List.map_append, List.map_map]
  rfl

theorem lists_of_mem_cutShort (left : List Nat) :
    ∀ t ∈ (left.map fun _ => cutShort) ++ [.sentinel], t.lists = [] := by
  intro t ht
  simp only [List.mem_append, List.mem_map, List.mem_singleton] at ht
  rcases ht with ⟨o, -, rfl⟩ | rfl <;> rfl

/-- Away from the innermost list an open string leaves no mark. -/
theorem endMarks_of_ne {openedAt : Option Nat} (h : openedAt ≠ left.head? ∨ pending = []) :
    endMarks left pending openedAt =
      if openedAt.any (· ∈ left) then [Atom.cutList] else [] := by
  have hstring : (if openedAt = left.head? then pending.map Atom.cutString else []) = [] := by
    rcases h with h | rfl
    · rw [if_neg h]
    · rw [List.map_nil, ite_self]
  rw [endMarks, hstring, List.nil_append]

theorem forall₂_cutShort {os : List Nat} (hos : ∀ o ∈ os, o ∈ left)
    (hne : ∀ o ∈ os, some o ≠ left.head? ∨ pending = [])
    (hnone : none ≠ left.head? ∨ pending = []) :
    List.Forall₂ (HasMarks left pending) (os.map some ++ [none])
      ((os.map fun _ => cutShort) ++ [.sentinel]) := by
  refine List.rel_append ?_ (.cons ?_ .nil)
  · rw [List.forall₂_map_left_iff, List.forall₂_map_right_iff, List.forall₂_same]
    intro o ho
    rw [HasMarks, endMarks_of_ne (hne o ho), if_pos (by simpa using hos o ho)]
    exact ⟨[], rfl, by simp⟩
  · rw [HasMarks, endMarks_of_ne hnone]
    exact Tree.markedBy_sentinel

/-- The end of the text leaves its mark in all open lists. -/
theorem marked_ending (last : Nat) :
    Marked limit left [] left [] (ending ⟨limit, true⟩ last left) := by
  apply Marked.of_levels
  · rw [chains_cutShort]
    exact forall₂_cutShort (fun _ ho => ho) (fun _ _ => .inr rfl) (.inr rfl)
  · rw [chains_cutShort]
    exact lists_of_mem_cutShort left

/-- A string that the text ends in leaves one more, in front of the mark of the innermost list. -/
theorem marked_breakOff (hleft : left.Nodup) (last : Nat) (cs : List Char) :
    Marked limit left [String.ofList cs] left []
      ((ending ⟨limit, true⟩ last left).breakOff ⟨limit, true⟩ last cs) := by
  cases left with
  | nil =>
    refine .of_levels (.cons ⟨[], rfl, by simp⟩ .nil) fun t ht => ?_
    obtain rfl := List.mem_singleton.1 ht
    rfl
  | cons o rest =>
    obtain ⟨hhere, haround⟩ := List.cons.inj (chains_cutShort limit last (o :: rest))
    have hchains : ((ending ⟨limit, true⟩ last (o :: rest)).breakOff ⟨limit, true⟩ last cs).chains =
        .node (Atom.cutString (String.ofList cs)) .absent cutShort ::
          ((rest.map fun _ => cutShort) ++ [.sentinel]) :=
      congrArg₂ (fun t ts => Tree.node (Atom.cutString (String.ofList cs)) .absent t :: ts) hhere
        haround
    have hmarks : endMarks (o :: rest) [String.ofList cs] (some o) =
        [Atom.cutString (String.ofList cs), Atom.cutList] := by simp [endMarks]
    have hne : ∀ o' ∈ rest, some o' ≠ (o :: rest).head? ∨ [String.ofList cs] = [] := by
      intro o' ho'
      refine .inl fun heq => ?_
      obtain rfl := Option.some.inj heq
      exact (List.nodup_cons.1 hleft).1 ho'
    apply Marked.of_levels
    · rw [hchains]
      refine .cons ?_ (forall₂_cutShort (fun _ => List.mem_cons_of_mem o) hne (.inl nofun))
      rw [HasMarks, hmarks]
      exact ⟨[], rfl, by simp⟩
    · rw [hchains, List.forall_mem_cons]
      exact ⟨rfl, lists_of_mem_cutShort rest⟩

/-- The lists that are open behind a row, each with an offset of its own. -/
theorem nodup_openBehind {opened left : List Nat} {xs : List Lexeme}
    (h : openBehind opened xs = some left) (hnodup : (opened ++ openings xs).Nodup) :
    left.Nodup ∧ left ⊆ opened ++ openings xs := by
  induction xs generalizing opened with
  | nil =>
    obtain rfl := Option.some.inj h
    exact ⟨(List.nodup_append.1 hnodup).1, List.subset_append_left _ _⟩
  | cons x xs ih =>
    cases x with
    | opening offset =>
      have hperm : (opened ++ openings (.opening offset :: xs)).Perm
          (offset :: opened ++ openings xs) := List.perm_middle
      obtain ⟨hleft, hsubset⟩ := ih h (hperm.nodup_iff.1 hnodup)
      exact ⟨hleft, fun o ho => hperm.mem_iff.2 (hsubset ho)⟩
    | closing offset =>
      cases opened with
      | nil => exact absurd h.symm (Option.some_ne_none left)
      | cons o opened =>
        obtain ⟨hleft, hsubset⟩ := ih h (List.nodup_cons.1 hnodup).2
        exact ⟨hleft, List.subset_cons_of_subset o hsubset⟩
    | token cs offset => exact ih h hnodup
    | string cs offset => exact ih h hnodup
    | droppedQuote cs offset => exact ih h hnodup
    | openString cs offset => exact ih h hnodup

/-- **The marks of a row.** -/
theorem marked_read {xs ys : List Lexeme} {last : Nat}
    (hstring : ∀ cs offset, .openString cs offset ∉ xs) (hnodup : (opened ++ openings xs).Nodup)
    (hstop : openBehind opened xs = none → left = [] ∧ pending = [])
    (hrest : ∀ behind, openBehind opened xs = some behind → behind = left ∧
      Marked limit left pending left (places left ys) (read ⟨limit, true⟩ last left ys)) :
    Marked limit left pending opened (places opened (xs ++ ys))
      (read ⟨limit, true⟩ last opened (xs ++ ys)) := by
  induction xs generalizing opened with
  | nil =>
    obtain ⟨rfl, h⟩ := hrest opened rfl
    exact h
  | cons x xs ih =>
    have hstring' : ∀ cs offset, .openString cs offset ∉ xs :=
      fun cs offset hmem => hstring cs offset (List.mem_cons_of_mem x hmem)
    cases x with
    | token cs offset => exact (ih hstring' hnodup hstop hrest).form cs
    | string cs offset => exact (ih hstring' hnodup hstop hrest).form cs
    | droppedQuote cs offset =>
      have h := ih hstring' hnodup hstop hrest
      exact ⟨h.levels, h.bare, h.lists⟩
    | openString cs offset => exact absurd List.mem_cons_self (hstring cs offset)
    | closing offset =>
      cases opened with
      | nil =>
        obtain ⟨rfl, rfl⟩ := hstop rfl
        exact ⟨.cons Tree.markedBy_sentinel .nil, ⟨fun _ => rfl, trivial⟩, .nil⟩
      | cons o opened =>
        obtain ⟨hnotMem, hnodup'⟩ := List.nodup_cons.1 hnodup
        refine (ih hstring' hnodup' hstop hrest).closing fun ho => ?_
        cases hbehind : openBehind opened xs with
        | none => exact List.not_mem_nil ((hstop hbehind).1 ▸ ho)
        | some behind =>
          obtain ⟨rfl, -⟩ := hrest behind hbehind
          exact hnotMem ((nodup_openBehind hbehind hnodup').2 ho)
    | opening offset =>
      have hinner := ih hstring' (List.perm_middle.nodup_iff.1 hnodup) hstop hrest
      obtain ⟨here, outer, around, position, hlist, hopening⟩ :=
        exists_read_opening ⟨limit, true⟩ last opened offset (xs ++ ys)
      rw [hlist] at hinner
      rw [List.cons_append, hopening]
      exact hinner.opening

/-- The end of the text, in each state that the cut can be in there. -/
theorem marked_atEnd (hleft : left.Nodup) (last : Nat) (state : State) :
    Marked limit left state.pending?.toList left (places left (atEnd state))
      (read ⟨limit, true⟩ last left (atEnd state)) := by
  cases state with
  | comment => exact marked_ending last
  | string latest escaped start => exact marked_breakOff hleft last latest.reverse
  | plain latest start =>
    rw [atEnd, ended]
    split
    · exact marked_ending last
    · exact (marked_ending last).form latest.reverse

/-- **The marks of a text**, of which the end leaves some lists and perhaps a string open. -/
theorem marked_ofText (limit : Option Limit) (last offset : Nat) (cs : List Char) :
    let front := passed (.plain [] offset) offset cs
    Marked limit ((openBehind [] front.1).getD [])
      ((openBehind [] front.1).elim [] fun _ => front.2.pending?.toList) []
      (places [] (ofText offset cs)) (read ⟨limit, true⟩ last [] (ofText offset cs)) := by
  intro front
  have hrow : ofText offset cs = front.1 ++ atEnd front.2 := cut_eq _ _ _
  have hnodup : (openings front.1).Nodup := by
    have hopenings : (openings (ofText offset cs)).Nodup := (nodup_openings_cut _ _ _).1
    rw [hrow, openings_append] at hopenings
    exact (List.nodup_append.1 hopenings).1
  rw [hrow]
  apply marked_read (openString_notMem_passed _ _ _) hnodup
  · intro hstop
    rw [hstop]
    exact ⟨rfl, rfl⟩
  · intro behind hbehind
    rw [hbehind]
    exact ⟨rfl, marked_atEnd (nodup_openBehind hbehind hnodup).1 last front.2⟩

end Marked

/-! ## What is reported of it -/

/-- The offset of the list that a report says the text ends in. -/
def openedAt? (d : Diagnostic) : Option Nat :=
  match d.cause with
  | .unterminatedList openedAt => some openedAt
  | _ => none

/-- What is read of the string that a report says the text ends in. -/
def pendingIn? (d : Diagnostic) : Option String :=
  match d.cause with
  | .unterminatedString pending => some pending
  | _ => none

/-- Other reports tell of neither. -/
theorem filterMap_others {ds : List Diagnostic} (h : ∀ d ∈ ds, d.isTruncation = false) :
    ds.filterMap openedAt? = [] ∧ ds.filterMap pendingIn? = [] := by
  rw [List.filterMap_eq_nil_iff, List.filterMap_eq_nil_iff, ← forall₂_and]
  rintro ⟨cause, position⟩ hd
  have hother := h _ hd
  cases cause with
  | unterminatedList openedAt => exact absurd hother.symm Bool.false_ne_true
  | unterminatedString pending => exact absurd hother.symm Bool.false_ne_true
  | strayQuote token => exact ⟨rfl, rfl⟩
  | strayClose => exact ⟨rfl, rfl⟩
  | nestingTooDeep limit => exact ⟨rfl, rfl⟩

section Reports

variable (config : ReaderConfig) (last : Nat)

theorem filterMap_cutOff (left : List Nat) : (cutOff config last left).filterMap openedAt? = left ∧
    (cutOff config last left).filterMap pendingIn? = [] := by
  induction left with
  | nil => exact ⟨rfl, rfl⟩
  | cons o around ih =>
    obtain ⟨hlists, hstrings⟩ := filterMap_others (isTruncation_beyond config ⟨o, around⟩)
    simp only [cutOff, List.filterMap_cons, List.filterMap_append, hlists, hstrings, ih,
      List.nil_append, openedAt?, pendingIn?, and_self]

/-- What is reported of a text tells which lists and which string it ends in. -/
theorem filterMap_timeline {xs : List Lexeme} (hstring : ∀ cs offset, .openString cs offset ∉ xs)
    (state : State) :
    (timeline config last [] (xs ++ atEnd state)).filterMap openedAt? =
        (openBehind [] xs).getD [] ∧
      (timeline config last [] (xs ++ atEnd state)).filterMap pendingIn? =
        (openBehind [] xs).elim [] fun _ => state.pending?.toList := by
  obtain ⟨hlists, hstrings⟩ := filterMap_others (isTruncation_collect config last hstring [])
  rw [timeline_append, List.filterMap_append, List.filterMap_append, hlists, hstrings]
  cases openBehind [] xs with
  | none => exact ⟨rfl, rfl⟩
  | some left =>
    obtain ⟨hleft, hleft'⟩ := filterMap_cutOff config last left
    simp only [Option.elim_some, Option.getD_some, timeline_atEnd, List.filterMap_append, hleft,
      hleft']
    cases state.pending? <;> exact ⟨rfl, rfl⟩

end Reports

end Lexeme

namespace Reader

open Lexeme

/-- **What a truncation leaves in the tree.** Whether truncations show in the tree changes neither
the position nor the reports, and the tree without the errors for what is cut off is the one that is
read when they do not show. These errors stand at the ends of chains: each list that is kept, and
that the text ends in, has one for itself, its last form; the string that the text ends in has one
as the last form of the innermost chain that is open, in front of that of its list. No other list
has any, nor has the text itself, apart from that of a string outside of all lists. -/
theorem parse_strict (text : List Char) (position : Nat) (limit : Option Limit) :
    let strict := ((ofText text ⟨limit, true⟩).seek position).parse
    let lenient := ((ofText text ⟨limit, false⟩).seek position).parse
    let kept := (places [] (Lexeme.ofText position (text.drop position))).filter
      fun x => keeps limit x.around.length
    let left := strict.2.diagnostics.filterMap openedAt?
    let pending := strict.2.diagnostics.filterMap pendingIn?
    lenient.2.position = strict.2.position ∧
      lenient.2.diagnostics = strict.2.diagnostics ∧
      lenient.1 = strict.1.without Atom.isCut ∧
      pending.length ≤ 1 ∧
      List.Forall₂ (fun openedAt t => t.MarkedBy (endMarks left pending openedAt))
        (none :: kept.map fun x => some x.offset) (strict.1 :: strict.1.lists) := by
  intro strict lenient kept left pending
  let row := Lexeme.ofText position (text.drop position)
  let last := position + (text.drop position).length
  let front := passed (.plain [] position) position (text.drop position)
  have hrow : row = front.1 ++ atEnd front.2 := cut_eq _ _ _
  have hstrict : strict.2.diagnostics = timeline ⟨limit, true⟩ last [] row := by
    rw [← reports_read]
    exact diagnostics_parse _
  have hlenient : lenient.2.diagnostics = timeline ⟨limit, false⟩ last [] row := by
    rw [← reports_read]
    exact diagnostics_parse _
  have hstring : ∀ cs offset, .openString cs offset ∉ front.1 := openString_notMem_passed _ _ _
  have hopen := filterMap_timeline ⟨limit, true⟩ last hstring front.2
  rw [← hrow, ← hstrict] at hopen
  have hleft : left = (openBehind [] front.1).getD [] := hopen.1
  have hpending : pending = (openBehind [] front.1).elim [] fun _ => front.2.pending?.toList :=
    hopen.2
  refine ⟨?_, ?_, ?_, ?_, ?_⟩
  · rw [position_parse, position_parse]
    exact position_read_settings _ _ last row
  · rw [hstrict, hlenient]
    exact timeline_strict last limit true false [] row
  · rw [fst_parse, fst_parse]
    exact chain_read_without limit last row
  · rw [hpending]
    cases openBehind [] front.1 with
    | none => exact Nat.zero_le 1
    | some left => cases front.2.pending? <;> simp
  · have htree : strict.1 = (read ⟨limit, true⟩ last [] row).here.chain := fst_parse _
    have hchains : (read ⟨limit, true⟩ last [] row).chains = [strict.1] := by
      rw [Reading.chains, around_read_outermost, htree]
      rfl
    obtain ⟨hlevels, -, hlists⟩ := marked_ofText limit last position (text.drop position)
    rw [hchains, ← hleft, ← hpending] at hlevels hlists
    rw [List.flatMap_singleton] at hlists
    exact .cons (List.forall₂_cons.1 hlevels).1 hlists

end Reader

end Sexpr
