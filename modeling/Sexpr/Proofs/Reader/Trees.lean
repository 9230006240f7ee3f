import Sexpr.Proofs.Reader.Phases
import Sexpr.Proofs.Token.Legible
import Sexpr.Proofs.Tree.Shape

/-!
# The trees of the reader

Every tree that the reader gives has the shape of a tree, and `Atom.Given` lists what its atoms can
be (`Reader.madeOf_given`), whatever the text is, and wherever it is cut off. The settings decide
which errors are among them.
-/

namespace Sexpr

/-- The atoms, apart from lists and sentinels, that a reader with these settings gives. -/
inductive Atom.Given (config : ReaderConfig) : Atom → Prop
  | legible {a : Atom} : a.Legible → Given config a
  | unreadable {w : List Char} : Lexeme.IsWord w → ofToken w = unreadable w →
    Given config (.unreadable w)
  | tooDeep {limit : Limit} : config.maxDepth = some limit →
    Given config (.error (Cause.nestingTooDeep limit.text).message)
  | openString {body : List Char} : '\\' ∉ body → config.reportUnterminated = true →
    Given config (.error ("Unterminated string: <" ++ String.ofList ('"' :: body) ++ ">"))
  | openList : config.reportUnterminated = true → Given config (.error "Unterminated list")

namespace Atom

variable {config : ReaderConfig} {a : Atom}

theorem Given.ne_nil (h : a.Given config) : a ≠ .nil := by
  cases h with
  | legible ha => exact ha.ne_nil
  | unreadable | tooDeep | openString | openList => exact Atom.noConfusion

theorem Given.ne_branch (h : a.Given config) : a ≠ .branch := by
  cases h with
  | legible ha => exact ha.ne_branch
  | unreadable | tooDeep | openString | openList => exact Atom.noConfusion

theorem given_of_token {cs : List Char} {offset : Nat} (h : Lexeme.Proper (.token cs offset)) :
    (ofToken cs).Given config := by
  rcases h with rfl | h
  · exact .legible .quote
  · rcases legible_or_unreadable h with hlegible | herror
    · exact .legible hlegible
    · rw [herror]
      exact .unreadable h herror

/-- The atoms, apart from lists and sentinels, that come out of a text. -/
def FromText (a : Atom) : Prop := a.Legible ∨ a.kind = .error

theorem Given.fromText (h : a.Given config) : a.FromText := by
  cases h with
  | legible ha => exact .inl ha
  | unreadable | tooDeep | openString | openList => exact .inr rfl

/-- No atom of a text is a NaN. -/
theorem FromText.same_self (h : a.FromText) : a.same a = true := by
  rcases h with hlegible | hkind
  · exact hlegible.same_self
  · cases a with
    | error message => simp [same]
    | _ => exact absurd hkind Kind.noConfusion

end Atom

theorem Tree.MadeOf.precede {config : ReaderConfig} {a : Atom} {s : Stretch} (ha : a.Given config)
    (h : s.chain.MadeOf (Atom.Given config)) :
    (s.precede ⟨a, .absent⟩).chain.MadeOf (Atom.Given config) :=
  .leaf ha.ne_nil ha.ne_branch ha h

namespace Lexeme

open Atom

variable (config : ReaderConfig) (last : Nat)

theorem madeOf_truncated (openedAt : Nat) :
    (truncated config last openedAt).chain.MadeOf (Given config) := by
  unfold truncated
  split
  · next hstrict => exact Tree.MadeOf.precede (.openList hstrict) .sentinel
  · exact .sentinel

theorem madeOf_enclose (depth offset : Nat) {inner outer : Stretch}
    (hinner : inner.chain.MadeOf (Given config)) (houter : outer.chain.MadeOf (Given config)) :
    (enclose config depth offset inner outer).chain.MadeOf (Given config) := by
  unfold enclose
  split
  · exact .branch hinner houter
  · next limit hlimit =>
    simp only
    split
    · exact Tree.MadeOf.precede (s := outer) (.tooDeep hlimit) houter
    · exact .branch hinner houter

/-- A change to the innermost level that keeps a property keeps it for all levels. -/
theorem forall_mapHere {p : Stretch → Prop} {f : Stretch → Stretch} (hf : ∀ s, p s → p (f s))
    {reading : Reading} (h : ∀ s ∈ reading.here :: reading.around, p s) :
    ∀ s ∈ (reading.mapHere f).here :: (reading.mapHere f).around, p s := by
  rw [List.forall_mem_cons] at h ⊢
  exact ⟨hf _ h.1, h.2⟩

/-- What is still to come of every level at a place is made of atoms from the text. -/
theorem madeOf_read {lexemes : List Lexeme} (h : ∀ x ∈ lexemes, x.Proper) (opened : List Nat) :
    ∀ s ∈ (read config last opened lexemes).here :: (read config last opened lexemes).around,
      s.chain.MadeOf (Given config) := by
  induction lexemes generalizing opened with
  | nil =>
    intro s hs
    rw [read, ending_levels, List.mem_append, List.mem_map, List.mem_singleton] at hs
    rcases hs with ⟨openedAt, -, rfl⟩ | rfl
    · exact madeOf_truncated config last openedAt
    · exact .sentinel
  | cons x rest ih =>
    rw [List.forall_mem_cons] at h
    obtain ⟨hx, hrest⟩ := h
    cases x with
    | token cs offset =>
      have hcs : (ofToken cs).Given config := given_of_token hx
      exact forall_mapHere (fun _ hs => hs.precede hcs) (ih hrest opened)
    | string cs offset =>
      have hcs : (ofToken cs).Given config := .legible (legible_of_string hx)
      exact forall_mapHere (fun _ hs => hs.precede hcs) (ih hrest opened)
    | droppedQuote cs offset =>
      exact forall_mapHere (f := Stretch.report ⟨.strayQuote (String.ofList cs), offset⟩)
        (fun _ hs => hs) (ih hrest opened)
    | openString cs offset =>
      rw [read]
      have hreport := forall_mapHere
        (f := Stretch.report ⟨.unterminatedString (String.ofList cs), last⟩) (fun _ hs => hs)
        (ih hrest opened)
      split
      · next hstrict =>
        obtain ⟨body, hbody, rfl⟩ := hx
        exact forall_mapHere (fun _ hs => hs.precede (.openString hbody hstrict)) hreport
      · exact hreport
    | closing offset =>
      cases opened with
      | nil =>
        intro s hs
        obtain rfl := List.mem_singleton.1 hs
        exact .sentinel
      | cons o opened =>
        rw [read, List.forall_mem_cons]
        exact ⟨.sentinel, ih hrest opened⟩
    | opening offset =>
      obtain ⟨here, outer, around, position, hlist, hopening⟩ :=
        exists_read_opening config last opened offset rest
      have hlevels := ih hrest (offset :: opened)
      rw [hlist, List.forall_mem_cons, List.forall_mem_cons] at hlevels
      obtain ⟨hhere, houter, haround⟩ := hlevels
      rw [hopening, List.forall_mem_cons]
      exact ⟨madeOf_enclose config opened.length offset hhere houter, haround⟩

end Lexeme

namespace Reader

theorem reading_ofText (cs : List Char) (config : ReaderConfig) :
    (ofText cs config).reading = Lexeme.read config cs.length [] (Lexeme.ofText 0 cs) := by
  rw [reading, remaining]
  simp only [ofText, List.drop_zero, Nat.zero_add, Lexeme.ofText]

/-- The reports of a text that is read from its start. -/
theorem diagnostics_parse_ofText (text : List Char) (config : ReaderConfig) :
    (ofText text config).parse.2.diagnostics = (ofText text config).reading.here.reports :=
  diagnostics_parse _

/-- **The trees of the reader**: each is a chain with a sentinel, exactly its lists own a chain,
and all other atoms are those that its settings admit. -/
theorem madeOf_given (r : Reader) : r.parse.1.MadeOf (Atom.Given r.config) := by
  have hstart : Lexeme.State.Proper (.plain [] r.position) := Or.inl rfl
  rw [r.fst_parse]
  exact Lexeme.madeOf_read r.config _ (Lexeme.proper_of_mem_cut hstart _ _) [] _
    List.mem_cons_self

/-- All atoms but lists and sentinels are legible or errors. -/
theorem madeOf_parse (r : Reader) : r.parse.1.MadeOf Atom.FromText :=
  r.madeOf_given.sharpen fun _ _ h => h.fromText

end Reader

end Sexpr
