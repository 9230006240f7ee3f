import Sexpr.Proofs.Reader.Trees
import Sexpr.Proofs.Token.Exclusion

/-!
# What the atoms hold

The value of an atom of the reader is in the language of its kind (`Reader.payload_of_mem`). Which
characters come into a token is known from the cut, and which literal the token is from the order in
which the literals are asked.

* `Atom.value?` is what an atom holds besides its kind, and `Payload` has the language of each kind,
  as far as it depends on the settings.
* `Atom.isSymbol_of_ofToken` and `Atom.fits_of_unreadable` go back from an atom to its token.
* `Atom.Given.payload` puts the two together, and needs no more than what the tree is made of.
-/

namespace Sexpr

/-! ## Values -/

/-- What an atom can hold besides its kind. -/
inductive Value where
  | int (n : Int)
  | float (x : Binary64)
  | text (s : String)
  deriving DecidableEq

namespace Atom

/-- The value of an atom. The mark of a quotation holds itself; the end of a chain and a list hold
nothing. -/
def value? : Atom → Option Value
  | nil => none
  | error message => some (.text message)
  | int n => some (.int n)
  | float x => some (.float x)
  | string s => some (.text s)
  | symbol s => some (.text s)
  | quote => some (.text "'")
  | branch => none

end Atom

/-- The characters that are in no token but a string: blanks, parentheses, the start of a comment
and the double quote. -/
def separators : List Char := [' ', '\t', '\n', '\r', '(', ')', ';', '"']

/-- The values that a reader with these settings gives to the atoms of each kind. -/
inductive Payload (config : ReaderConfig) : Kind → Option Value → Prop
  | nil : Payload config .nil none
  | branch : Payload config .branch none
  | int (n : Int) : Payload config .int (some (.int n))
  | float {x : Binary64} : x.isNaN = false → Payload config .float (some (.float x))
  | string {s : String} : '\\' ∉ s.toList → Payload config .string (some (.text s))
  /-- A symbol is read as itself. -/
  | symbol {s : String} : s ≠ "" →
    (∀ c ∈ s.toList, c ∉ separators ∧ c ≠ Text.apostrophe ∧ c ≠ '\\') →
    Atom.ofToken s.toList = .symbol s → Payload config .symbol (some (.text s))
  | quote : Payload config .quote (some (.text "'"))
  | tooDeep {limit : Limit} : config.maxDepth = some limit →
    Payload config .error (some (.text ("Nesting too deep: " ++ limit.text)))
  | openList : config.reportUnterminated = true →
    Payload config .error (some (.text "Unterminated list"))
  | openString {t : List Char} : config.reportUnterminated = true → t.head? = some '"' →
    Payload config .error (some (.text ("Unterminated string: <" ++ String.ofList t ++ ">")))
  /-- A token that is no literal has a character that no symbol has, or it starts like a number and
  is none. -/
  | unreadable {t : List Char} : t ≠ [] → (∀ c ∈ t, c ∉ separators) →
    t.head? ≠ some Text.apostrophe →
    Text.apostrophe ∈ t ∨ '\\' ∈ t ∨
      (t.head?.any Char.isDigit ∧ Token.isInt t = false ∧ Token.isFloat t = false) →
    Payload config .error (some (.text ("Can't parse: <" ++ String.ofList t ++ ">")))

/-! ## From the atom to the token -/

theorem Lexeme.IsWord.notMem_separators {w : List Char} (h : Lexeme.IsWord w) :
    ∀ c ∈ w, c ∉ separators := by
  have hseparators : ∀ d ∈ separators, Lexeme.continues d = false := by
    simp [separators, Lexeme.continues, Lexeme.delimits, Token.isSpace]
  intro c hc hmem
  exact h.notMem (hseparators c hmem) hc

namespace Atom

variable {t : List Char}

/-- A symbol comes from a token that passes the predicate of symbols. -/
theorem isSymbol_of_ofToken {s : String} (h : ofToken t = .symbol s) :
    Token.isSymbol t = true := by
  rcases ofToken_cases t with ⟨l, hfirst, hkind⟩ | ⟨-, hatom⟩
  · rw [h] at hkind
    obtain rfl := Literal.kind_injective (m := .symbol) hkind.symm
    exact Literal.fits_of_first? hfirst
  · rw [h] at hatom
    exact absurd hatom Atom.noConfusion

/-- The error for a token that is no literal comes from a token that passes no predicate. -/
theorem fits_of_unreadable (h : ofToken t = unreadable t) (l : Literal) : l.fits t = false := by
  rcases ofToken_cases t with ⟨m, -, hkind⟩ | ⟨hnone, -⟩
  · rw [h] at hkind
    cases m <;> exact absurd hkind Kind.noConfusion
  · exact hnone l

/-- What keeps a token from being a symbol. -/
theorem exists_of_not_isSymbol (hne : t ≠ []) (hquote : '"' ∉ t)
    (h : Token.isSymbol t = false) :
    Text.apostrophe ∈ t ∨ '\\' ∈ t ∨ t.head?.any Char.isDigit := by
  cases t with
  | nil => exact absurd rfl hne
  | cons c t =>
    simp only [Token.isSymbol, Bool.and_eq_false_iff, Bool.not_eq_false'] at h
    rcases h with hdigit | hbreaks
    · exact .inr (.inr hdigit)
    · obtain ⟨d, hd, hd'⟩ := List.any_eq_true.1 hbreaks
      simp only [Token.breaksSymbol, Bool.or_eq_true, decide_eq_true_eq] at hd'
      rcases hd' with (rfl | rfl) | rfl
      · exact .inl hd
      · exact absurd hd hquote
      · exact .inr (.inl hd)

theorem Legible.payload {a : Atom} (h : a.Legible) (config : ReaderConfig) :
    Payload config a.kind a.value? := by
  cases h with
  | int n => exact .int n
  | float hx => exact .float hx
  | string hs => exact .string hs
  | quote => exact .quote
  | @symbol s hw hs =>
    have hsymbol := isSymbol_of_ofToken hs
    refine .symbol ?_ ?_ hs
    · rintro rfl
      exact hw.ne_nil rfl
    · intro c hc
      have hfree : Token.breaksSymbol c = false := by
        cases hcs : s.toList with
        | nil => exact absurd hcs hw.ne_nil
        | cons d cs =>
          rw [hcs] at hc hsymbol
          simp only [Token.isSymbol, Bool.and_eq_true, Bool.not_eq_true',
            List.any_eq_false] at hsymbol
          simpa using hsymbol.2 c hc
      simp only [Token.breaksSymbol, Bool.or_eq_false_iff, decide_eq_false_iff_not] at hfree
      exact ⟨hw.notMem_separators c hc, hfree.1.1, hfree.2⟩

/-- **An atom that the reader gives** holds what atoms of its kind hold. -/
theorem Given.payload {config : ReaderConfig} {a : Atom} (h : a.Given config) :
    Payload config a.kind a.value? := by
  cases h with
  | legible ha => exact ha.payload config
  | tooDeep hlimit => exact .tooDeep hlimit
  | openList hstrict => exact .openList hstrict
  | openString _ hstrict => exact .openString hstrict rfl
  | @unreadable w hw hatom =>
    have hnone := fits_of_unreadable hatom
    refine .unreadable hw.ne_nil hw.notMem_separators hw.head ?_
    rcases exists_of_not_isSymbol hw.ne_nil (hw.notMem (by decide)) (hnone .symbol) with
      hmark | hslash | hdigit
    · exact .inl hmark
    · exact .inr (.inl hslash)
    · exact .inr (.inr ⟨hdigit, hnone .int, hnone .float⟩)

end Atom

namespace Reader

/-- **Every atom of a tree that is read** holds what atoms of its kind hold, whatever the text, the
settings and the position are: no backslash is in a string, a symbol is read as itself, no float is
a NaN, and an error tells of the limit, of a truncation that is to show in the tree, or of a token
that is no literal. -/
theorem payload_of_mem (r : Reader) {a : Atom} (h : a ∈ r.parse.1.preorder) :
    Payload r.config a.kind a.value? := by
  rcases r.madeOf_given.forall_mem a h with rfl | rfl | ha
  · exact .nil
  · exact .branch
  · exact ha.payload

/-- A token that is no literal, a string and a list that the text ends in. -/
theorem payload_of_mem_errors :
    let r := ofText "(1'b \"c\\d".toList ⟨none, true⟩
    ∀ message ∈ ["Can't parse: <1'b>", "Unterminated string: <\"cd>", "Unterminated list"],
      .error message ∈ r.parse.1.preorder ∧
        Payload r.config .error (some (.text message)) := by
  intro r message hmessage
  have hread : ∀ m ∈ ["Can't parse: <1'b>", "Unterminated string: <\"cd>", "Unterminated list"],
      Atom.error m ∈ r.reading.here.chain.atoms := by decide
  have hmem : Atom.error message ∈ r.parse.1.preorder := by
    rw [fst_parse, Tree.preorder_eq_atoms]
    exact hread message hmessage
  exact ⟨hmem, payload_of_mem r hmem⟩

end Reader

end Sexpr
