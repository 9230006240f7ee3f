import Sexpr.Proofs.Token.Conversion

/-!
# Tokens that are two literals

A token is asked in a fixed order which literal it is. Two literals fit one token only if one of
them is a symbol and the other one is a number (`Literal.eq_or_symbol_of_fits`): the first character
tells any two others apart, and a point tells a float from an integer. So another order makes no
difference as long as it has numbers before symbols, and any other one does
(`Atom.literals_exclusive`).

* `Literal` is a literal that a token can be, with its predicate `Literal.fits` and its conversion
  `Literal.atom?`.
* `Atom.ofTokenIn?` is the atom of a token when the literals are asked in a given order.
* `Atom.ofToken_cases` says what the atom of a token tells of the predicates.
-/

namespace Sexpr

/-- The literals that a token can be. -/
inductive Literal where
  | int
  | float
  | string
  | symbol
  | quote
  deriving DecidableEq

namespace Literal

/-- The literals in the order in which a token is asked. -/
def all : List Literal := [int, float, string, symbol, quote]

def isNumber : Literal → Bool
  | int => true
  | float => true
  | _ => false

def kind : Literal → Kind
  | int => .int
  | float => .float
  | string => .string
  | symbol => .symbol
  | quote => .quote

/-- Whether a token passes the predicate of a literal. -/
def fits : Literal → List Char → Bool
  | int => Token.isInt
  | float => Token.isFloat
  | string => Token.isString
  | symbol => Token.isSymbol
  | quote => Token.isQuote

/-- The atom of a token as a literal, or nothing if the conversion refuses the token. -/
def atom? : Literal → List Char → Option Atom
  | int, t => (Token.intValue? t).map .int
  | float, t => (Token.floatValue? t).map .float
  | string, t => some (.string (String.ofList (t.drop 1).dropLast))
  | symbol, t => some (.symbol (String.ofList t))
  | quote, _ => some .quote

/-- The characters that a literal can start with. -/
def starts : Literal → Char → Bool
  | int, c => c.isDigit || c = '-'
  | float, c => c.isDigit || c = '-' || c = '.'
  | string, c => c = '"'
  | symbol, c => !c.isDigit && !Token.breaksSymbol c
  | quote, c => c = Text.apostrophe

/-- The first literal in some order that fits a token. -/
def first? (order : List Literal) (t : List Char) : Option Literal := order.find? (·.fits t)

/-- The order asks for numbers before it asks for a symbol. -/
def NumbersFirst (order : List Literal) : Prop :=
  ∀ m, m.isNumber = true → order.idxOf m < order.idxOf symbol

end Literal

/-- The atom of a token when the literals are asked in some order: the first one that fits, or an
error if none does. -/
def Atom.ofTokenIn? (order : List Literal) (t : List Char) : Option Atom :=
  match Literal.first? order t with
  | some l => l.atom? t
  | none => some (.unreadable t)

namespace Literal

variable {t : List Char} {l m : Literal}

theorem mem_all (l : Literal) : l ∈ all := by cases l <;> decide

theorem kind_injective (h : l.kind = m.kind) : l = m := by
  cases l <;> cases m <;> first | rfl | exact absurd h Kind.noConfusion

theorem kind_of_atom? {a : Atom} (h : l.atom? t = some a) : a.kind = l.kind := by
  cases l with
  | int =>
    obtain ⟨n, -, rfl⟩ := Option.map_eq_some_iff.1 h
    rfl
  | float =>
    obtain ⟨x, -, rfl⟩ := Option.map_eq_some_iff.1 h
    rfl
  | string => obtain rfl := Option.some.inj h; rfl
  | symbol => obtain rfl := Option.some.inj h; rfl
  | quote => obtain rfl := Option.some.inj h; rfl

/-! ## The first character -/

/-- A token that fits a literal starts as that literal can. -/
theorem exists_head (h : l.fits t = true) : ∃ c, t.head? = some c ∧ l.starts c = true := by
  cases l with
  | int =>
    obtain ⟨negative, ds, hds, rfl⟩ := Token.isInt_iff.1 h
    have hhead := hds.exists_head negative []
    rwa [List.append_nil] at hhead
  | float =>
    obtain ⟨-, p, rfl⟩ := FloatLiteral.isFloat_iff.1 h
    rw [FloatLiteral.text]
    cases hwhole : p.whole with
    | none => exact ⟨'.', rfl, rfl⟩
    | some part =>
      obtain ⟨c, hc, hstart⟩ := (p.whole_digits hwhole).exists_head part.1
        ('.' :: (p.fraction ++ FloatLiteral.markText p.exponent))
      refine ⟨c, by rw [← hc, ← List.append_assoc]; rfl, ?_⟩
      rw [starts, hstart, Bool.true_or]
  | string =>
    simp only [fits, Token.isString, Bool.and_eq_true, decide_eq_true_eq] at h
    exact ⟨'"', h.1.2, rfl⟩
  | symbol =>
    cases t with
    | nil => exact absurd h Bool.false_ne_true
    | cons c t =>
      simp only [fits, Token.isSymbol, List.any_cons, Bool.not_or, Bool.and_eq_true] at h
      refine ⟨c, rfl, ?_⟩
      rw [starts, h.1, h.2.1]
      rfl
  | quote =>
    rw [fits, Token.isQuote, decide_eq_true_eq] at h
    exact ⟨Text.apostrophe, by rw [h]; rfl, rfl⟩

/-- Numbers apart, no character starts two literals, unless one is a symbol and the other one is a
number that starts with a minus or a point. -/
theorem starts_disjoint {c : Char} (hl : l.starts c = true) (hm : m.starts c = true) :
    l = m ∨ (l.isNumber = true ∧ m.isNumber = true) ∨
      ((l = symbol ∧ m.isNumber = true ∨ m = symbol ∧ l.isNumber = true) ∧
        (c = '-' ∨ c = '.')) := by
  have hdigit : c.isDigit = true → c ≠ '"' ∧ c ≠ Text.apostrophe := by
    intro hc
    constructor <;> rintro rfl <;> exact absurd hc (by decide)
  -- what is left are the characters that the two share
  cases l <;> cases m <;>
    grind -ring -linarith [starts, isNumber, Token.breaksSymbol, Text.apostrophe]

/-! ## Two literals for one token -/

theorem eq_of_isNumber (hl : l.fits t = true) (hm : m.fits t = true) (hnumber : l.isNumber = true)
    (hnumber' : m.isNumber = true) : l = m := by
  have hne : ¬(Token.isInt t = true ∧ Token.isFloat t = true) := by
    rintro ⟨hint, hfloat⟩
    obtain ⟨-, p, rfl⟩ := FloatLiteral.isFloat_iff.1 hfloat
    rw [p.not_isInt_text] at hint
    exact Bool.false_ne_true hint
  cases l with
  | int =>
    cases m with
    | int => rfl
    | float => exact absurd ⟨hl, hm⟩ hne
    | _ => exact absurd hnumber' Bool.false_ne_true
  | float =>
    cases m with
    | int => exact absurd ⟨hm, hl⟩ hne
    | float => rfl
    | _ => exact absurd hnumber' Bool.false_ne_true
  | _ => exact absurd hnumber Bool.false_ne_true

/-- **Two literals that fit one token** are a symbol and a number, and the token starts with a minus
or a point. -/
theorem eq_or_symbol_of_fits (hl : l.fits t = true) (hm : m.fits t = true) :
    l = m ∨ ((l = symbol ∧ m.isNumber = true ∨ m = symbol ∧ l.isNumber = true) ∧
      (t.head? = some '-' ∨ t.head? = some '.')) := by
  obtain ⟨c, hc, hstarts⟩ := exists_head hl
  obtain ⟨d, hd, hstarts'⟩ := exists_head hm
  obtain rfl : c = d := Option.some.inj (hc.symm.trans hd)
  rcases starts_disjoint hstarts hstarts' with heq | ⟨hnumber, hnumber'⟩ | ⟨hsymbol, hchar⟩
  · exact .inl heq
  · exact .inl (eq_of_isNumber hl hm hnumber hnumber')
  · rw [hc]
    exact .inr ⟨hsymbol, hchar.imp (congrArg some) (congrArg some)⟩

/-- A symbol that is another literal is a number. -/
theorem isNumber_of_symbol (hsymbol : symbol.fits t = true) (hm : m.fits t = true)
    (hne : m ≠ symbol) : m.isNumber = true ∧ (t.head? = some '-' ∨ t.head? = some '.') := by
  rcases eq_or_symbol_of_fits hsymbol hm with rfl | ⟨⟨-, hnumber⟩ | ⟨rfl, -⟩, hhead⟩
  · exact absurd rfl hne
  · exact ⟨hnumber, hhead⟩
  · exact absurd rfl hne

/-! ## The first literal that fits -/

variable {order : List Literal}

theorem numbersFirst_iff : NumbersFirst order ↔
    order.idxOf int < order.idxOf symbol ∧ order.idxOf float < order.idxOf symbol := by
  constructor
  · exact fun h => ⟨h int rfl, h float rfl⟩
  · rintro ⟨hint, hfloat⟩ m hm
    cases m with
    | int => exact hint
    | float => exact hfloat
    | _ => exact absurd hm Bool.false_ne_true

theorem numbersFirst_all : NumbersFirst all := numbersFirst_iff.2 (by decide)

theorem first?_cons_of_fits (h : l.fits t = true) (order : List Literal) :
    first? (l :: order) t = some l := List.find?_cons_of_pos h

theorem first?_cons_of_not_fits (h : ¬l.fits t = true) (order : List Literal) :
    first? (l :: order) t = first? order t := List.find?_cons_of_neg h

theorem fits_of_first? (h : first? order t = some l) : l.fits t = true := by
  simpa using List.find?_some h

theorem first?_eq_none : first? order t = none ↔ ∀ l ∈ order, l.fits t = false := by
  simp only [first?, List.find?_eq_none, Bool.not_eq_true]

/-- Nothing that fits is asked before the literal that is found. -/
theorem idxOf_le_of_first? (h : first? order t = some l) (hm : m.fits t = true) :
    order.idxOf l ≤ order.idxOf m := by
  have hl := fits_of_first? h
  induction order with
  | nil => exact absurd h.symm (Option.some_ne_none l)
  | cons x order ih =>
    by_cases hx : x.fits t = true
    · rw [first?_cons_of_fits hx] at h
      rw [List.idxOf_cons_eq order (Option.some.inj h)]
      exact Nat.zero_le _
    · rw [first?_cons_of_not_fits hx] at h
      have hxl : x ≠ l := by rintro rfl; exact hx hl
      have hxm : x ≠ m := by rintro rfl; exact hx hm
      rw [List.idxOf_cons_ne order hxl, List.idxOf_cons_ne order hxm]
      exact Nat.succ_le_succ (ih h)

/-- With numbers first, a symbol is found only where no number fits. -/
theorem NumbersFirst.fits_eq_false (h : NumbersFirst order)
    (hfirst : first? order t = some symbol) (hm : m.isNumber = true) :
    m.fits t = false := by
  rw [← Bool.not_eq_true]
  intro hfits
  exact absurd (h m hm) (Nat.not_lt.2 (idxOf_le_of_first? hfirst hfits))

/-- Two orders with numbers first find the same literal. -/
theorem NumbersFirst.eq_of_first? {order' : List Literal} (h : NumbersFirst order)
    (h' : NumbersFirst order') (hfirst : first? order t = some l)
    (hfirst' : first? order' t = some m) : l = m := by
  have hl := fits_of_first? hfirst
  have hm := fits_of_first? hfirst'
  rcases eq_or_symbol_of_fits hl hm with heq | ⟨⟨rfl, hnumber⟩ | ⟨rfl, hnumber⟩, -⟩
  · exact heq
  · rw [h.fits_eq_false hfirst hnumber] at hm
    exact absurd hm Bool.false_ne_true
  · rw [h'.fits_eq_false hfirst' hnumber] at hl
    exact absurd hl Bool.false_ne_true

theorem NumbersFirst.first?_eq (h : NumbersFirst order) (hall : ∀ l, l ∈ order) (t : List Char) :
    first? order t = first? all t := by
  cases hfirst : first? order t with
  | none =>
    rw [first?_eq_none] at hfirst
    symm
    rw [first?_eq_none]
    exact fun l _ => hfirst l (hall l)
  | some l =>
    cases hfirst' : first? all t with
    | none =>
      have hnone := first?_eq_none.1 hfirst' l l.mem_all
      rw [fits_of_first? hfirst] at hnone
      exact absurd hnone.symm Bool.false_ne_true
    | some m => rw [h.eq_of_first? numbersFirst_all hfirst hfirst']

/-- A token that is a symbol and a number is found to be a symbol if that is asked first. -/
theorem first?_eq_symbol (hall : ∀ l, l ∈ order) (hm : m.isNumber = true) (hfits : m.fits t = true)
    (hsymbol : symbol.fits t = true) (hle : order.idxOf symbol ≤ order.idxOf m) :
    first? order t = some symbol := by
  cases hfirst : first? order t with
  | none =>
    have hnone := first?_eq_none.1 hfirst symbol (hall symbol)
    rw [hsymbol] at hnone
    exact absurd hnone.symm Bool.false_ne_true
  | some l =>
    have hl := fits_of_first? hfirst
    rcases eq_or_symbol_of_fits hl hsymbol with rfl | ⟨⟨-, hnumber⟩ | ⟨-, hnumber⟩, -⟩
    · rfl
    · exact absurd hnumber Bool.false_ne_true
    · -- the number that is found stands where the symbol does
      obtain rfl := eq_of_isNumber hl hfits hnumber hm
      have hidx := Nat.le_antisymm (idxOf_le_of_first? hfirst hsymbol) hle
      rw [(List.idxOf_inj (hall l)).1 hidx]

/-- Each number has a token that is a symbol too. -/
theorem exists_number_symbol (hm : m.isNumber = true) :
    ∃ t, m.fits t = true ∧ symbol.fits t = true := by
  cases m with
  | int => exact ⟨['-', '1'], by decide, by decide⟩
  | float => exact ⟨['.', '5'], by decide, by decide⟩
  | _ => exact absurd hm Bool.false_ne_true

end Literal

/-! ## The atom of a token -/

namespace Atom

open Literal

variable {t : List Char}

/-- The standard order. -/
theorem ofToken?_eq (t : List Char) : ofToken? t = ofTokenIn? Literal.all t := by
  rw [ofToken?, ofTokenIn?, Literal.all]
  by_cases hint : Token.isInt t = true
  · rw [if_pos hint, first?_cons_of_fits (l := .int) hint]
    rfl
  rw [if_neg hint, first?_cons_of_not_fits (l := .int) hint]
  by_cases hfloat : Token.isFloat t = true
  · rw [if_pos hfloat, first?_cons_of_fits (l := .float) hfloat]
    rfl
  rw [if_neg hfloat, first?_cons_of_not_fits (l := .float) hfloat]
  by_cases hstring : Token.isString t = true
  · rw [if_pos hstring, first?_cons_of_fits (l := .string) hstring]
    rfl
  rw [if_neg hstring, first?_cons_of_not_fits (l := .string) hstring]
  by_cases hsymbol : Token.isSymbol t = true
  · rw [if_pos hsymbol, first?_cons_of_fits (l := .symbol) hsymbol]
    rfl
  rw [if_neg hsymbol, first?_cons_of_not_fits (l := .symbol) hsymbol]
  by_cases hquote : Token.isQuote t = true
  · rw [if_pos hquote, first?_cons_of_fits (l := .quote) hquote]
    rfl
  rw [if_neg hquote, first?_cons_of_not_fits (l := .quote) hquote]
  rfl

/-- **What the atom of a token tells**: it is one of the first literal that fits, or an error, and
then none does. -/
theorem ofToken_cases (t : List Char) :
    (∃ l, first? Literal.all t = some l ∧ (ofToken t).kind = l.kind) ∨
      (∀ l : Literal, l.fits t = false) ∧ ofToken t = unreadable t := by
  have hatom := ofToken?_eq_some t
  rw [ofToken?_eq, ofTokenIn?] at hatom
  cases hfirst : first? Literal.all t with
  | some l =>
    rw [hfirst] at hatom
    exact .inl ⟨l, rfl, kind_of_atom? hatom⟩
  | none =>
    rw [hfirst] at hatom
    exact .inr ⟨fun l => first?_eq_none.1 hfirst l l.mem_all, (Option.some.inj hatom).symm⟩

/-- An order makes no difference as long as it has numbers first. -/
theorem ofTokenIn?_of_numbersFirst {order : List Literal} (h : NumbersFirst order)
    (hall : ∀ l, l ∈ order) (t : List Char) : ofTokenIn? order t = ofToken? t := by
  rw [ofToken?_eq, ofTokenIn?, ofTokenIn?, h.first?_eq hall]

/-- Any other order makes one. -/
theorem exists_ofTokenIn?_ne {order : List Literal} (h : ¬NumbersFirst order)
    (hall : ∀ l, l ∈ order) : ∃ t, ofTokenIn? order t ≠ ofToken? t := by
  simp only [NumbersFirst, not_forall, Nat.not_lt] at h
  obtain ⟨m, hm, hle⟩ := h
  obtain ⟨t, hfits, hsymbol⟩ := exists_number_symbol hm
  refine ⟨t, fun heq => ?_⟩
  rw [ofTokenIn?, first?_eq_symbol hall hm hfits hsymbol hle, ofToken?_eq_some] at heq
  have hkind : (ofToken t).kind = .symbol := kind_of_atom? heq
  -- in the standard order the token is a number
  rcases ofToken_cases t with ⟨l, hl, hkind'⟩ | ⟨hnone, -⟩
  · obtain rfl := kind_injective (m := .symbol) (hkind'.symm.trans hkind)
    rw [numbersFirst_all.fits_eq_false hl hm] at hfits
    exact Bool.false_ne_true hfits
  · rw [hnone m] at hfits
    exact Bool.false_ne_true hfits

/-- **Literals exclude each other.** At most one of an integer, a float, a string and a quotation
mark fits a token. A symbol fits no token that is a string or a quotation mark, and one that is a
number only if it starts with a minus or a point. So of all the orders in which the five can be
asked, those make no difference that have the two numbers before the symbol, and only those. -/
theorem literals_exclusive :
    (∀ (t : List Char) (l m : Literal), l ≠ .symbol → m ≠ .symbol → l.fits t = true →
        m.fits t = true → l = m) ∧
      (∀ t, Token.isSymbol t = true → Token.isString t = false ∧ Token.isQuote t = false ∧
        (Token.isInt t = true ∨ Token.isFloat t = true →
          t.head? = some '-' ∨ t.head? = some '.')) ∧
      ∀ order : List Literal, (∀ l, l ∈ order) →
        (order.idxOf .int < order.idxOf .symbol ∧ order.idxOf .float < order.idxOf .symbol ↔
          ∀ t, ofTokenIn? order t = ofToken? t) := by
  refine ⟨?_, ?_, ?_⟩
  · intro t l m hl hm hfits hfits'
    rcases eq_or_symbol_of_fits hfits hfits' with heq | ⟨⟨rfl, -⟩ | ⟨rfl, -⟩, -⟩
    · exact heq
    · exact absurd rfl hl
    · exact absurd rfl hm
  · intro t hsymbol
    have hother : ∀ m : Literal, m ≠ .symbol → m.fits t = true →
        m.isNumber = true ∧ (t.head? = some '-' ∨ t.head? = some '.') :=
      fun m hne hm => isNumber_of_symbol hsymbol hm hne
    refine ⟨?_, ?_, ?_⟩
    · rw [← Bool.not_eq_true]
      exact fun h => Bool.false_ne_true (hother .string Literal.noConfusion h).1
    · rw [← Bool.not_eq_true]
      exact fun h => Bool.false_ne_true (hother .quote Literal.noConfusion h).1
    · rintro (hint | hfloat)
      · exact (hother .int Literal.noConfusion hint).2
      · exact (hother .float Literal.noConfusion hfloat).2
  · intro order hall
    rw [← numbersFirst_iff]
    constructor
    · exact fun h => ofTokenIn?_of_numbersFirst h hall
    · intro h
      by_contra hnot
      obtain ⟨t, ht⟩ := exists_ofTokenIn?_ne hnot hall
      exact ht (h t)

end Atom

end Sexpr
