import Sexpr.Token
import Sexpr.Proofs.Numeral.Blocks

/-!
# Float literals in parts

A `FloatLiteral` is what a float may look like: digits may be missing before its point, behind it,
or in both places if there is an exponent. The tokens that are floats are these texts without the
point alone (`FloatLiteral.isFloat_iff`). One with a digit before its exponent is read as the
decimal number that it spells, another one is refused (`FloatLiteral.read?_text`), and so each is
converted (`FloatLiteral.ofToken?_text`).

`FloatParts` are the parts of the literals that numbers are written as: they have digits on both
sides of the point (`ofToken_text`).
-/

namespace Sexpr

/-- The parts of a float literal: its sign, the digits before and behind its point, and of the
exponent, if there is one, the sign and the digits. -/
structure FloatParts where
  negative : Bool
  whole : List Char
  fraction : List Char
  exponent : Option (Bool × List Char)

namespace FloatParts

/-- A minus, or nothing. -/
def signText (negative : Bool) : List Char := if negative then ['-'] else []

def exponentText : Option (Bool × List Char) → List Char
  | none => []
  | some (negative, ds) => 'e' :: signText negative ++ ds

/-- The literal. -/
def text (p : FloatParts) : List Char :=
  signText p.negative ++ p.whole ++ '.' :: (p.fraction ++ exponentText p.exponent)

def exponentValue : Option (Bool × List Char) → Int
  | none => 0
  | some (negative, ds) =>
    if negative then -(Nat.ofDigitChars 10 ds 0 : Int) else Nat.ofDigitChars 10 ds 0

/-- The decimal number that the literal spells. -/
def decimal (p : FloatParts) : Decimal :=
  ⟨p.negative, Nat.ofDigitChars 10 (p.whole ++ p.fraction) 0,
    exponentValue p.exponent - p.fraction.length⟩

/-- One or more digits. -/
def IsDigits (ds : List Char) : Prop := ds ≠ [] ∧ ds.all Char.isDigit = true

/-- Digits with a sign in front start with a digit or with a minus. -/
theorem IsDigits.exists_head {ds : List Char} (h : IsDigits ds) (negative : Bool)
    (rest : List Char) :
    ∃ c, (signText negative ++ (ds ++ rest)).head? = some c ∧
      (c.isDigit || c = '-') = true := by
  obtain ⟨hne, hall⟩ := h
  cases negative with
  | true => exact ⟨'-', rfl, rfl⟩
  | false =>
    cases ds with
    | nil => exact absurd rfl hne
    | cons d ds =>
      rw [List.all_cons, Bool.and_eq_true] at hall
      refine ⟨d, rfl, ?_⟩
      rw [hall.1, Bool.true_or]

/-- Wherever digits can stand, some do. -/
structure Complete (p : FloatParts) : Prop where
  whole : IsDigits p.whole
  fraction : IsDigits p.fraction
  exponent : ∀ negative ds, p.exponent = some (negative, ds) → IsDigits ds

end FloatParts

open FloatParts (signText IsDigits exponentValue)

/-- The parts of a float literal, wherever digits may be missing: before the point a sign and some
digits or nothing, behind it any digits, and then a mark with a sign and some digits or nothing. -/
structure FloatLiteral where
  whole : Option (Bool × List Char)
  fraction : List Char
  exponent : Option (Char × Bool × List Char)
  whole_digits : ∀ {negative ds}, whole = some (negative, ds) → IsDigits ds
  fraction_digits : fraction.all Char.isDigit = true
  exponent_digits : ∀ {mark negative ds}, exponent = some (mark, negative, ds) →
    (mark = 'e' ∨ mark = 'E') ∧ IsDigits ds

namespace FloatLiteral

def wholeText : Option (Bool × List Char) → List Char
  | none => []
  | some (negative, ds) => signText negative ++ ds

def markText : Option (Char × Bool × List Char) → List Char
  | none => []
  | some (mark, negative, ds) => mark :: (signText negative ++ ds)

/-- The literal. -/
def text (p : FloatLiteral) : List Char :=
  wholeText p.whole ++ '.' :: (p.fraction ++ markText p.exponent)

/-- Whether the literal starts with a minus. -/
def negative (p : FloatLiteral) : Bool := (p.whole.map (·.1)).getD false

/-- The digits before the exponent. -/
def digits (p : FloatLiteral) : List Char := (p.whole.map (·.2)).getD [] ++ p.fraction

/-- The decimal number that the literal spells. -/
def decimal (p : FloatLiteral) : Decimal :=
  ⟨p.negative, Nat.ofDigitChars 10 p.digits 0,
    exponentValue (p.exponent.map (·.2)) - p.fraction.length⟩

end FloatLiteral

namespace Token

/-! ## Looking for a character -/

theorem splitFirst?_append {c : Char} {a : List Char} (h : c ∉ a) (b : List Char) :
    splitFirst? c (a ++ c :: b) = some (a, b) := by
  induction a with
  | nil => simp [splitFirst?]
  | cons d a ih =>
    rw [List.mem_cons, not_or] at h
    rw [List.cons_append, splitFirst?, if_neg (Ne.symm h.1), ih h.2]
    rfl

theorem splitFirst?_eq_none {c : Char} {t : List Char} (h : c ∉ t) : splitFirst? c t = none := by
  induction t with
  | nil => rfl
  | cons d t ih =>
    rw [List.mem_cons, not_or] at h
    rw [splitFirst?, if_neg (Ne.symm h.1), ih h.2]
    rfl

theorem splitFirst?_eq_some {c : Char} {t a b : List Char} (h : splitFirst? c t = some (a, b)) :
    t = a ++ c :: b := by
  induction t generalizing a b with
  | nil => exact absurd h (by simp [splitFirst?])
  | cons d t ih =>
    rw [splitFirst?] at h
    split at h
    · next hd =>
      obtain ⟨rfl, rfl⟩ := Prod.mk.inj (Option.some.inj h)
      rw [hd, List.nil_append]
    · obtain ⟨⟨a', b'⟩, hsplit, hab⟩ := Option.map_eq_some_iff.1 h
      obtain ⟨rfl, rfl⟩ := Prod.mk.inj hab
      rw [ih hsplit, List.cons_append]

theorem not_mem_of_isDigit {c : Char} (hc : c.isDigit = false) {ds : List Char}
    (h : ds.all Char.isDigit = true) : c ∉ ds := by
  intro hmem
  rw [List.all_eq_true] at h
  rw [h c hmem] at hc
  exact absurd hc (by decide)

/-- A row of digits starts with a digit, also when something follows it. -/
theorem ne_cons_of_isDigits {ds : List Char} (h : IsDigits ds) {c : Char}
    (hc : c.isDigit = false) (rest more : List Char) : ds ++ rest ≠ c :: more := by
  obtain ⟨hne, hall⟩ := h
  cases ds with
  | nil => exact absurd rfl hne
  | cons d ds =>
    rw [List.cons_append]
    rintro heq
    obtain ⟨rfl, -⟩ := List.cons.inj heq
    exact not_mem_of_isDigit hc hall List.mem_cons_self

/-! ## The predicates -/

theorem isNatural_iff {t : List Char} : isNatural t = true ↔ IsDigits t := by
  simp [isNatural, IsDigits]

theorem isInt_sign {ds : List Char} (h : IsDigits ds) (negative : Bool) :
    isInt (signText negative ++ ds) = true := by
  have hne := ne_cons_of_isDigits h (c := '-') (by decide) []
  rw [List.append_nil] at hne
  cases negative with
  | true => exact isNatural_iff.2 h
  | false =>
    simp only [signText, Bool.false_eq_true, ↓reduceIte, List.nil_append]
    rw [isInt]
    · exact isNatural_iff.2 h
    · exact hne

/-- A row of digits has its positional value, with a minus in front of it its negative. -/
theorem intValue?_sign {ds : List Char} (h : IsDigits ds) (negative : Bool) :
    intValue? (signText negative ++ ds) =
      some (if negative then -(Nat.ofDigitChars 10 ds 0 : Int) else Nat.ofDigitChars 10 ds 0) := by
  have hvalue := Numeral.value?_eq h.2
  have hne := ne_cons_of_isDigits h (c := '-') (by decide) []
  rw [List.append_nil] at hne
  cases negative with
  | true =>
    simp only [signText, ↓reduceIte, List.singleton_append]
    rw [intValue?, hvalue]
    rfl
  | false =>
    simp only [signText, Bool.false_eq_true, ↓reduceIte, List.nil_append]
    rw [intValue?, hvalue]
    · rfl
    · exact hne

/-- An integer is a sign and some digits. -/
theorem isInt_iff {t : List Char} :
    isInt t = true ↔ ∃ negative ds, IsDigits ds ∧ t = signText negative ++ ds := by
  constructor
  · intro h
    unfold isInt at h
    split at h
    · next ds => exact ⟨true, ds, isNatural_iff.1 h, rfl⟩
    · exact ⟨false, t, isNatural_iff.1 h, rfl⟩
  · rintro ⟨negative, ds, hds, rfl⟩
    exact isInt_sign hds negative

theorem not_isNatural_of_mem {c : Char} (hc : c.isDigit = false) {t : List Char} (h : c ∈ t) :
    isNatural t = false := by
  have hall : t.all Char.isDigit = false := by
    rw [Bool.eq_false_iff]
    exact fun hall => not_mem_of_isDigit hc hall h
  simp [isNatural, hall]

theorem not_isInt_of_mem {c : Char} (hc : c.isDigit = false) (hm : c ≠ '-') {t : List Char}
    (h : c ∈ t) : isInt t = false := by
  unfold isInt
  split
  · next ds =>
    rw [List.mem_cons] at h
    exact not_isNatural_of_mem hc (h.resolve_left hm)
  · exact not_isNatural_of_mem hc h

/-! ## The conversion -/

/-- A row of digits does not start with a sign. -/
theorem splitSign_digits {ds : List Char} (h : IsDigits ds) (negative : Bool) (rest : List Char) :
    Decimal.splitSign (signText negative ++ (ds ++ rest)) = (negative, ds ++ rest) := by
  cases negative with
  | true => rfl
  | false =>
    simp only [signText, Bool.false_eq_true, ↓reduceIte, List.nil_append]
    rw [Decimal.splitSign]
    · exact ne_cons_of_isDigits h (by decide) rest
    · exact ne_cons_of_isDigits h (by decide) rest

theorem takeWhile_digits {ds : List Char} (h : ds.all Char.isDigit = true) {rest : List Char}
    (hrest : rest.takeWhile Char.isDigit = []) : (ds ++ rest).takeWhile Char.isDigit = ds := by
  rw [List.takeWhile_append_of_pos (List.all_eq_true.1 h), hrest, List.append_nil]

theorem dropWhile_digits {ds : List Char} (h : ds.all Char.isDigit = true) {rest : List Char}
    (hrest : rest.takeWhile Char.isDigit = []) : (ds ++ rest).dropWhile Char.isDigit = rest := by
  have hsplit := List.takeWhile_append_dropWhile (p := Char.isDigit) (l := rest)
  rw [hrest, List.nil_append] at hsplit
  rw [List.dropWhile_append_of_pos (List.all_eq_true.1 h), hsplit]

end Token

/-! ## Literals -/

namespace FloatLiteral

open Token

variable (p : FloatLiteral)

theorem not_mem_wholeText {c : Char} (hc : c.isDigit = false) (hm : c ≠ '-') :
    c ∉ wholeText p.whole := by
  cases hw : p.whole with
  | none => exact List.not_mem_nil
  | some part =>
    rw [wholeText, List.mem_append, not_or]
    refine ⟨?_, not_mem_of_isDigit hc (p.whole_digits hw).2⟩
    cases part.1 <;> simp [signText, hm]

theorem splitFirst?_text :
    splitFirst? '.' p.text = some (wholeText p.whole, p.fraction ++ markText p.exponent) :=
  splitFirst?_append (p.not_mem_wholeText (by decide) (by decide)) _

/-- The exponent is split off at its mark, whichever it is. -/
theorem splitExponent?_text :
    splitExponent? (p.fraction ++ markText p.exponent) =
      p.exponent.map fun (_, negative, ds) => (p.fraction, signText negative ++ ds) := by
  have he : 'e' ∉ p.fraction := not_mem_of_isDigit (by decide) p.fraction_digits
  have hE : 'E' ∉ p.fraction := not_mem_of_isDigit (by decide) p.fraction_digits
  unfold splitExponent?
  cases hexp : p.exponent with
  | none =>
    rw [markText, List.append_nil, splitFirst?_eq_none he, splitFirst?_eq_none hE]
    rfl
  | some part =>
    obtain ⟨mark, minus, ds⟩ := part
    obtain ⟨hmark, hds⟩ := p.exponent_digits hexp
    rcases hmark with rfl | rfl
    · rw [markText, splitFirst?_append he]
      rfl
    · -- there is no `e` anywhere, so the other mark is looked for
      have hnone : 'e' ∉ p.fraction ++ 'E' :: (signText minus ++ ds) := by
        have hdigits := not_mem_of_isDigit (c := 'e') (by decide) hds.2
        cases minus <;> simp [signText, he, hdigits]
      rw [markText, splitFirst?_eq_none hnone, splitFirst?_append hE]
      rfl

/-- A literal is a float, unless it is a point alone. -/
theorem isFloat_text (h : p.text ≠ ['.']) : isFloat p.text = true := by
  have hwhole : wholeText p.whole = [] ∨ isInt (wholeText p.whole) = true := by
    cases hw : p.whole with
    | none => exact .inl rfl
    | some part => exact .inr (isInt_sign (p.whole_digits hw) part.1)
  have hfraction : isFraction (p.fraction ++ markText p.exponent) = true := by
    have hds : p.fraction = [] ∨ isNatural p.fraction = true := by
      by_cases hnil : p.fraction = []
      · exact .inl hnil
      · exact .inr (isNatural_iff.2 ⟨hnil, p.fraction_digits⟩)
    rw [isFraction, splitExponent?_text]
    cases hexp : p.exponent with
    | none => simpa [markText] using hds
    | some part => simpa [isInt_sign (p.exponent_digits hexp).2] using hds
  have hne : ¬(wholeText p.whole = [] ∧ p.fraction ++ markText p.exponent = []) := by
    rintro ⟨hw, hf⟩
    exact h (by rw [text, hw, hf, List.nil_append])
  rw [isFloat, splitFirst?_text]
  simp only [Bool.and_eq_true, Bool.or_eq_true, Bool.not_eq_true', Bool.and_eq_false_imp,
    decide_eq_true_eq, decide_eq_false_iff_not]
  exact ⟨⟨hwhole, not_and.1 hne⟩, hfraction⟩

/-- What may stand before the point of a float. -/
theorem exists_wholeText {t : List Char} (h : t = [] ∨ isInt t = true) :
    ∃ whole, wholeText whole = t ∧
      ∀ {negative ds}, whole = some (negative, ds) → IsDigits ds := by
  rcases h with rfl | hint
  · exact ⟨none, rfl, fun h => absurd h (by simp)⟩
  · obtain ⟨negative, ds, hds, rfl⟩ := isInt_iff.1 hint
    refine ⟨some (negative, ds), rfl, ?_⟩
    intro _ _ heq
    obtain ⟨-, rfl⟩ := Prod.mk.inj (Option.some.inj heq)
    exact hds

theorem splitExponent?_eq_some {t ds exponent : List Char}
    (h : splitExponent? t = some (ds, exponent)) :
    ∃ mark, (mark = 'e' ∨ mark = 'E') ∧ t = ds ++ mark :: exponent := by
  rw [splitExponent?, Option.or_eq_some_iff] at h
  rcases h with h | ⟨-, h⟩
  · exact ⟨'e', .inl rfl, splitFirst?_eq_some h⟩
  · exact ⟨'E', .inr rfl, splitFirst?_eq_some h⟩

theorem all_isDigit_of_or {ds : List Char} (h : ds = [] ∨ isNatural ds = true) :
    ds.all Char.isDigit = true := by
  rcases h with rfl | h
  · rfl
  · exact (isNatural_iff.1 h).2

/-- What may stand behind the point of a float. -/
theorem exists_fraction {t : List Char} (h : isFraction t = true) :
    ∃ fraction exponent, t = fraction ++ markText exponent ∧ fraction.all Char.isDigit = true ∧
      ∀ {mark negative ds}, exponent = some (mark, negative, ds) →
        (mark = 'e' ∨ mark = 'E') ∧ IsDigits ds := by
  rw [isFraction] at h
  split at h
  · rw [Bool.or_eq_true, decide_eq_true_eq] at h
    exact ⟨t, none, (List.append_nil t).symm, all_isDigit_of_or h, fun h => absurd h (by simp)⟩
  · next ds exponent hsplit =>
    rw [Bool.and_eq_true, Bool.or_eq_true, decide_eq_true_eq] at h
    obtain ⟨mark, hmark, rfl⟩ := splitExponent?_eq_some hsplit
    obtain ⟨negative, es, hes, rfl⟩ := isInt_iff.1 h.2
    refine ⟨ds, some (mark, negative, es), rfl, all_isDigit_of_or h.1, ?_⟩
    intro _ _ _ heq
    simp only [Option.some.injEq, Prod.mk.injEq] at heq
    obtain ⟨rfl, -, rfl⟩ := heq
    exact ⟨hmark, hes⟩

/-- **The tokens that are floats** are the literals, without the point alone. -/
theorem isFloat_iff {t : List Char} :
    isFloat t = true ↔ t ≠ ['.'] ∧ ∃ p : FloatLiteral, p.text = t := by
  constructor
  · intro h
    rw [isFloat] at h
    split at h
    · exact absurd h Bool.false_ne_true
    · next whole fraction hsplit =>
      simp only [Bool.and_eq_true, Bool.or_eq_true, Bool.not_eq_true', Bool.and_eq_false_imp,
        decide_eq_true_eq, decide_eq_false_iff_not] at h
      obtain ⟨⟨hwhole, hne⟩, hfraction⟩ := h
      obtain ⟨w, rfl, hw⟩ := exists_wholeText hwhole
      obtain ⟨f, e, rfl, hf, he⟩ := exists_fraction hfraction
      refine ⟨?_, ⟨w, f, e, hw, hf, he⟩, (splitFirst?_eq_some hsplit).symm⟩
      rintro rfl
      simp [splitFirst?] at hsplit
      exact hne hsplit.1 (by simpa using hsplit.2)
  · rintro ⟨hpoint, p, rfl⟩
    exact p.isFloat_text hpoint

/-! ## The value -/

/-- Digits with a point behind them do not start with a sign. -/
theorem splitSign_wholeText (rest : List Char) :
    Decimal.splitSign (wholeText p.whole ++ '.' :: rest) =
      (p.negative, (p.whole.map (·.2)).getD [] ++ '.' :: rest) := by
  cases hw : p.whole with
  | none => simp [wholeText, negative, hw, Decimal.splitSign]
  | some part =>
    rw [wholeText, List.append_assoc, splitSign_digits (p.whole_digits hw)]
    simp [negative, hw]

theorem all_isDigit_whole : ((p.whole.map (·.2)).getD []).all Char.isDigit = true := by
  cases hw : p.whole with
  | none => rfl
  | some part => exact (p.whole_digits hw).2

theorem readExponent?_markText :
    Decimal.readExponent? (markText p.exponent) =
      some (exponentValue (p.exponent.map (·.2))) := by
  cases hexp : p.exponent with
  | none => rfl
  | some part =>
    obtain ⟨mark, minus, ds⟩ := part
    obtain ⟨hmark, hds⟩ := p.exponent_digits hexp
    have hsign := splitSign_digits hds minus []
    rw [List.append_nil] at hsign
    rw [markText, Decimal.readExponent?, hsign]
    simp [hmark, hds.1, hds.2, exponentValue]

/-- **A literal with a digit before its exponent** is read as the decimal number that it spells,
and another one is refused. -/
theorem read?_text :
    Decimal.read? p.text = if p.digits = [] then none else some p.decimal := by
  have hpoint : ('.' :: (p.fraction ++ markText p.exponent)).takeWhile Char.isDigit = [] := rfl
  have hmark : (markText p.exponent).takeWhile Char.isDigit = [] := by
    cases hexp : p.exponent with
    | none => rfl
    | some part =>
      rcases (p.exponent_digits hexp).1 with h | h <;> simp [markText, h, Char.isDigit]
  unfold Decimal.read?
  rw [text, splitSign_wholeText]
  simp only [takeWhile_digits p.all_isDigit_whole hpoint,
    dropWhile_digits p.all_isDigit_whole hpoint, Decimal.splitFraction,
    takeWhile_digits p.fraction_digits hmark, dropWhile_digits p.fraction_digits hmark,
    readExponent?_markText, Option.map_some, ← List.append_eq_nil_iff]
  rfl

theorem any_isDigit_iff {ds : List Char} (h : ds.all Char.isDigit = true) :
    ds.any Char.isDigit = true ↔ ds ≠ [] := by
  cases ds with
  | nil => simp
  | cons d ds =>
    rw [List.all_cons, Bool.and_eq_true] at h
    simp [h.1]

/-- Whether there is a digit before the exponent. -/
theorem any_isDigit_mantissa : (mantissa p.text).any Char.isDigit = true ↔ p.digits ≠ [] := by
  have hmantissa : mantissa p.text = wholeText p.whole ++ p.fraction := by
    rw [mantissa, splitFirst?_text]
    simp only [splitExponent?_text]
    cases p.exponent with
    | none => simp [markText]
    | some part => rfl
  have hwhole : (wholeText p.whole).any Char.isDigit =
      ((p.whole.map (·.2)).getD []).any Char.isDigit := by
    cases p.whole with
    | none => rfl
    | some part => cases hsign : part.1 <;> simp [wholeText, signText, hsign, Char.isDigit]
  have hall : p.digits.all Char.isDigit = true := by
    rw [digits, List.all_append, p.all_isDigit_whole, p.fraction_digits]
    rfl
  rw [hmantissa, List.any_append, hwhole, ← List.any_append]
  exact any_isDigit_iff hall

/-- A float has a point, and an integer has none. -/
theorem not_isInt_text : isInt p.text = false := by
  refine not_isInt_of_mem (c := '.') (by decide) (by decide) ?_
  rw [text]
  exact List.mem_append_right _ List.mem_cons_self

/-- **A float literal** is a float: the one that its decimal number is rounded to, or zero if no
digit stands before its exponent. -/
theorem ofToken?_text (h : p.text ≠ ['.']) :
    Atom.ofToken? p.text =
      some (.float
        (if p.digits = [] then Binary64.zero false else Binary64.ofDecimal p.decimal)) := by
  rw [Atom.ofToken?, if_neg (by simp [p.not_isInt_text]), if_pos (p.isFloat_text h), floatValue?,
    read?_text]
  by_cases hdigits : p.digits = []
  · rw [if_neg (fun hany => p.any_isDigit_mantissa.1 hany hdigits), if_pos hdigits]
    rfl
  · rw [if_pos (p.any_isDigit_mantissa.2 hdigits), if_neg hdigits, if_neg hdigits]
    rfl

end FloatLiteral

namespace FloatParts

variable {p : FloatParts}

/-- The literal with these parts. -/
def Complete.literal (h : p.Complete) : FloatLiteral where
  whole := some (p.negative, p.whole)
  fraction := p.fraction
  exponent := p.exponent.map fun exponent => ('e', exponent)
  whole_digits heq := by
    obtain ⟨-, rfl⟩ := Prod.mk.inj (Option.some.inj heq)
    exact h.whole
  fraction_digits := h.fraction.2
  exponent_digits heq := by
    obtain ⟨exponent, hexp, heq⟩ := Option.map_eq_some_iff.1 heq
    obtain ⟨rfl, rfl⟩ := Prod.mk.inj heq
    exact ⟨.inl rfl, h.exponent _ _ hexp⟩

theorem Complete.text_literal (h : p.Complete) : h.literal.text = p.text := by
  simp only [literal, FloatLiteral.text, FloatLiteral.wholeText, text]
  cases p.exponent <;> rfl

theorem Complete.decimal_literal (h : p.Complete) : h.literal.decimal = p.decimal := by
  simp only [literal, FloatLiteral.decimal, FloatLiteral.negative, FloatLiteral.digits, decimal]
  cases p.exponent <;> rfl

end FloatParts

/-- A literal with digits on both sides of its point is rounded from the number it spells. -/
theorem Token.ofToken_text {p : FloatParts} (h : p.Complete) :
    Atom.ofToken p.text = .float (Binary64.ofDecimal p.decimal) := by
  have hdigits : h.literal.digits ≠ [] := List.append_ne_nil_of_right_ne_nil _ h.fraction.1
  have hpoint : h.literal.text ≠ ['.'] := by
    intro heq
    have hlen := congrArg List.length heq
    have hpos := List.length_pos_of_ne_nil h.fraction.1
    simp [h.text_literal, FloatParts.text] at hlen
    omega
  rw [← h.text_literal, ← h.decimal_literal, Atom.ofToken, h.literal.ofToken?_text hpoint,
    if_neg hdigits]
  rfl

end Sexpr
