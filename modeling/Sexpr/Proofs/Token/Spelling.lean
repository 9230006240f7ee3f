import Sexpr.Proofs.Binary64.Shortest
import Sexpr.Proofs.Lexeme.Cut
import Sexpr.Proofs.Token.Float

/-!
# Numbers read back

A number that is written so that it can be read again is one word, and the atom of that word is
the number: an integer of any length (`ofToken_intText`), and a float that is not a NaN
(`ofToken_spell`), bit for bit.
-/

namespace Sexpr

open FloatParts

/-! ## Words of digits -/

theorem continues_of_isDigit {c : Char} (h : c.isDigit = true) : Lexeme.continues c = true := by
  have hne : ∀ d : Char, d.isDigit = false → c ≠ d := by
    rintro d hd rfl
    exact absurd (h.symm.trans hd) (by decide)
  simp [Lexeme.continues, Lexeme.delimits, Token.isSpace, hne]

theorem all_continues_digits {ds : List Char} (h : ds.all Char.isDigit = true) :
    ds.all Lexeme.continues = true :=
  List.all_eq_true.2 fun c hc => continues_of_isDigit (List.all_eq_true.1 h c hc)

theorem all_continues_signText (negative : Bool) :
    (signText negative).all Lexeme.continues = true := by
  cases negative <;> decide

/-- A sign and a digit in front make a row of characters a word. -/
theorem isWord_sign {ds : List Char} (h : IsDigits ds) (negative : Bool) {rest : List Char}
    (hrest : rest.all Lexeme.continues = true) :
    Lexeme.IsWord (signText negative ++ (ds ++ rest)) := by
  obtain ⟨hne, hall⟩ := h
  refine ⟨?_, by simp [hne], ?_⟩
  · cases negative with
    | true => simp [signText, Text.apostrophe]
    | false =>
      cases ds with
      | nil => exact absurd rfl hne
      | cons d ds =>
        simp only [signText, Bool.false_eq_true, ↓reduceIte, List.nil_append, List.cons_append,
          List.head?_cons, ne_eq, Option.some.injEq]
        rintro rfl
        exact Token.not_mem_of_isDigit (by decide) hall List.mem_cons_self
  · rw [List.all_append, List.all_append, all_continues_signText, all_continues_digits hall, hrest]
    rfl

/-- A float literal is one word. -/
theorem FloatParts.Complete.isWord {p : FloatParts} (h : p.Complete) : Lexeme.IsWord p.text := by
  have hexponent : (FloatParts.exponentText p.exponent).all Lexeme.continues = true := by
    cases hp : p.exponent with
    | none => rfl
    | some exponent =>
      obtain ⟨negative, ds⟩ := exponent
      simp only [FloatParts.exponentText, List.cons_append, List.all_cons, List.all_append,
        all_continues_signText, all_continues_digits (h.exponent _ _ hp).2]
      decide
  rw [FloatParts.text, List.append_assoc]
  refine isWord_sign h.whole p.negative ?_
  rw [List.all_cons, List.all_append, all_continues_digits h.fraction.2, hexponent]
  decide

/-! ## Integers -/

theorem isDigits_toDigits (n : Nat) : IsDigits (Nat.toDigits 10 n) :=
  ⟨Nat.toDigits_ne_nil, Numeral.all_isDigit_toDigits n⟩

/-- The numeral of an integer is its sign and its decimal digits. -/
theorem toList_intText (n : Int) :
    (Numeral.intText n).toList = signText (decide (n < 0)) ++ Nat.toDigits 10 n.natAbs := by
  cases n with
  | ofNat n => simp [Numeral.intText, Numeral.digits_eq_toDigits, signText]
  | negSucc n =>
    simp [Numeral.intText, Numeral.digits_eq_toDigits, signText, Int.negSucc_lt_zero,
      Int.natAbs_negSucc]

theorem isWord_intText (n : Int) : Lexeme.IsWord (Numeral.intText n).toList := by
  rw [toList_intText, ← List.append_nil (Nat.toDigits 10 n.natAbs)]
  exact isWord_sign (isDigits_toDigits _) _ rfl

theorem sign_natAbs (n : Int) :
    (if decide (n < 0) = true then -(n.natAbs : Int) else n.natAbs) = n := by
  split
  · next h => rw [decide_eq_true_eq] at h; omega
  · next h => rw [decide_eq_true_eq] at h; omega

/-- **An integer reads back**, however long it is. -/
theorem ofToken_intText (n : Int) : Atom.ofToken (Numeral.intText n).toList = .int n := by
  have hdigits := isDigits_toDigits n.natAbs
  rw [toList_intText, Atom.ofToken, Atom.ofToken?, if_pos (Token.isInt_sign hdigits _),
    Token.intValue?_sign hdigits, Nat.ofDigitChars_ten_toDigits, sign_natAbs]
  rfl

/-! ## Floats -/

theorem isDigits_zero : IsDigits ['0'] := ⟨by simp, rfl⟩

theorem FloatParts.IsDigits.append_left {ds : List Char} (h : IsDigits ds) {zs : List Char}
    (hz : zs.all Char.isDigit = true) : IsDigits (zs ++ ds) :=
  ⟨by simp [h.1], by rw [List.all_append, hz, h.2]; rfl⟩

theorem FloatParts.IsDigits.append_right {ds : List Char} (h : IsDigits ds) {zs : List Char}
    (hz : zs.all Char.isDigit = true) : IsDigits (ds ++ zs) :=
  ⟨by simp [h.1], by rw [List.all_append, hz, h.2]; rfl⟩

theorem ofDigitChars_zero (init : Nat) : Nat.ofDigitChars 10 ['0'] init = init * 10 := by
  have hzero : '0'.toNat - '0'.toNat = 0 := rfl
  rw [Nat.ofDigitChars_cons, Nat.ofDigitChars_nil, hzero]
  omega

namespace Binary64

/-- A text, with a sign in front, is a float literal for a decimal number: it may show zeros behind
the digits. -/
def Spells (t : List Char) (d : Decimal) : Prop :=
  ∃ p : FloatParts, p.Complete ∧ p.text = signText d.negative ++ t ∧
    ∃ k : Nat, p.decimal = ⟨d.negative, d.coefficient * 10 ^ k, d.exponent - k⟩

/-- The decimal number of a row of digits, the first of which stands for a multiple of
`10 ^ place`. -/
def decimalOf (negative : Bool) (ds : List Char) (place : Int) : Decimal :=
  ⟨negative, Nat.ofDigitChars 10 ds 0, place + 1 - ds.length⟩

/-- Digits behind a point and zeros. -/
theorem spells_below_one {ds : List Char} (h : IsDigits ds) (negative : Bool) {place : Int}
    (hplace : place < 0) :
    Spells ('0' :: '.' :: List.replicate (-place - 1).toNat '0' ++ ds)
      (decimalOf negative ds place) := by
  refine ⟨⟨negative, ['0'], List.replicate (-place - 1).toNat '0' ++ ds, none⟩,
    ⟨isDigits_zero, h.append_left (Numeral.all_isDigit_replicate _), by simp⟩, ?_, 0, ?_⟩
  · simp [FloatParts.text, FloatParts.exponentText, decimalOf]
  · simp only [FloatParts.decimal, FloatParts.exponentValue, decimalOf, Decimal.mk.injEq, true_and,
      Nat.ofDigitChars_append, Nat.ofDigitChars_replicate_zero, List.length_append,
      List.length_replicate, ofDigitChars_zero, Nat.zero_mul, Nat.mul_zero, pow_zero, Nat.mul_one]
    push_cast
    omega

/-- Digits, zeros up to the point, and one zero behind it. -/
theorem spells_whole {ds : List Char} (h : IsDigits ds) (negative : Bool) {place : Int}
    (hplace : 0 ≤ place) (hlength : ds.length ≤ place.toNat + 1) : Spells
      (ds ++ List.replicate (place.toNat + 1 - ds.length) '0' ++ ['.', '0'])
      (decimalOf negative ds place) := by
  refine ⟨⟨negative, ds ++ List.replicate (place.toNat + 1 - ds.length) '0', ['0'], none⟩,
    ⟨h.append_right (Numeral.all_isDigit_replicate _), isDigits_zero, by simp⟩, ?_,
    place.toNat + 1 - ds.length + 1, ?_⟩
  · simp [FloatParts.text, FloatParts.exponentText, decimalOf]
  · simp only [FloatParts.decimal, FloatParts.exponentValue, decimalOf, Decimal.mk.injEq, true_and,
      Nat.ofDigitChars_append, Nat.ofDigitChars_replicate_zero, ofDigitChars_zero,
      List.length_singleton]
    refine ⟨?_, ?_⟩
    · ring
    · push_cast
      omega

/-- Digits with a point among them. -/
theorem spells_split {ds : List Char} (h : IsDigits ds) (negative : Bool) {place : Int}
    (hplace : 0 ≤ place) (hlength : place.toNat + 1 < ds.length) : Spells
      (ds.take (place.toNat + 1) ++ '.' :: ds.drop (place.toNat + 1))
      (decimalOf negative ds place) := by
  have hall := h.2
  rw [← List.take_append_drop (place.toNat + 1) ds, List.all_append, Bool.and_eq_true] at hall
  refine ⟨⟨negative, ds.take (place.toNat + 1), ds.drop (place.toNat + 1), none⟩,
    ⟨⟨?_, hall.1⟩, ⟨?_, hall.2⟩, by simp⟩, ?_, 0, ?_⟩
  · simp [h.1]
  · simpa using hlength
  · simp [FloatParts.text, FloatParts.exponentText, decimalOf]
  · simp only [FloatParts.decimal, FloatParts.exponentValue, decimalOf, Decimal.mk.injEq, true_and,
      List.take_append_drop, List.length_drop, pow_zero, mul_one]
    omega

theorem spells_positional {ds : List Char} (h : IsDigits ds) (negative : Bool) (place : Int) :
    Spells (positional ds place) (decimalOf negative ds place) := by
  unfold positional
  split
  · next hplace => exact spells_below_one h negative hplace
  · next hplace =>
    have hplace : 0 ≤ place := not_lt.1 hplace
    simp only
    split
    · next hlength => exact spells_whole h negative hplace hlength
    · next hlength => exact spells_split h negative hplace (not_le.1 hlength)

/-! ### With an exponent -/

/-- The sign and the digits of an exponent. -/
def exponentParts (place : Int) : Bool × List Char :=
  (decide (place < 0),
    List.replicate (2 - (Nat.toDigits 10 place.natAbs).length) '0' ++ Nat.toDigits 10 place.natAbs)

theorem exponentText_source (place : Int) :
    exponentText sourceSpelling place = FloatParts.exponentText (some (exponentParts place)) := by
  by_cases h : place < 0
  · simp [exponentText, FloatParts.exponentText, exponentParts, h, signText]
  · simp [exponentText, FloatParts.exponentText, exponentParts, h, signText, sourceSpelling]

theorem exponentValue_parts (place : Int) : exponentValue (some (exponentParts place)) = place := by
  simp only [exponentValue, exponentParts, Nat.ofDigitChars_append,
    Nat.ofDigitChars_replicate_zero, Nat.mul_zero, Nat.ofDigitChars_ten_toDigits]
  split
  · next h => rw [decide_eq_true_eq] at h; omega
  · next h => rw [decide_eq_true_eq] at h; omega

theorem isDigits_exponentParts (place : Int) : IsDigits (exponentParts place).2 :=
  IsDigits.append_left ⟨Nat.toDigits_ne_nil, Numeral.all_isDigit_toDigits _⟩
    (Numeral.all_isDigit_replicate _)

theorem spells_scientific {ds : List Char} (h : IsDigits ds) (negative : Bool) (place : Int) :
    Spells (scientific sourceSpelling ds place) (decimalOf negative ds place) := by
  have hexponent : ∀ minus es, some (exponentParts place) = some (minus, es) → IsDigits es := by
    rintro minus es heq
    have := isDigits_exponentParts place
    rwa [Option.some.inj heq] at this
  obtain ⟨hne, hall⟩ := h
  match ds with
  | [] => exact absurd rfl hne
  | [d] =>
    refine ⟨⟨negative, [d], ['0'], some (exponentParts place)⟩,
      ⟨⟨hne, hall⟩, isDigits_zero, hexponent⟩, ?_, 1, ?_⟩
    · have hpoint : sourceSpelling.pointAfterOne.toList = ['.', '0'] := rfl
      simp [FloatParts.text, scientific, exponentText_source, decimalOf, hpoint]
    · simp only [FloatParts.decimal, exponentValue_parts, decimalOf, Decimal.mk.injEq, true_and,
        Nat.ofDigitChars_append, ofDigitChars_zero, List.length_singleton, pow_one]
      push_cast
      omega
  | d :: d' :: more =>
    rw [List.all_cons, Bool.and_eq_true] at hall
    refine ⟨⟨negative, [d], d' :: more, some (exponentParts place)⟩,
      ⟨⟨by simp, by simp [hall.1]⟩, ⟨by simp, hall.2⟩, hexponent⟩, ?_, 0, ?_⟩
    · simp [FloatParts.text, scientific, exponentText_source, decimalOf]
    · simp only [FloatParts.decimal, exponentValue_parts, decimalOf, Decimal.mk.injEq, true_and,
        List.singleton_append, List.length_cons, pow_zero, mul_one]
      push_cast
      omega

/-! ### The whole text -/

/-- The digits of a decimal number, wherever its point is, are a float literal for it. -/
theorem spells_spellDecimal (d : Decimal) : ∃ p : FloatParts, p.Complete ∧
    spellDecimal sourceSpelling d = p.text ∧
      ∃ k : Nat, p.decimal = ⟨d.negative, d.coefficient * 10 ^ k, d.exponent - k⟩ := by
  have hdigits := isDigits_toDigits d.coefficient
  unfold spellDecimal
  simp only
  set ds := Nat.toDigits 10 d.coefficient with hds
  set place : Int := d.exponent + ds.length - 1 with hplace
  have hdecimal : decimalOf d.negative ds place = d := by
    have hexponent : place + 1 - ds.length = d.exponent := by omega
    rw [decimalOf, hexponent, hds, Nat.ofDigitChars_ten_toDigits]
  have hspells : Spells (if -4 ≤ place ∧ place < 16 then positional ds place
      else scientific sourceSpelling ds place) d := by
    split
    · exact hdecimal ▸ spells_positional hdigits d.negative place
    · exact hdecimal ▸ spells_scientific hdigits d.negative place
  obtain ⟨p, hcomplete, htext, hvalue⟩ := hspells
  exact ⟨p, hcomplete, htext.symm, hvalue⟩

/-- A float is written as a float literal that is rounded to it. -/
theorem exists_literal {x : Binary64} (h : x.isNaN = false) :
    ∃ p : FloatParts, p.Complete ∧ (x.spell sourceSpelling).toList = p.text ∧
      ofDecimal p.decimal = x := by
  unfold spell
  rw [if_neg (by simp [h])]
  rcases finite_or_infinite h with hfin | hinf
  · have hinfinite : ¬x.isInfinite = true := by
      simpa [isInfinite] using hfin.ne
    obtain ⟨p, hcomplete, htext, k, hvalue⟩ := spells_spellDecimal x.shortest
    refine ⟨p, hcomplete, ?_, ?_⟩
    · rw [if_neg hinfinite, String.toList_ofList, htext]
    · rw [hvalue, (ofDecimal_shortest hfin).2]
      exact ofDecimal_shortest_shift hfin k
  · have hinfinite : x.isInfinite = true := by
      rw [hinf]
      rfl
    refine ⟨⟨x.negative, ['1'], ['0'], some (false, ['9', '9', '9'])⟩,
      ⟨⟨by simp, rfl⟩, isDigits_zero, ?_⟩, ?_, ?_⟩
    · rintro negative ds heq
      obtain ⟨rfl, rfl⟩ := heq
      exact ⟨by simp, rfl⟩
    · rw [if_pos hinfinite]
      cases x.negative <;> rfl
    · rw [hinf]
      rfl

/-- **A float reads back** as the same bits, unless it is a NaN. -/
theorem ofToken_spell {x : Binary64} (h : x.isNaN = false) :
    Atom.ofToken (x.spell sourceSpelling).toList = .float x := by
  obtain ⟨p, hcomplete, htext, hvalue⟩ := exists_literal h
  rw [htext, Token.ofToken_text hcomplete, hvalue]

theorem isWord_spell {x : Binary64} (h : x.isNaN = false) :
    Lexeme.IsWord (x.spell sourceSpelling).toList := by
  obtain ⟨p, hcomplete, htext, -⟩ := exists_literal h
  rw [htext]
  exact hcomplete.isWord

/-- Rounding never ends in a NaN. -/
theorem isNaN_ofDecimal (d : Decimal) : (ofDecimal d).isNaN = false := (rounds_ofDecimal d).notNaN

end Binary64

end Sexpr
