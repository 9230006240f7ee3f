import Sexpr.Proofs.Token.Conversion
import Sexpr.Proofs.Token.Spelling

/-!
# Canonical numerals

An integer has one numeral without superfluous characters (`Numeral.Canonical`). It is the one that
is written of it, in blocks of digits, and the one that reads back. An integer may also be read from
a numeral with zeros in front of its digits, or with a minus in front of a zero; what is written of
it is then the numeral without these (`Numeral.numerals_agree`).
-/

namespace Sexpr

open FloatParts (signText IsDigits)

namespace Numeral

/-- The numerals of an integer that have no zero in front of other digits, and no minus in front of
a zero. -/
inductive Canonical : Int → List Char → Prop
  | zero : Canonical 0 ['0']
  | signed (negative : Bool) {d : Char} {ds : List Char} :
    IsDigits (d :: ds) → d ≠ '0' →
    Canonical (if negative then -(Nat.ofDigitChars 10 (d :: ds) 0 : Int)
      else Nat.ofDigitChars 10 (d :: ds) 0) (signText negative ++ d :: ds)

/-- The integer that a sign and digits spell by their positions. -/
def positionalValue (t : List Char) : Int :=
  if t.head? = some '-' then -(Nat.ofDigitChars 10 (Token.unsigned t) 0 : Int)
  else Nat.ofDigitChars 10 (Token.unsigned t) 0

/-- A numeral without the zeros in front of its digits, and without the sign of a zero. -/
def trimmed (t : List Char) : List Char :=
  match (Token.unsigned t).dropWhile (· = '0') with
  | [] => ['0']
  | d :: ds => signText (t.head? = some '-') ++ d :: ds

/-! ## The sign -/

theorem head?_sign {ds : List Char} (h : IsDigits ds) (negative : Bool) :
    (signText negative ++ ds).head? = some '-' ↔ negative = true := by
  cases negative with
  | true => exact iff_of_true rfl rfl
  | false =>
    refine iff_of_false ?_ Bool.false_ne_true
    rw [signText, if_neg Bool.false_ne_true, List.nil_append]
    intro hhead
    obtain ⟨rest, hrest⟩ := List.head?_eq_some_iff.1 hhead
    have hne := Token.ne_cons_of_isDigits h (c := '-') (by decide) []
    rw [List.append_nil] at hne
    exact hne rest hrest

theorem positionalValue_sign {ds : List Char} (h : IsDigits ds) (negative : Bool) :
    positionalValue (signText negative ++ ds) =
      if negative then -(Nat.ofDigitChars 10 ds 0 : Int) else Nat.ofDigitChars 10 ds 0 := by
  simp only [positionalValue, Token.unsigned_sign h, head?_sign h]

/-! ## Zeros in front -/

theorem ofDigitChars_dropWhile (ds : List Char) :
    Nat.ofDigitChars 10 (ds.dropWhile (· = '0')) 0 = Nat.ofDigitChars 10 ds 0 := by
  induction ds with
  | nil => rfl
  | cons d ds ih =>
    rw [List.dropWhile_cons]
    split
    · next hzero =>
      rw [decide_eq_true_eq] at hzero
      rw [ih, hzero]
      rfl
    · rfl

/-- Without the zeros in front of it a row of digits is empty, or starts with another digit. -/
theorem dropWhile_zero {ds : List Char} (h : IsDigits ds) :
    ds.dropWhile (· = '0') = [] ∨
      ∃ d es, ds.dropWhile (· = '0') = d :: es ∧ IsDigits (d :: es) ∧ d ≠ '0' := by
  rcases hrow : ds.dropWhile (· = '0') with - | ⟨d, es⟩
  · exact .inl rfl
  · have hdigits : (d :: es).all Char.isDigit = true := by
      rw [List.all_eq_true]
      intro c hc
      rw [← hrow] at hc
      exact List.all_eq_true.1 h.2 c ((List.dropWhile_sublist _).mem hc)
    have hd : d ≠ '0' := by
      have := List.head?_dropWhile_not (· = '0') ds
      rw [hrow] at this
      simpa using this
    exact .inr ⟨d, es, rfl, ⟨List.cons_ne_nil d es, hdigits⟩, hd⟩

/-! ## Writing -/

theorem intText_zero : (intText 0).toList = ['0'] := by
  rw [toList_intText]
  rfl

/-- A sign and digits without a zero in front are written as they stand. -/
theorem intText_signed (negative : Bool) {d : Char} {ds : List Char} (h : IsDigits (d :: ds))
    (hd : d ≠ '0') :
    (intText (if negative then -(Nat.ofDigitChars 10 (d :: ds) 0 : Int)
      else Nat.ofDigitChars 10 (d :: ds) 0)).toList = signText negative ++ d :: ds := by
  have hdigit : d.isDigit = true := List.all_eq_true.1 h.2 d (List.mem_cons_self ..)
  have hpos : 0 < Nat.ofDigitChars 10 (d :: ds) 0 := ofDigitChars_pos hdigit hd
  have hrow : Nat.toDigits 10 (Nat.ofDigitChars 10 (d :: ds) 0) = d :: ds :=
    toDigits_ofDigitChars h.1 h.2 (.inl (by simpa using hd))
  rw [toList_intText]
  generalize Nat.ofDigitChars 10 (d :: ds) 0 = n at hpos hrow ⊢
  cases negative with
  | true =>
    have hneg : decide (-(n : Int) < 0) = true := decide_eq_true (by omega)
    rw [if_pos rfl, hneg, Int.natAbs_neg, Int.natAbs_natCast, hrow]
  | false =>
    have hnonneg : decide ((n : Int) < 0) = false := decide_eq_false (by omega)
    rw [if_neg Bool.false_ne_true, hnonneg, Int.natAbs_natCast, hrow]

/-- **The canonical numeral** of an integer is the one that is written of it. -/
theorem canonical_iff {n : Int} {t : List Char} : Canonical n t ↔ t = (intText n).toList := by
  constructor
  · intro h
    cases h with
    | zero => exact intText_zero.symm
    | signed negative hdigits hd => exact (intText_signed negative hdigits hd).symm
  · rintro rfl
    by_cases hn : n = 0
    · rw [hn, intText_zero]
      exact .zero
    have hdigits := isDigits_toDigits n.natAbs
    have hhead := head?_toDigits (Int.natAbs_pos.2 hn)
    have hvalue := Nat.ofDigitChars_ten_toDigits (n := n.natAbs)
    rw [toList_intText]
    rcases hrow : Nat.toDigits 10 n.natAbs with - | ⟨d, ds⟩
    · exact absurd hrow hdigits.1
    rw [hrow] at hdigits hhead hvalue
    have hd : d ≠ '0' := by simpa using hhead
    have := Canonical.signed (decide (n < 0)) hdigits hd
    rwa [hvalue, sign_natAbs] at this

/-- A numeral is written of its value as it is trimmed. -/
theorem intText_positionalValue {t : List Char} (h : Token.isInt t = true) :
    (intText (positionalValue t)).toList = trimmed t := by
  obtain ⟨negative, ds, hds, rfl⟩ := Token.isInt_iff.1 h
  rw [positionalValue_sign hds, trimmed, Token.unsigned_sign hds, ← ofDigitChars_dropWhile]
  rcases dropWhile_zero hds with hrow | ⟨d, es, hrow, hes, hd⟩
  · rw [hrow]
    have hzero : (if negative then -(Nat.ofDigitChars 10 [] 0 : Int)
        else Nat.ofDigitChars 10 [] 0) = 0 := by cases negative <;> rfl
    rw [hzero]
    exact intText_zero
  · have hsign : decide ((signText negative ++ ds).head? = some '-') = negative := by
      rw [Bool.eq_iff_iff, decide_eq_true_eq]
      exact head?_sign hds negative
    rw [hrow, intText_signed negative hes hd, hsign]

/-- **Numerals agree in both directions.** Of every integer the canonical numeral is written, and
nothing else is one, and it is read as that integer. Every token of an integer is read as its
positional value, of which the token is written without the zeros in front and the sign of a
zero. -/
theorem numerals_agree :
    (∀ n t, Canonical n t ↔ t = (intText n).toList) ∧
      (∀ n, Atom.ofToken? (intText n).toList = some (.int n)) ∧
      ∀ t, Token.isInt t = true →
        Token.intValue? t = some (positionalValue t) ∧
          (intText (positionalValue t)).toList = trimmed t := by
  refine ⟨fun n t => canonical_iff, ?_, fun t ht => ⟨?_, intText_positionalValue ht⟩⟩
  · intro n
    rw [Atom.ofToken?_eq_some, ofToken_intText]
  · obtain ⟨negative, ds, hds, rfl⟩ := Token.isInt_iff.1 ht
    rw [Token.intValue?_sign hds, positionalValue_sign hds]

end Numeral

end Sexpr
