import Sexpr.Proofs.Token.Spelling

/-!
# Numbers with six decimal places

The text of a float with six decimal places is one word (`Binary64.isWord_fixed`). It is no integer
literal, for it holds a point or the letter `n` (`Binary64.not_isInt_fixed`), so no integer is
written in the same way (`Binary64.fixed_ne_intText`).
-/

namespace Sexpr

open FloatParts

theorem isInt_intText (n : Int) : Token.isInt (Numeral.intText n).toList = true := by
  rw [toList_intText]
  exact Token.isInt_sign (isDigits_toDigits n.natAbs) _

namespace Binary64

/-- The digits behind the point. -/
def fractionDigits (n : Nat) : List Char :=
  let fraction := Nat.toDigits 10 (n % lastPlaces)
  List.replicate (places - fraction.length) '0' ++ fraction

theorem fixedDigits_eq (n : Nat) :
    fixedDigits n = Nat.toDigits 10 (n / lastPlaces) ++ '.' :: fractionDigits n := by
  simp [fixedDigits, fractionDigits, Numeral.digits_eq_toDigits]

theorem isDigits_fractionDigits (n : Nat) : IsDigits (fractionDigits n) :=
  (isDigits_toDigits _).append_left (Numeral.all_isDigit_replicate _)

/-- What a text with six decimal places can be. -/
inductive Fixed : List Char → Prop
  | nan : Fixed "nan".toList
  | infinite (negative : Bool) : Fixed (signText negative ++ "inf".toList)
  | finite (negative : Bool) (n : Nat) :
    Fixed (signText negative ++ (Nat.toDigits 10 (n / lastPlaces) ++ '.' :: fractionDigits n))

theorem fixed_fixed (x : Binary64) : Fixed x.fixed.toList := by
  have hsign : ∀ s : String, ((if x.negative then "-" else "") ++ s).toList =
      signText x.negative ++ s.toList := by
    intro s
    cases x.negative <;> simp [signText]
  unfold fixed
  split
  · exact .nan
  simp only
  split
  · rw [hsign]
    exact .infinite x.negative
  · rw [hsign, String.toList_ofList, fixedDigits_eq]
    exact .finite x.negative x.inLastPlaces

theorem Fixed.isWord {w : List Char} (h : Fixed w) : Lexeme.IsWord w := by
  cases h with
  | nan => exact ⟨by decide, by decide, by decide⟩
  | infinite negative => cases negative <;> exact ⟨by decide, by decide, by decide⟩
  | finite negative n =>
    refine isWord_sign (isDigits_toDigits _) negative ?_
    rw [List.all_cons, all_continues_digits (isDigits_fractionDigits n).2]
    decide

theorem Fixed.not_isInt {w : List Char} (h : Fixed w) : Token.isInt w = false := by
  cases h with
  | nan => decide
  | infinite negative => cases negative <;> decide
  | finite negative n =>
    exact Token.not_isInt_of_mem (c := '.') (by decide) (by decide) (by simp)

theorem isWord_fixed (x : Binary64) : Lexeme.IsWord x.fixed.toList := x.fixed_fixed.isWord

theorem not_isInt_fixed (x : Binary64) : Token.isInt x.fixed.toList = false :=
  x.fixed_fixed.not_isInt

/-- No float is written like an integer. -/
theorem fixed_ne_intText (x : Binary64) (n : Int) : x.fixed ≠ Numeral.intText n := by
  intro h
  have hint := x.not_isInt_fixed
  rw [h, isInt_intText] at hint
  exact Bool.false_ne_true hint.symm

end Binary64

end Sexpr
