import Sexpr.Proofs.Binary64.Nearest
import Sexpr.Proofs.Token.Float

/-!
# Conversions do not fail

A token is converted after it has passed a predicate, and the conversions themselves can refuse a
text. Here none is refused (`Atom.ofToken?_eq_some`).

The digits of an integer are cut into blocks that can be read (`Numeral.readable_blocks`). A float
is a `FloatLiteral`. It is read as a decimal number exactly if there is a digit before its exponent,
and then it can be read, and the number is rounded to the nearest one.
-/

namespace Sexpr

open FloatParts (signText IsDigits)

/-! ## Integers -/

namespace Numeral

/-- The blocks are all that is there, and each has between one and a thousand digits. -/
theorem readable_blocks {ds : List Char} (h : ds.all Char.isDigit = true) :
    (blocks ds).flatten = ds ∧
      ∀ block ∈ blocks ds, 1 ≤ block.length ∧ block.length ≤ 1000 ∧
        block.all Char.isDigit = true := by
  induction ds using blocks.induct with
  | case1 => simp [blocks]
  | case2 d ds ih =>
    have hsize := blockSize_eq
    have hsplit := h
    rw [← List.take_append_drop blockSize (d :: ds), List.all_append, Bool.and_eq_true] at hsplit
    obtain ⟨hflatten, hblocks⟩ := ih hsplit.2
    rw [blocks]
    refine ⟨?_, ?_⟩
    · rw [List.flatten_cons, hflatten, List.take_append_drop]
    · rw [List.forall_mem_cons]
      refine ⟨⟨?_, ?_, hsplit.1⟩, hblocks⟩
      · rw [List.length_take, List.length_cons]
        omega
      · rw [← hsize]
        exact List.length_take_le _ _

end Numeral

namespace Token

/-- A token without the minus in front of it. -/
def unsigned : List Char → List Char
  | '-' :: ds => ds
  | ds => ds

theorem unsigned_sign {ds : List Char} (h : IsDigits ds) (negative : Bool) :
    unsigned (signText negative ++ ds) = ds := by
  have hne := ne_cons_of_isDigits h (c := '-') (by decide) []
  rw [List.append_nil] at hne
  cases negative with
  | true => rfl
  | false =>
    rw [signText, if_neg Bool.false_ne_true, List.nil_append, unsigned]
    exact hne

/-- The digits behind the sign of an integer. -/
theorem isDigits_unsigned {t : List Char} (h : isInt t = true) : IsDigits (unsigned t) := by
  obtain ⟨negative, ds, hds, rfl⟩ := isInt_iff.1 h
  rwa [unsigned_sign hds]

end Token

/-! ## All tokens -/

namespace Atom

open Token

/-- **No token is refused** by a conversion. -/
theorem ofToken?_eq_some (t : List Char) : ofToken? t = some (ofToken t) := by
  have hsome : ofToken? t ≠ none := by
    by_cases hint : isInt t = true
    · obtain ⟨negative, ds, hds, rfl⟩ := isInt_iff.1 hint
      rw [ofToken?, if_pos hint, intValue?_sign hds]
      exact Option.some_ne_none _
    by_cases hfloat : isFloat t = true
    · obtain ⟨hpoint, p, rfl⟩ := FloatLiteral.isFloat_iff.1 hfloat
      rw [p.ofToken?_text hpoint]
      exact Option.some_ne_none _
    rw [ofToken?, if_neg hint, if_neg hfloat]
    split_ifs <;> exact Option.some_ne_none _
  obtain ⟨a, ha⟩ := Option.ne_none_iff_exists'.1 hsome
  rw [ofToken, ha, Option.getD_some]

/-- **Tokens and their conversions.** A float is a literal other than a point alone. It is read as a
number exactly if there is a digit before its exponent: then the number that it spells is read, and
rounded to the nearest float; otherwise it is zero. The digits of an integer come in blocks of one
to a thousand, each of which is read. No conversion of a token fails. -/
theorem conversions_total :
    (∀ t, isFloat t = true ↔ t ≠ ['.'] ∧ ∃ p : FloatLiteral, p.text = t) ∧
      (∀ p : FloatLiteral, p.text ≠ ['.'] →
        floatValue? p.text = (if p.digits = [] then some (Binary64.zero false)
          else (Decimal.read? p.text).map Binary64.ofDecimal) ∧
        (p.digits ≠ [] ↔ Decimal.read? p.text = some p.decimal) ∧
        ∃ x, ofToken? p.text = some (.float x) ∧
          if p.digits = [] then x = Binary64.zero false else Binary64.Rounds p.decimal x) ∧
      (∀ t, isInt t = true → (Numeral.blocks (unsigned t)).flatten = unsigned t ∧
        ∀ block ∈ Numeral.blocks (unsigned t), (Numeral.readBlock? block).isSome = true ∧
          1 ≤ block.length ∧ block.length ≤ 1000 ∧ block.all Char.isDigit = true) ∧
      ∀ t, ofToken? t = some (ofToken t) := by
  refine ⟨fun t => FloatLiteral.isFloat_iff, ?_, ?_, ofToken?_eq_some⟩
  · intro p hpoint
    refine ⟨?_, ?_, _, p.ofToken?_text hpoint, ?_⟩
    · rw [floatValue?]
      by_cases hdigits : p.digits = []
      · rw [if_neg (fun hany => p.any_isDigit_mantissa.1 hany hdigits), if_pos hdigits]
      · rw [if_pos (p.any_isDigit_mantissa.2 hdigits), if_neg hdigits]
    · rw [p.read?_text]
      by_cases hdigits : p.digits = [] <;> simp [hdigits]
    · split
      · rfl
      · exact Binary64.rounds_ofDecimal p.decimal
  · intro t ht
    obtain ⟨hflatten, hblocks⟩ := Numeral.readable_blocks (isDigits_unsigned ht).2
    refine ⟨hflatten, fun block hblock => ⟨?_, hblocks block hblock⟩⟩
    obtain ⟨hpos, hle, hdigits⟩ := hblocks block hblock
    rw [← Numeral.blockSize_eq] at hle
    rw [Numeral.readBlock?_eq (List.ne_nil_of_length_pos hpos) hle hdigits]
    rfl

end Atom

end Sexpr
