import Sexpr.Binary64
import Mathlib

/-!
# Rounding depends on the value alone

`Binary64.ofQuotient` rounds a quotient that is given by its two parts. Here it is seen to depend
on their quotient only (`ofQuotient_mul`), and to give back a number whose value it is given
(`ofQuotient_of_eq`).

Both come from `roundingExponent_eq`: the exponent that is found by comparing lengths in bits is
the one that the binary logarithm of the quotient asks for.
-/

namespace Sexpr

namespace Binary64

/-! ## Scaling -/

theorem binade_eq : binade = 2 ^ 52 := by norm_num [binade]

theorem scale_mul (num den k : ℕ) (q : ℤ) :
    scale (num * k) (den * k) q = ((scale num den q).1 * k, (scale num den q).2 * k) := by
  unfold scale
  split
  · simp only [Nat.shiftLeft_eq, Prod.mk.injEq, true_and]
    ring
  · simp only [Nat.shiftLeft_eq, Prod.mk.injEq, and_true]
    ring

theorem scale_den_pos {num den : ℕ} (hden : 0 < den) (q : ℤ) : 0 < (scale num den q).2 := by
  unfold scale
  split
  · rw [Nat.shiftLeft_eq]
    positivity
  · exact hden

/-- Scaling divides the quotient by a power of two. -/
theorem scale_div (num : ℕ) {den : ℕ} (hden : 0 < den) (q : ℤ) :
    ((scale num den q).1 : ℚ) / (scale num den q).2 = num / den / 2 ^ q := by
  have hden' : (den : ℚ) ≠ 0 := by positivity
  unfold scale
  split
  · next h =>
    lift q to ℕ using h
    simp only [Int.toNat_natCast, Nat.shiftLeft_eq, zpow_natCast]
    push_cast
    rw [div_div]
  · next h =>
    obtain ⟨k, hk⟩ : ∃ k : ℕ, q = -k := ⟨(-q).toNat, by omega⟩
    subst hk
    simp only [neg_neg, Int.toNat_natCast, Nat.shiftLeft_eq, zpow_neg, zpow_natCast, div_inv_eq_mul]
    push_cast
    ring

theorem divNearest_mul (num den k : ℕ) (hk : 0 < k) :
    divNearest (num * k) (den * k) = divNearest num den := by
  have hdiv : num * k / (den * k) = num / den := Nat.mul_div_mul_right num den hk
  have hmod : num * k % (den * k) = num % den * k := Nat.mul_mod_mul_right k num den
  have hlt : den * k < 2 * (num % den * k) ↔ den < 2 * (num % den) := by
    rw [← Nat.mul_assoc, Nat.mul_lt_mul_right hk]
  have heq : 2 * (num % den * k) = den * k ↔ 2 * (num % den) = den := by
    rw [← Nat.mul_assoc, Nat.mul_left_inj hk.ne']
  simp only [divNearest, hdiv, hmod, hlt, heq]

theorem divNearest_mul_self (n : ℕ) {den : ℕ} (hden : 0 < den) : divNearest (n * den) den = n := by
  have hmod : n * den % den = 0 := Nat.mul_mod_left n den
  have hdiv : n * den / den = n := Nat.mul_div_cancel n hden
  simp only [divNearest, hmod, hdiv, Nat.mul_zero, Nat.not_lt_zero, false_or, hden.ne, false_and,
    ↓reduceIte]

/-! ## The exponent -/

/-- The lengths in bits of two numbers leave two candidates for the logarithm of their quotient. -/
theorem log_div_bounds {num den : ℕ} (hnum : num ≠ 0) (hden : den ≠ 0) :
    (2 : ℚ) ^ ((num.log2 : ℤ) - den.log2 - 1) < num / den ∧
      (num / den : ℚ) < 2 ^ ((num.log2 : ℤ) - den.log2 + 1) := by
  have hn : (2 : ℚ) ^ num.log2 ≤ num := by exact_mod_cast Nat.log2_self_le hnum
  have hn' : (num : ℚ) < 2 ^ (num.log2 + 1) := by exact_mod_cast Nat.lt_log2_self
  have hd : (2 : ℚ) ^ den.log2 ≤ den := by exact_mod_cast Nat.log2_self_le hden
  have hd' : (den : ℚ) < 2 ^ (den.log2 + 1) := by exact_mod_cast Nat.lt_log2_self
  have hpos : (0 : ℚ) < den := by positivity
  constructor
  · rw [lt_div_iff₀ hpos]
    calc (2 : ℚ) ^ ((num.log2 : ℤ) - den.log2 - 1) * den
        < 2 ^ ((num.log2 : ℤ) - den.log2 - 1) * 2 ^ (den.log2 + 1) := by gcongr
      _ = 2 ^ num.log2 := by
        rw [← zpow_natCast, ← zpow_natCast, ← zpow_add₀ (by norm_num)]
        congr 1
        push_cast
        ring
      _ ≤ num := hn
  · rw [div_lt_iff₀ hpos]
    calc (num : ℚ) < 2 ^ (num.log2 + 1) := hn'
      _ = 2 ^ ((num.log2 : ℤ) - den.log2 + 1) * 2 ^ den.log2 := by
        rw [← zpow_natCast, ← zpow_natCast, ← zpow_add₀ (by norm_num)]
        congr 1
        push_cast
        ring
      _ ≤ 2 ^ ((num.log2 : ℤ) - den.log2 + 1) * den := by gcongr

theorem lt_two_zpow_iff {v : ℚ} (hv : 0 < v) (k : ℤ) : v < 2 ^ k ↔ Int.log 2 v < k := by
  have h := Int.lt_zpow_iff_log_lt (b := 2) (by norm_num) (x := k) hv
  simpa using h

theorem two_zpow_le_iff {v : ℚ} (hv : 0 < v) (k : ℤ) : 2 ^ k ≤ v ↔ k ≤ Int.log 2 v := by
  have h := Int.zpow_le_iff_le_log (b := 2) (by norm_num) (x := k) hv
  simpa using h

/-- Whether a scaled quotient has at most `bits` bits before its point. -/
theorem scale_lt_two_pow_iff {num den : ℕ} (hnum : num ≠ 0) (hden : den ≠ 0) (q : ℤ) (bits : ℕ) :
    (scale num den q).1 < (scale num den q).2 * 2 ^ bits ↔
      Int.log 2 (num / den : ℚ) < q + bits := by
  have hden' : 0 < den := Nat.pos_of_ne_zero hden
  have hd : (0 : ℚ) < (scale num den q).2 := by exact_mod_cast scale_den_pos hden' q
  have hv : (0 : ℚ) < num / den := by positivity
  calc (scale num den q).1 < (scale num den q).2 * 2 ^ bits
      ↔ ((scale num den q).1 : ℚ) < 2 ^ bits * (scale num den q).2 := by
        rw [Nat.mul_comm]
        exact_mod_cast Iff.rfl
    _ ↔ (num / den / 2 ^ q : ℚ) < 2 ^ bits := by rw [← scale_div num hden' q, div_lt_iff₀ hd]
    _ ↔ (num / den : ℚ) < 2 ^ (q + bits) := by
        rw [div_lt_iff₀ (by positivity), zpow_add₀ (by norm_num), mul_comm, zpow_natCast]
    _ ↔ Int.log 2 (num / den : ℚ) < q + bits := lt_two_zpow_iff hv _

/-- Whether a scaled quotient has less than 53 bits before its point. -/
theorem scale_lt_iff {num den : ℕ} (hnum : num ≠ 0) (hden : den ≠ 0) (q : ℤ) :
    (scale num den q).1 < (scale num den q).2 * binade ↔ Int.log 2 (num / den : ℚ) < q + 52 := by
  rw [binade_eq]
  exact scale_lt_two_pow_iff hnum hden q 52

/-- **The exponent of a quotient** leaves 53 bits before the point, as far as the least exponent
lets it. -/
theorem roundingExponent_eq {num den : ℕ} (hnum : num ≠ 0) (hden : den ≠ 0) :
    roundingExponent num den = max (Int.log 2 (num / den : ℚ) - 52) (-1074) := by
  have hv : (0 : ℚ) < num / den := by positivity
  obtain ⟨hlow, hhigh⟩ := log_div_bounds hnum hden
  have hlow' := (two_zpow_le_iff hv _).1 hlow.le
  have hhigh' := (lt_two_zpow_iff hv _).1 hhigh
  have htest := scale_lt_iff hnum hden ((num.log2 : ℤ) - den.log2 - 52)
  simp only [roundingExponent]
  by_cases h : Int.log 2 (num / den : ℚ) < (num.log2 : ℤ) - den.log2 - 52 + 52
  · rw [if_pos (htest.2 h)]
    congr 1
    omega
  · rw [if_neg (mt htest.1 h)]
    congr 1
    omega

theorem roundingExponent_mul {num den k : ℕ} (hnum : num ≠ 0) (hden : den ≠ 0) (hk : k ≠ 0) :
    roundingExponent (num * k) (den * k) = roundingExponent num den := by
  rw [roundingExponent_eq (Nat.mul_ne_zero hnum hk) (Nat.mul_ne_zero hden hk),
    roundingExponent_eq hnum hden]
  push_cast
  rw [mul_div_mul_right _ _ (by positivity)]

theorem eq_of_magnitude {x y : Binary64} (hn : x.negative = y.negative)
    (hm : x.magnitude.val = y.magnitude.val) : x = y := by
  cases x
  cases y
  rw [mk.injEq]
  exact ⟨hn, Fin.ext hm⟩

theorem ofQuotient_zero (negative : Bool) (den : ℕ) : ofQuotient negative 0 den = zero negative :=
  rfl

theorem ofQuotient_of_ne_zero (negative : Bool) {num : ℕ} (hnum : num ≠ 0) (den : ℕ) :
    ofQuotient negative num den =
      ofCode negative ((roundingExponent num den + 1074).toNat * binade +
        divNearest (scale num den (roundingExponent num den)).1
          (scale num den (roundingExponent num den)).2) :=
  if_neg hnum

/-- **Rounding a quotient** does not depend on how it is written. -/
theorem ofQuotient_mul (negative : Bool) (num : ℕ) {den k : ℕ} (hden : den ≠ 0) (hk : k ≠ 0) :
    ofQuotient negative (num * k) (den * k) = ofQuotient negative num den := by
  by_cases hnum : num = 0
  · rw [hnum, Nat.zero_mul, ofQuotient_zero, ofQuotient_zero]
  · rw [ofQuotient_of_ne_zero _ (Nat.mul_ne_zero hnum hk), ofQuotient_of_ne_zero _ hnum,
      roundingExponent_mul hnum hden hk, scale_mul, divNearest_mul _ _ _ (Nat.pos_of_ne_zero hk)]

/-- Equal quotients are rounded to the same number. -/
theorem ofQuotient_congr (negative : Bool) {num den num' den' : ℕ} (hden : den ≠ 0)
    (hden' : den' ≠ 0) (h : num * den' = num' * den) :
    ofQuotient negative num den = ofQuotient negative num' den' := by
  rw [← ofQuotient_mul negative num hden hden', h, Nat.mul_comm den,
    ofQuotient_mul negative num' hden' hden]

/-! ## Numbers that need no rounding -/

/-- A number is finite if its code lies below that of infinity. -/
def Finite (x : Binary64) : Prop := x.magnitude.val < infinityCode

theorem finite_or_infinite {x : Binary64} (h : x.isNaN = false) :
    x.Finite ∨ x = infinity x.negative := by
  simp only [isNaN, decide_eq_false_iff_not, not_lt] at h
  rcases h.lt_or_eq with h | h
  · exact .inl h
  · exact .inr (eq_of_magnitude rfl h)

theorem significand_ne_zero {x : Binary64} (h : x.isZero = false) : x.significand ≠ 0 := by
  simp only [isZero, decide_eq_false_iff_not] at h
  unfold significand
  split
  · exact h
  · have := binade_eq
    omega

theorem significand_lt (x : Binary64) : x.significand < 2 * binade := by
  unfold significand
  have : 0 < binade := by norm_num [binade]
  have := Nat.mod_lt x.magnitude.val this
  split
  · omega
  · omega

/-- The code of a number, from its significand and its exponent. -/
theorem code_eq (x : Binary64) :
    (x.exponent + 1074).toNat * binade + x.significand = x.magnitude := by
  unfold exponent significand
  have hpos : 0 < binade := by norm_num [binade]
  split
  · simp
  · next h =>
    have hdiv : 1 ≤ x.magnitude.val / binade := (Nat.one_le_div_iff hpos).2 (Nat.le_of_not_lt h)
    have hq : (((x.magnitude.val / binade : ℕ) : ℤ) - 1075 + 1074).toNat =
        x.magnitude.val / binade - 1 := by omega
    rw [hq, ← Nat.add_assoc, ← Nat.succ_mul]
    have := Nat.div_add_mod x.magnitude.val binade
    rw [Nat.succ_eq_add_one, Nat.sub_add_cancel hdiv, Nat.mul_comm]
    exact this

/-- The exponent of a number is the one that its value is rounded at. -/
theorem exponent_eq {x : Binary64} (h : x.isZero = false) :
    max (Int.log 2 (x.significand * 2 ^ x.exponent : ℚ) - 52) (-1074) = x.exponent := by
  have hm : x.significand ≠ 0 := significand_ne_zero h
  have hv : (0 : ℚ) < x.significand * 2 ^ x.exponent := by positivity
  have hup : Int.log 2 (x.significand * 2 ^ x.exponent : ℚ) < x.exponent + 53 := by
    rw [← lt_two_zpow_iff hv, zpow_add₀ (by norm_num), mul_comm]
    have hlt : (x.significand : ℚ) < 2 ^ 53 := by
      have := x.significand_lt
      rw [binade_eq] at this
      exact_mod_cast this
    gcongr
    exact_mod_cast hlt
  by_cases hsmall : x.magnitude.val < binade
  · -- next to zero the least exponent decides
    have hexp : x.exponent = -1074 := by
      rw [exponent, if_pos hsmall]
      norm_num
    have hsig : x.significand = x.magnitude.val := by rw [significand, if_pos hsmall]
    have hlog : Int.log 2 (x.significand * 2 ^ x.exponent : ℚ) < x.exponent + 52 := by
      rw [← lt_two_zpow_iff hv, zpow_add₀ (by norm_num), mul_comm]
      have hlt : (x.significand : ℚ) < 2 ^ 52 := by
        rw [hsig]
        rw [binade_eq] at hsmall
        exact_mod_cast hsmall
      gcongr
      exact_mod_cast hlt
    omega
  · have hlow : x.exponent + 52 ≤ Int.log 2 (x.significand * 2 ^ x.exponent : ℚ) := by
      rw [← two_zpow_le_iff hv, zpow_add₀ (by norm_num), mul_comm]
      have hle : (2 : ℚ) ^ 52 ≤ x.significand := by
        rw [significand, if_neg hsmall, binade_eq]
        push_cast
        linarith [(Nat.cast_nonneg (x.magnitude.val % 2 ^ 52) : (0 : ℚ) ≤ _)]
      gcongr
      exact_mod_cast hle
    have hexp : -1074 ≤ x.exponent := by
      rw [exponent, if_neg hsmall]
      have hpos : 0 < binade := by norm_num [binade]
      have := (Nat.one_le_div_iff hpos).2 (Nat.le_of_not_lt hsmall)
      omega
    omega

/-- **A number whose value is given** is what rounding gives. -/
theorem ofQuotient_of_eq {x : Binary64} (hz : x.isZero = false) (hfin : x.Finite) {num den : ℕ}
    (hden : den ≠ 0) (h : (num / den : ℚ) = x.significand * 2 ^ x.exponent) :
    ofQuotient x.negative num den = x := by
  have hm : x.significand ≠ 0 := significand_ne_zero hz
  have hnum : num ≠ 0 := by
    rintro rfl
    have hv : (0 : ℚ) < x.significand * 2 ^ x.exponent := by positivity
    rw [← h] at hv
    simp at hv
  have hq : roundingExponent num den = x.exponent := by
    rw [roundingExponent_eq hnum hden, h, exponent_eq hz]
  have hd : (0 : ℚ) < (scale num den x.exponent).2 := by
    exact_mod_cast scale_den_pos (Nat.pos_of_ne_zero hden) x.exponent
  -- at its own exponent the number is a whole number of units
  have hunits : (scale num den x.exponent).1 = x.significand * (scale num den x.exponent).2 := by
    have hs := scale_div num (Nat.pos_of_ne_zero hden) x.exponent
    rw [h, mul_div_assoc, div_self (by positivity), mul_one, div_eq_iff hd.ne'] at hs
    exact_mod_cast hs
  rw [ofQuotient_of_ne_zero _ hnum, hq, hunits, divNearest_mul_self _ (by exact_mod_cast hd),
    code_eq]
  exact eq_of_magnitude rfl (Nat.min_eq_left (Nat.le_of_lt hfin))

end Binary64

end Sexpr
