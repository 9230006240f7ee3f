import Sexpr.Proofs.Binary64.Rounding

/-!
# Rounding is to the nearest number

The magnitudes come in the order of their codes (`codeValue_strictMono`), and infinity has the code
where the next power of two would be. So a number lies between two neighbouring codes, and rounding
takes the nearer one, or the even one (`exists_nearestCode`).

For decimal numbers this is `rounds_ofDecimal`: no finite number is nearer than the one that
`ofDecimal` gives, and infinity is given exactly to what lies too far above the largest one. The
numbers that are too large or too small to be worked out make no difference
(`ofDecimal_eq_ofQuotient`).

`same_iff` says that the comparison of codes is the comparison of numbers.
-/

namespace Sexpr

/-- The decimal number as a rational number. -/
def Decimal.toRat (d : Decimal) : ℚ :=
  (if d.negative then -1 else 1) * (d.coefficient * 10 ^ d.exponent)

namespace Binary64

/-- The value of a finite number. -/
def toRat (x : Binary64) : ℚ := (if x.negative then -1 else 1) * (x.significand * 2 ^ x.exponent)

/-! ## Codes in order -/

/-- The value of the magnitude with a code, as if there were no infinity. -/
def codeValue (code : ℕ) : ℚ :=
  (if code < binade then code else binade + code % binade : ℕ) *
    2 ^ (((if code < binade then 1 else code / binade : ℕ) : ℤ) - 1075)

/-- The code of a multiple of a power of two. The multiple may have one bit more than a
significand: then the code is that of the next power. -/
theorem codeValue_eq {e k : ℕ} (hk : k ≤ 2 * binade) (h : e = 0 ∨ binade ≤ k) :
    codeValue (e * binade + k) = k * 2 ^ ((e : ℤ) - 1074) := by
  have hpos : 0 < binade := by norm_num [binade]
  unfold codeValue
  by_cases hsmall : k < binade
  · obtain rfl : e = 0 := h.resolve_right (not_le.2 hsmall)
    rw [Nat.zero_mul, Nat.zero_add, if_pos hsmall, if_pos hsmall]
    norm_num
  · have hle : ¬e * binade + k < binade := by omega
    rw [if_neg hle, if_neg hle]
    rcases lt_or_eq_of_le hk with hlt | rfl
    · obtain ⟨r, rfl⟩ := Nat.exists_eq_add_of_le (Nat.le_of_not_lt hsmall)
      have hr : r < binade := by omega
      have hcode : e * binade + (binade + r) = r + binade * (e + 1) := by ring
      rw [hcode, Nat.add_mul_div_left _ _ hpos, Nat.add_mul_mod_self_left, Nat.div_eq_of_lt hr,
        Nat.mod_eq_of_lt hr, Nat.zero_add]
      push_cast
      ring_nf
    · have hcode : e * binade + 2 * binade = binade * (e + 2) := by ring
      rw [hcode, Nat.mul_div_cancel_left _ hpos, Nat.mul_mod_right, Nat.add_zero]
      have hexp : ((e + 2 : ℕ) : ℤ) - 1075 = (e - 1074) + 1 := by push_cast; ring
      rw [hexp, zpow_add_one₀ (by norm_num)]
      push_cast
      ring

/-- Each code is that of a significand at an exponent. -/
theorem exists_code (code : ℕ) :
    ∃ e k, code = e * binade + k ∧ k < 2 * binade ∧ (e = 0 ∨ binade ≤ k) := by
  have hpos : 0 < binade := by norm_num [binade]
  by_cases h : code < binade
  · exact ⟨0, code, by omega, by omega, .inl rfl⟩
  · have hdiv : 1 ≤ code / binade := (Nat.one_le_div_iff hpos).2 (Nat.le_of_not_lt h)
    have hmod := Nat.mod_lt code hpos
    refine ⟨code / binade - 1, binade + code % binade, ?_, by omega, .inr (by omega)⟩
    rw [← Nat.add_assoc, ← Nat.succ_mul, Nat.succ_eq_add_one, Nat.sub_add_cancel hdiv, Nat.mul_comm]
    exact (Nat.div_add_mod code binade).symm

/-- **The magnitudes come in the order of their codes.** -/
theorem codeValue_strictMono : StrictMono codeValue := by
  refine strictMono_nat_of_lt_succ fun code => ?_
  obtain ⟨e, k, rfl, hk, h⟩ := exists_code code
  have hsucc : e = 0 ∨ binade ≤ k + 1 := h.imp_right Nat.le_succ_of_le
  rw [Nat.add_assoc, codeValue_eq hk.le h, codeValue_eq hk hsucc]
  push_cast
  gcongr
  linarith

theorem codeValue_zero : codeValue 0 = 0 := by
  have hpos : 0 < binade := by norm_num [binade]
  simp [codeValue, hpos]

theorem codeValue_nonneg (code : ℕ) : 0 ≤ codeValue code := by
  rw [← codeValue_zero]
  exact codeValue_strictMono.monotone (Nat.zero_le code)

/-- The least positive number. -/
theorem codeValue_one : codeValue 1 = 2 ^ (-1074 : ℤ) := by
  have h := codeValue_eq (e := 0) (k := 1) (by norm_num [binade]) (.inl rfl)
  norm_num at h
  rw [h]
  norm_num

/-- Infinity has the code of the first power of two above the finite numbers. -/
theorem codeValue_infinityCode : codeValue infinityCode = 2 ^ 1024 := by
  have hcode : infinityCode = 2046 * binade + binade := rfl
  have hexp : ((2046 : ℕ) : ℤ) - 1074 = (972 : ℕ) := by norm_num
  have hmul : (binade : ℚ) = 2 ^ 52 := by norm_num [binade]
  rw [hcode, codeValue_eq (by omega) (.inr le_rfl), hexp, zpow_natCast, hmul]
  exact (pow_add 2 52 972).symm

/-- The largest finite number. -/
theorem codeValue_largest : codeValue (infinityCode - 1) = 2 ^ 1024 - 2 ^ 971 := by
  have hcode : infinityCode - 1 = 2045 * binade + (2 * binade - 1) := by
    norm_num [infinityCode, binade]
  have hexp : ((2045 : ℕ) : ℤ) - 1074 = (971 : ℕ) := by norm_num
  have hmul : ((2 * binade - 1 : ℕ) : ℚ) = 2 ^ 53 - 1 := by norm_num [binade]
  rw [hcode, codeValue_eq (by omega) (.inr (by norm_num [binade])), hexp, zpow_natCast, hmul,
    sub_mul, one_mul]
  exact congrArg (· - (2 : ℚ) ^ 971) (pow_add 2 53 971).symm

/-! ## The nearest code -/

/-- No code has a value nearer to `v`, and if another one is as near, then this one is even. -/
structure NearestCode (v : ℚ) (code : ℕ) : Prop where
  le : ∀ other, |codeValue code - v| ≤ |codeValue other - v|
  even : ∀ other ≠ code, |codeValue other - v| = |codeValue code - v| → code % 2 = 0

variable {v : ℚ} {code other : ℕ}

theorem le_abs_of_lt (h : code < other) : codeValue (code + 1) - v ≤ |codeValue other - v| :=
  (sub_le_sub_right (codeValue_strictMono.monotone h) v).trans (le_abs_self _)

theorem le_abs_of_le (h : other ≤ code) : v - codeValue code ≤ |codeValue other - v| := by
  rw [abs_sub_comm]
  exact (sub_le_sub_left (codeValue_strictMono.monotone h) v).trans (le_abs_self _)

/-- The lower one of two neighbours. -/
theorem nearestCode_lower (hlow : codeValue code ≤ v)
    (hnear : v - codeValue code ≤ codeValue (code + 1) - v)
    (heven : v - codeValue code = codeValue (code + 1) - v → code % 2 = 0) :
    NearestCode v code := by
  have hself : |codeValue code - v| = v - codeValue code := by
    rw [abs_sub_comm, abs_of_nonneg (sub_nonneg.2 hlow)]
  constructor
  · intro other
    rw [hself]
    rcases Nat.lt_or_ge code other with h | h
    · exact hnear.trans (le_abs_of_lt h)
    · exact le_abs_of_le h
  · intro other hne htie
    rw [hself] at htie
    rcases Nat.lt_or_ge code other with h | h
    · exact heven (hnear.antisymm ((le_abs_of_lt h).trans_eq htie))
    · have hlt := codeValue_strictMono (lt_of_le_of_ne h hne)
      have hfar := le_abs_of_le (v := v) (le_refl other)
      linarith

/-- The upper one of two neighbours. -/
theorem nearestCode_upper (hhigh : v ≤ codeValue (code + 1))
    (hnear : codeValue (code + 1) - v ≤ v - codeValue code)
    (heven : v - codeValue code = codeValue (code + 1) - v → (code + 1) % 2 = 0) :
    NearestCode v (code + 1) := by
  have hself : |codeValue (code + 1) - v| = codeValue (code + 1) - v :=
    abs_of_nonneg (sub_nonneg.2 hhigh)
  constructor
  · intro other
    rw [hself]
    rcases Nat.lt_or_ge code other with h | h
    · exact le_abs_of_lt h
    · exact hnear.trans (le_abs_of_le h)
  · intro other hne htie
    rw [hself] at htie
    rcases Nat.lt_or_ge code other with h | h
    · have hlt := codeValue_strictMono (lt_of_le_of_ne (Nat.succ_le_of_lt h) hne.symm)
      have hfar := le_abs_self (codeValue other - v)
      linarith
    · exact heven (((le_abs_of_le h).trans_eq htie).antisymm hnear)

/-! ## Rounding -/

/-- Rounding down leaves at most a half, rounding up at least a half, and a half goes to the even
neighbour. -/
theorem divNearest_cases (num den : ℕ) :
    (divNearest num den = num / den ∧ 2 * (num % den) ≤ den ∧
        (2 * (num % den) = den → num / den % 2 = 0)) ∨
      (divNearest num den = num / den + 1 ∧ den ≤ 2 * (num % den) ∧
        (2 * (num % den) = den → (num / den + 1) % 2 = 0)) := by
  simp only [divNearest]
  split <;> omega

/-- At its exponent a quotient has 53 bits before the point, or less at the least exponent. -/
theorem quotient_bounds {num den : ℕ} (hnum : num ≠ 0) (hden : den ≠ 0) {q : ℤ}
    (hq : q = roundingExponent num den) :
    (scale num den q).1 / (scale num den q).2 < 2 * binade ∧
      (q = -1074 ∨ binade ≤ (scale num den q).1 / (scale num den q).2) := by
  have hpos : 0 < (scale num den q).2 := scale_den_pos (Nat.pos_of_ne_zero hden) _
  rw [roundingExponent_eq hnum hden] at hq
  constructor
  · have hlog : Int.log 2 (num / den : ℚ) < q + (53 : ℕ) := by
      rw [hq]
      have := le_max_left (Int.log 2 (num / den : ℚ) - 52) (-1074)
      push_cast
      linarith
    have hlt := (scale_lt_two_pow_iff hnum hden q 53).2 hlog
    rw [Nat.div_lt_iff_lt_mul hpos, Nat.mul_comm, binade_eq]
    exact hlt
  · rcases le_total (Int.log 2 (num / den : ℚ) - 52) (-1074) with h | h
    · exact .inl (hq.trans (max_eq_right h))
    · have hlog : ¬Int.log 2 (num / den : ℚ) < q + 52 := by
        rw [hq, max_eq_left h, sub_add_cancel]
        exact lt_irrefl _
      have hle := Nat.le_of_not_lt (mt (scale_lt_iff hnum hden q).1 hlog)
      right
      rwa [Nat.le_div_iff_mul_le hpos, Nat.mul_comm]

/-- The two codes next to a quotient, and how far it is behind the first one, in units of the last
place. -/
theorem exists_neighbours {num den : ℕ} (hnum : num ≠ 0) (hden : den ≠ 0) {q : ℤ}
    (hq : q = roundingExponent num den) {n d : ℕ} (hscale : scale num den q = (n, d)) :
    let code := (q + 1074).toNat * binade + n / d
    codeValue code = (n / d : ℕ) * 2 ^ q ∧ codeValue (code + 1) = ((n / d : ℕ) + 1) * 2 ^ q ∧
      (num / den : ℚ) = ((n / d : ℕ) + (n % d : ℕ) / d) * 2 ^ q ∧ 0 < d ∧
      code % 2 = n / d % 2 := by
  obtain ⟨hlt, hlow⟩ := quotient_bounds hnum hden hq
  have hpos : 0 < (scale num den q).2 := scale_den_pos (Nat.pos_of_ne_zero hden) q
  have hvalue := scale_div num (Nat.pos_of_ne_zero hden) q
  rw [hscale] at hlt hlow hpos hvalue
  have hge : -1074 ≤ q := by
    rw [hq, roundingExponent_eq hnum hden]
    exact le_max_right _ _
  have hexp : ((q + 1074).toNat : ℤ) - 1074 = q := by omega
  have hleast : (q + 1074).toNat = 0 ∨ binade ≤ n / d := hlow.imp_left (by omega)
  intro code
  refine ⟨?_, ?_, ?_, hpos, ?_⟩
  · rw [codeValue_eq hlt.le hleast, hexp]
  · rw [Nat.add_assoc, codeValue_eq hlt (hleast.imp_right Nat.le_succ_of_le), hexp]
    push_cast
    rfl
  · have hd : (d : ℚ) ≠ 0 := by exact_mod_cast hpos.ne'
    have hu : (2 : ℚ) ^ q ≠ 0 := by positivity
    have hdiv : (n : ℚ) = d * (n / d : ℕ) + (n % d : ℕ) := by
      exact_mod_cast (Nat.div_add_mod n d).symm
    rw [eq_div_iff hu] at hvalue
    rw [← hvalue]
    congr 1
    field_simp
    exact hdiv
  · have heven : binade % 2 = 0 := by norm_num [binade]
    rw [Nat.add_mod, Nat.mul_mod, heven, Nat.mul_zero, Nat.zero_mod, Nat.zero_add, Nat.mod_mod]

/-- **A quotient is rounded** to the nearest code. -/
theorem nearestCode_quotient {num den : ℕ} (hnum : num ≠ 0) (hden : den ≠ 0) {q : ℤ}
    (hq : q = roundingExponent num den) {n d : ℕ} (hscale : scale num den q = (n, d)) :
    NearestCode (num / den) ((q + 1074).toNat * binade + divNearest n d) := by
  obtain ⟨hlow, hhigh, hvalue, hpos, hparity⟩ := exists_neighbours hnum hden hq hscale
  have hd : (0 : ℚ) < d := by exact_mod_cast hpos
  have hu : (0 : ℚ) < 2 ^ q := by positivity
  -- the distances to the two neighbours, in the same unit
  have hbehind : (num / den : ℚ) - codeValue ((q + 1074).toNat * binade + n / d) =
      (n % d : ℕ) / d * 2 ^ q := by
    rw [hvalue, hlow]
    ring
  have hbefore : codeValue ((q + 1074).toNat * binade + n / d + 1) - (num / den : ℚ) =
      (d - (n % d : ℕ)) / d * 2 ^ q := by
    rw [hvalue, hhigh, sub_div, div_self hd.ne']
    ring
  have hle : ((n % d : ℕ) : ℚ) ≤ d := by exact_mod_cast (Nat.mod_lt n hpos).le
  have htie : ((n % d : ℕ) : ℚ) / d * 2 ^ q = (d - (n % d : ℕ)) / d * 2 ^ q → 2 * (n % d) = d := by
    intro h
    have h' := (div_left_inj' hd.ne').1 (mul_right_cancel₀ hu.ne' h)
    have htwice : (2 * (n % d : ℕ) : ℚ) = d := by linarith
    exact_mod_cast htwice
  rcases divNearest_cases n d with ⟨hround, hhalf, heven⟩ | ⟨hround, hhalf, heven⟩
  · have hhalf' : (2 * (n % d : ℕ) : ℚ) ≤ d := by exact_mod_cast hhalf
    rw [hround]
    refine nearestCode_lower ?_ ?_ ?_
    · rw [← sub_nonneg, hbehind]
      positivity
    · rw [hbehind, hbefore]
      gcongr
      linarith
    · rw [hbehind, hbefore, hparity]
      exact fun h => heven (htie h)
  · have hhalf' : (d : ℚ) ≤ 2 * (n % d : ℕ) := by exact_mod_cast hhalf
    rw [hround, ← Nat.add_assoc]
    refine nearestCode_upper ?_ ?_ ?_
    · rw [← sub_nonneg, hbefore]
      exact mul_nonneg (div_nonneg (sub_nonneg.2 hle) hd.le) hu.le
    · rw [hbehind, hbefore]
      gcongr
      linarith
    · rw [hbehind, hbefore, Nat.add_mod, hparity, ← Nat.add_mod]
      exact fun h => heven (htie h)

/-- Rounding a quotient is taking the nearest code, as far as there are numbers. -/
theorem exists_nearestCode (num : ℕ) {den : ℕ} (hden : den ≠ 0) :
    ∃ code, NearestCode (num / den) code ∧
      ∀ negative, ofQuotient negative num den = ofCode negative code := by
  by_cases hnum : num = 0
  · refine ⟨0, ?_, ?_⟩
    · rw [hnum, Nat.cast_zero, zero_div]
      refine nearestCode_lower codeValue_zero.le ?_ (fun _ => rfl)
      rw [codeValue_zero, sub_zero, sub_zero]
      exact codeValue_nonneg _
    · intro negative
      rw [hnum, ofQuotient_zero]
      exact eq_of_magnitude rfl rfl
  · refine ⟨_, nearestCode_quotient hnum hden rfl Prod.mk.eta.symm, fun negative => ?_⟩
    rw [ofQuotient_of_ne_zero negative hnum]

/-! ## Too large and too small -/

variable {v : ℚ} {code : ℕ}

/-- What is less than half of the least positive number is rounded to zero. -/
theorem NearestCode.eq_zero (h : NearestCode v code) (hv : 0 ≤ v) (hsmall : 2 * v < codeValue 1) :
    code = 0 := by
  by_contra hne
  have hle := h.le 0
  have hone := codeValue_strictMono.monotone (Nat.one_le_iff_ne_zero.2 hne)
  have hfar := le_abs_self (codeValue code - v)
  rw [codeValue_zero, zero_sub, abs_neg, abs_of_nonneg hv] at hle
  linarith

/-- Where a number reaches infinity: halfway between the largest finite number and the next power
of two. -/
def overflow : ℚ := 2 ^ 1024 - 2 ^ 970

theorem two_mul_overflow :
    2 * overflow = codeValue (infinityCode - 1) + codeValue infinityCode := by
  have hdouble : (2 : ℚ) ^ 971 = 2 * 2 ^ 970 := pow_succ' 2 970
  rw [overflow, codeValue_largest, codeValue_infinityCode, hdouble]
  generalize (2 : ℚ) ^ 1024 = a
  generalize (2 : ℚ) ^ 970 = b
  ring

theorem codeValue_largest_lt : codeValue (infinityCode - 1) < codeValue infinityCode :=
  codeValue_strictMono (by norm_num [infinityCode, binade])

/-- The nearest code is beyond the finite numbers exactly from the overflow on. -/
theorem NearestCode.infinityCode_le_iff (h : NearestCode v code) :
    infinityCode ≤ code ↔ overflow ≤ v := by
  have htwice := two_mul_overflow
  have hlast := codeValue_largest_lt
  constructor
  · intro hcode
    have hle := h.le (infinityCode - 1)
    have hmono := codeValue_strictMono.monotone hcode
    have hnear := le_abs_self (codeValue code - v)
    by_contra hlt
    rcases abs_cases (codeValue (infinityCode - 1) - v) with ⟨habs, -⟩ | ⟨habs, -⟩ <;> linarith
  · intro hv
    by_contra hlt
    rw [not_le] at hlt
    have hmono := codeValue_strictMono.monotone (Nat.le_sub_one_of_lt hlt)
    have hle := h.le infinityCode
    have hfar := (le_abs_self (v - codeValue code)).trans_eq (abs_sub_comm _ _)
    have hup : |codeValue infinityCode - v| = codeValue infinityCode - v := by
      rcases abs_cases (codeValue infinityCode - v) with ⟨habs, -⟩ | ⟨habs, -⟩
      · exact habs
      · linarith
    -- only a tie between the largest number and infinity is left, and the largest number is odd
    have hcode : code = infinityCode - 1 := codeValue_strictMono.injective (by linarith)
    have htie : |codeValue infinityCode - v| = |codeValue code - v| := by linarith
    have heven := h.even infinityCode hlt.ne' htie
    rw [hcode] at heven
    norm_num [infinityCode, binade] at heven

/-! ## Numbers -/

variable {x y : Binary64} {d : Decimal}

theorem significand_mod_two (x : Binary64) : x.significand % 2 = x.magnitude.val % 2 := by
  have hdvd : 2 ∣ binade := by norm_num [binade]
  unfold significand
  split
  · rfl
  · rw [Nat.add_mod, Nat.mod_eq_zero_of_dvd hdvd, Nat.zero_add, Nat.mod_mod,
      Nat.mod_mod_of_dvd _ hdvd]

theorem toRat_eq (x : Binary64) :
    x.toRat = (if x.negative then -1 else 1) * codeValue x.magnitude := rfl

theorem abs_toRat (x : Binary64) : |x.toRat| = codeValue x.magnitude := by
  have hpos := codeValue_nonneg x.magnitude
  rw [toRat_eq]
  cases x.negative <;> simp [abs_of_nonneg hpos]

/-- The distance of numbers with the same sign is that of their magnitudes. -/
theorem abs_toRat_sub (h : x.negative = d.negative) :
    |x.toRat - d.toRat| = abs (codeValue x.magnitude - |d.toRat|) := by
  have hpos : (0 : ℚ) ≤ d.coefficient * 10 ^ d.exponent := by positivity
  rw [toRat_eq, Decimal.toRat, h]
  cases d.negative
  · simp [abs_of_nonneg hpos]
  · simp only [↓reduceIte, neg_mul, one_mul, abs_neg, abs_of_nonneg hpos]
    rw [neg_sub_neg, abs_sub_comm]

/-- The distance of any two numbers is at least that of their magnitudes. -/
theorem le_abs_toRat_sub (y : Binary64) (d : Decimal) :
    abs (codeValue y.magnitude - |d.toRat|) ≤ |y.toRat - d.toRat| := by
  rw [← abs_toRat]
  exact abs_abs_sub_abs_le_abs_sub y.toRat d.toRat

/-- `x` is what the number `d` is rounded to: it has the sign of `d`, and no finite number is nearer
to `d`; of two equally near ones it is the one with an even significand. It is infinite exactly if
`d` lies too far above the largest finite number. -/
structure Rounds (d : Decimal) (x : Binary64) : Prop where
  negative : x.negative = d.negative
  notNaN : x.isNaN = false
  infinite_iff : x.isInfinite = true ↔ overflow ≤ |d.toRat|
  nearest : x.Finite → ∀ y : Binary64, y.Finite → |x.toRat - d.toRat| ≤ |y.toRat - d.toRat|
  even : x.Finite → ∀ y : Binary64, y.Finite → y.toRat ≠ x.toRat →
    |y.toRat - d.toRat| = |x.toRat - d.toRat| → x.significand % 2 = 0

/-- **Taking the nearest code** is rounding. -/
theorem rounds_ofCode {code : ℕ} (h : NearestCode |d.toRat| code) :
    Rounds d (ofCode d.negative code) := by
  have hmagnitude : (ofCode d.negative code).magnitude.val = min code infinityCode := rfl
  have hcode : (ofCode d.negative code).Finite →
      (ofCode d.negative code).magnitude.val = code := by
    intro hfin
    rw [Finite, hmagnitude] at hfin
    omega
  refine ⟨rfl, ?_, ?_, ?_, ?_⟩
  · rw [isNaN, hmagnitude, decide_eq_false_iff_not]
    omega
  · rw [isInfinite, hmagnitude, decide_eq_true_eq, min_eq_right_iff]
    exact h.infinityCode_le_iff
  · intro hfin y _
    rw [abs_toRat_sub rfl, hcode hfin]
    exact (h.le y.magnitude).trans (le_abs_toRat_sub y d)
  · intro hfin y _ hne htie
    have hdist := abs_toRat_sub (x := ofCode d.negative code) (d := d) rfl
    have hself := abs_toRat (ofCode d.negative code)
    rw [hcode hfin] at hdist hself
    rw [hdist] at htie
    rw [significand_mod_two, hcode hfin]
    by_cases hsame : y.magnitude.val = code
    · -- only the number of the other sign is left, and it is as near to zero alone
      have habs : |y.toRat| = |(ofCode d.negative code).toRat| := by rw [hself, abs_toRat, hsame]
      have hopposite := (abs_eq_abs.1 habs).resolve_left hne
      rw [← hdist, hopposite, abs_eq_abs] at htie
      have hzero : (ofCode d.negative code).toRat = 0 := by
        rcases htie with htie | htie
        · linarith
        · have hd : d.toRat = 0 := by linarith
          have hle := h.le 0
          rw [hd, abs_zero, codeValue_zero, sub_zero, sub_zero, abs_zero, ← hself, abs_abs] at hle
          exact abs_nonpos_iff.1 hle
      exact absurd (by rw [hopposite, hzero, neg_zero]) hne
    · refine h.even y.magnitude hsame (le_antisymm ?_ (h.le y.magnitude))
      exact (le_abs_toRat_sub y d).trans_eq htie

/-! ## Decimal numbers -/

theorem abs_toRat_decimal (d : Decimal) : |d.toRat| = d.coefficient * 10 ^ d.exponent := by
  have hpos : (0 : ℚ) ≤ d.coefficient * 10 ^ d.exponent := by positivity
  unfold Decimal.toRat
  cases d.negative <;> simp [abs_of_nonneg hpos]

/-- The two powers of ten, one of which is one. -/
theorem quotient_eq (c : ℕ) (e : ℤ) :
    ((c * 10 ^ e.toNat : ℕ) / (10 ^ (-e).toNat : ℕ) : ℚ) = c * 10 ^ e := by
  push_cast
  rw [mul_div_assoc, ← zpow_natCast, ← zpow_natCast, ← zpow_sub₀ (by norm_num)]
  congr 2
  omega

/-- A number of at least `10 ^ 401` is beyond all finite numbers. -/
theorem overflow_le_of_large {c : ℕ} {e : ℤ} (hc : c ≠ 0) (he : 400 < e) :
    overflow ≤ c * 10 ^ e := by
  have hc' : (1 : ℚ) ≤ c := by exact_mod_cast Nat.one_le_iff_ne_zero.2 hc
  have htwo : (2 : ℚ) ^ 1024 ≤ 10 ^ 401 := by
    calc (2 : ℚ) ^ 1024 ≤ 2 ^ (3 * 401) := pow_le_pow_right₀ (by norm_num) (by norm_num)
      _ = (2 ^ 3) ^ 401 := pow_mul 2 3 401
      _ ≤ 10 ^ 401 := by gcongr; norm_num
  calc overflow ≤ 2 ^ 1024 := sub_le_self _ (by positivity)
    _ ≤ 10 ^ 401 := htwo
    _ = 10 ^ (401 : ℤ) := (zpow_natCast 10 401).symm
    _ ≤ 10 ^ e := zpow_le_zpow_right₀ (by norm_num) he
    _ ≤ c * 10 ^ e := le_mul_of_one_le_left (by positivity) hc'

/-- A number below `10 ^ (-400)` is less than half of the least positive number. -/
theorem lt_least_of_small {c : ℕ} {e : ℤ} (he : e < -(400 + c.log2 : ℤ)) :
    2 * (c * 10 ^ e : ℚ) < codeValue 1 := by
  have hc : (c : ℚ) ≤ 2 ^ ((c.log2 : ℤ) + 1) := by
    have hlt : c < 2 ^ (c.log2 + 1) := Nat.lt_log2_self
    exact_mod_cast hlt.le
  have hten : (10 : ℚ) ^ e ≤ 2 ^ (-3 * (401 + c.log2 : ℤ)) := by
    calc (10 : ℚ) ^ e ≤ 10 ^ (-((401 + c.log2 : ℕ) : ℤ)) :=
          zpow_le_zpow_right₀ (by norm_num) (by push_cast; omega)
      _ = (10 ^ (401 + c.log2))⁻¹ := by rw [zpow_neg, zpow_natCast]
      _ ≤ ((2 ^ 3) ^ (401 + c.log2))⁻¹ := by gcongr; norm_num
      _ = 2 ^ (-3 * (401 + c.log2 : ℤ)) := by
        rw [← pow_mul, ← zpow_natCast, ← zpow_neg]
        congr 1
  calc 2 * (c * 10 ^ e : ℚ)
      ≤ 2 * (2 ^ ((c.log2 : ℤ) + 1) * 2 ^ (-3 * (401 + c.log2 : ℤ))) := by gcongr
    _ = 2 ^ (1 + ((c.log2 : ℤ) + 1 + -3 * (401 + c.log2 : ℤ))) := by
      rw [← zpow_add₀ (by norm_num), zpow_one_add₀ (by norm_num)]
    _ < 2 ^ (-1074 : ℤ) := zpow_lt_zpow_right₀ (by norm_num) (by omega)
    _ = codeValue 1 := codeValue_one.symm

/-- **Decimal numbers are rounded as quotients**, also those that are not worked out. -/
theorem ofDecimal_eq_ofQuotient (d : Decimal) :
    ofDecimal d = ofQuotient d.negative (d.coefficient * 10 ^ d.exponent.toNat)
      (10 ^ (-d.exponent).toNat) := by
  have hden : 10 ^ (-d.exponent).toNat ≠ 0 := by positivity
  obtain ⟨code, hnear, hquotient⟩ :=
    exists_nearestCode (d.coefficient * 10 ^ d.exponent.toNat) hden
  rw [quotient_eq] at hnear
  by_cases hc : d.coefficient = 0
  · rw [ofDecimal, if_pos hc, hc, Nat.zero_mul, ofQuotient_zero]
  by_cases hlarge : 400 < d.exponent
  · have hcode := hnear.infinityCode_le_iff.2 (overflow_le_of_large hc hlarge)
    rw [ofDecimal, if_neg hc, if_pos hlarge, hquotient]
    exact eq_of_magnitude rfl (Nat.min_eq_right hcode).symm
  by_cases hsmall : d.exponent < -(400 + d.coefficient.log2 : ℤ)
  · have hcode := hnear.eq_zero (by positivity) (lt_least_of_small hsmall)
    rw [ofDecimal, if_neg hc, if_neg hlarge, if_pos hsmall, hquotient, hcode]
    exact eq_of_magnitude rfl rfl
  -- what is left is worked out, one of the two powers of ten being one
  rw [ofDecimal, if_neg hc, if_neg hlarge, if_neg hsmall]
  split
  · next hsign =>
    have hone : (-d.exponent).toNat = 0 := by omega
    rw [hone]
    rfl
  · next hsign =>
    have hone : d.exponent.toNat = 0 := by omega
    rw [hone, pow_zero, Nat.mul_one]
    rfl

/-- **Decimal numbers are rounded** to the nearest number. -/
theorem rounds_ofDecimal (d : Decimal) : Rounds d (ofDecimal d) := by
  have hden : 10 ^ (-d.exponent).toNat ≠ 0 := by positivity
  obtain ⟨code, hnear, hquotient⟩ :=
    exists_nearestCode (d.coefficient * 10 ^ d.exponent.toNat) hden
  rw [quotient_eq, ← abs_toRat_decimal] at hnear
  rw [ofDecimal_eq_ofQuotient, hquotient]
  exact rounds_ofCode hnear

/-! ## Equality -/

/-- Equality of numbers: finite ones with the same value are equal, and infinite ones with the same
sign. -/
inductive NumEq : Binary64 → Binary64 → Prop
  | finite {x y : Binary64} : x.Finite → y.Finite → x.toRat = y.toRat → NumEq x y
  | infinite (negative : Bool) : NumEq (infinity negative) (infinity negative)

theorem Finite.isNaN (h : x.Finite) : x.isNaN = false :=
  decide_eq_false (not_lt.2 h.le)

theorem NumEq.symm (h : x.NumEq y) : y.NumEq x := by
  cases h with
  | finite hx hy hvalue => exact .finite hy hx hvalue.symm
  | infinite negative => exact .infinite negative

theorem NumEq.trans {z : Binary64} (h : x.NumEq y) (h' : y.NumEq z) : x.NumEq z := by
  cases h with
  | finite hx hy hvalue =>
    cases h' with
    | finite _ hz hvalue' => exact .finite hx hz (hvalue.trans hvalue')
    | infinite negative => exact absurd hy (lt_irrefl infinityCode)
  | infinite negative => exact h'

/-- Only a NaN is not equal to itself. -/
theorem numEq_self_iff : x.NumEq x ↔ x.isNaN = false := by
  constructor
  · rintro (⟨hx, -, -⟩ | negative)
    · exact hx.isNaN
    · exact decide_eq_false (lt_irrefl infinityCode)
  · intro hx
    rcases finite_or_infinite hx with hfinite | hinfinite
    · exact .finite hfinite hfinite rfl
    · rw [hinfinite]
      exact .infinite _

theorem toRat_eq_zero (h : x.isZero = true) : x.toRat = 0 := by
  have hzero : x.magnitude.val = 0 := of_decide_eq_true h
  rw [toRat_eq, hzero, codeValue_zero, mul_zero]

theorem finite_of_isZero (h : x.isZero = true) : x.Finite := by
  have hzero : x.magnitude.val = 0 := of_decide_eq_true h
  rw [Finite, hzero]
  norm_num [infinityCode, binade]

/-- A value is that of one number, or of the two zeros. -/
theorem eq_or_isZero_of_toRat_eq (h : x.toRat = y.toRat) :
    x = y ∨ x.isZero = true ∧ y.isZero = true := by
  have hcode : x.magnitude.val = y.magnitude.val := by
    apply codeValue_strictMono.injective
    rw [← abs_toRat, ← abs_toRat, h]
  by_cases hzero : x.magnitude.val = 0
  · exact .inr ⟨decide_eq_true hzero, decide_eq_true (hcode ▸ hzero)⟩
  · left
    have hne : codeValue y.magnitude ≠ 0 := by
      rw [← hcode, ← codeValue_zero]
      exact codeValue_strictMono.injective.ne hzero
    rw [toRat_eq, toRat_eq, hcode, mul_left_inj' hne] at h
    refine eq_of_magnitude ?_ hcode
    cases hx : x.negative <;> cases hy : y.negative <;> simp [hx, hy] at h ⊢ <;> linarith

/-- **The comparison of codes** is the comparison of numbers. -/
theorem same_iff : x.same y = true ↔ x.NumEq y := by
  simp only [same, Bool.and_eq_true, Bool.or_eq_true, Bool.not_eq_true', decide_eq_true_eq]
  constructor
  · rintro ⟨⟨hx, -⟩, rfl | ⟨hzero, hzero'⟩⟩
    · rcases finite_or_infinite hx with hfin | hinf
      · exact .finite hfin hfin rfl
      · rw [hinf]
        exact .infinite _
    · refine .finite (finite_of_isZero hzero) (finite_of_isZero hzero') ?_
      rw [toRat_eq_zero hzero, toRat_eq_zero hzero']
  · rintro (⟨hx, hy, hvalue⟩ | negative)
    · exact ⟨⟨hx.isNaN, hy.isNaN⟩, eq_or_isZero_of_toRat_eq hvalue⟩
    · have hnan : (infinity negative).isNaN = false := decide_eq_false (lt_irrefl infinityCode)
      exact ⟨⟨hnan, hnan⟩, .inl rfl⟩

end Binary64

end Sexpr
