import Sexpr.Binary64.Shortest
import Sexpr.Proofs.Binary64.Nearest

/-!
# The shortest decimal reads back

The decimal number that is chosen for a finite number rounds to that number (`ofDecimal_shortest`):
a candidate of the search is taken only if it does, and the number's own decimal expansion, which
is taken if no candidate is, needs no rounding.

A decimal number may be written with zeros behind its digits: `ofDecimal_shift` says that these do
not matter, and `ofDecimal_shortest_shift` puts both together for the digits that are printed.
-/

namespace Sexpr

namespace Binary64

/-! ## Decimal numbers -/

theorem ofDecimal_zero (negative : Bool) (exponent : ℤ) :
    ofDecimal ⟨negative, 0, exponent⟩ = zero negative := rfl

/-- **Zeros behind the digits** of a decimal number do not matter. -/
theorem ofDecimal_shift (negative : Bool) (c : ℕ) (e : ℤ) (k : ℕ) :
    ofDecimal ⟨negative, c * 10 ^ k, e - k⟩ = ofDecimal ⟨negative, c, e⟩ := by
  rw [ofDecimal_eq_ofQuotient, ofDecimal_eq_ofQuotient]
  refine ofQuotient_congr negative (by positivity) (by positivity) ?_
  have hexp : k + (e - k).toNat + (-e).toNat = e.toNat + (-(e - k)).toNat := by omega
  calc c * 10 ^ k * 10 ^ (e - k).toNat * 10 ^ (-e).toNat
      = c * 10 ^ (k + (e - k).toNat + (-e).toNat) := by rw [pow_add, pow_add]; ring
    _ = c * 10 ^ e.toNat * 10 ^ (-(e - k)).toNat := by rw [hexp, pow_add]; ring

/-! ## The choice of the digits -/

/-- The decimal expansion of a number needs no rounding. -/
theorem ofDecimal_exactDecimal {x : Binary64} (hz : x.isZero = false) (hfin : x.Finite) :
    ofDecimal x.exactDecimal = x := by
  rw [ofDecimal_eq_ofQuotient]
  unfold exactDecimal
  split
  · next h =>
    obtain ⟨k, hk⟩ : ∃ k : ℕ, x.exponent = k := ⟨x.exponent.toNat, by omega⟩
    refine ofQuotient_of_eq hz hfin (by positivity) ?_
    simp [hk, Nat.shiftLeft_eq]
  · next h =>
    obtain ⟨k, hk⟩ : ∃ k : ℕ, x.exponent = -k := ⟨(-x.exponent).toNat, by omega⟩
    refine ofQuotient_of_eq hz hfin (by positivity) ?_
    simp only [hk, neg_neg, Int.toNat_natCast, Nat.pow_eq, Int.toNat_neg_natCast, pow_zero, mul_one,
      zpow_neg, zpow_natCast]
    push_cast
    rw [show (10 : ℚ) ^ k = 5 ^ k * 2 ^ k by rw [← mul_pow]; norm_num]
    field_simp

theorem readsAs_of_onGrid? {x : Binary64} {k : ℤ} {d : Decimal} (h : x.onGrid? k = some d) :
    ofDecimal d = x ∧ d.negative = x.negative := by
  unfold onGrid? at h
  have hmem := List.mem_of_find?_eq_some h
  have hreads := List.find?_some h
  simp only [readsAs, decide_eq_true_eq] at hreads
  refine ⟨hreads, ?_⟩
  simp only [List.mem_cons, List.not_mem_nil, or_false] at hmem
  rcases hmem with rfl | rfl <;> rfl

theorem readsAs_of_searchGrids {x : Binary64} {count : ℕ} {k : ℤ} {d : Decimal}
    (h : x.searchGrids count k = some d) : ofDecimal d = x ∧ d.negative = x.negative := by
  induction count generalizing k with
  | zero => simp [searchGrids] at h
  | succ count ih =>
    rw [searchGrids, Option.or_eq_some_iff] at h
    rcases h with h | ⟨-, h⟩
    · exact readsAs_of_onGrid? h
    · exact ih h

/-- **The decimal number that is chosen** rounds to the number it is chosen for. -/
theorem ofDecimal_shortest {x : Binary64} (hfin : x.Finite) :
    ofDecimal x.shortest = x ∧ x.shortest.negative = x.negative := by
  unfold shortest
  split
  · next hz =>
    refine ⟨?_, rfl⟩
    rw [ofDecimal_zero]
    exact eq_of_magnitude rfl (of_decide_eq_true hz).symm
  · next hz =>
    have hz : x.isZero = false := by simpa using hz
    cases h : x.searchGrids 24 x.topGrid with
    | none =>
      refine ⟨ofDecimal_exactDecimal hz hfin, ?_⟩
      change x.exactDecimal.negative = _
      unfold exactDecimal
      split <;> rfl
    | some d => exact readsAs_of_searchGrids h

/-- The digits that are chosen, with zeros behind them. -/
theorem ofDecimal_shortest_shift {x : Binary64} (hfin : x.Finite) (k : ℕ) :
    ofDecimal ⟨x.negative, x.shortest.coefficient * 10 ^ k, x.shortest.exponent - k⟩ = x := by
  obtain ⟨hreads, hneg⟩ := ofDecimal_shortest hfin
  rw [← hneg]
  exact (ofDecimal_shift _ _ _ k).trans hreads

end Binary64

end Sexpr
