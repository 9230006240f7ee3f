import Sexpr.Numeral.Blocks
import Mathlib.Data.List.Basic
import Mathlib.Data.List.Induction

/-!
# Blocks of digits come to the whole

A numeral is converted block by block, in both directions. Here the blocks are seen to leave no
trace: `value?_eq` says that a row of digits has its positional value, `digits_eq_toDigits` that a
number is written with its decimal digits and nothing else.

`toDigits_ofDigitChars` is behind the second one: a row of digits without a zero in front is the
row that its value is written with.
-/

namespace Sexpr

namespace Numeral

/-! ## Rows of digits -/

theorem all_isDigit_toDigits (n : Nat) : (Nat.toDigits 10 n).all Char.isDigit = true := by
  rw [List.all_eq_true]
  exact fun _ hc => Nat.isDigit_of_mem_toDigits (by decide) (by decide) hc

theorem all_isDigit_replicate (n : Nat) : (List.replicate n '0').all Char.isDigit = true := by
  rw [List.all_eq_true]
  intro c hc
  rw [List.eq_of_mem_replicate hc]
  rfl

theorem toNat_bounds_of_isDigit {c : Char} (h : c.isDigit = true) :
    48 ≤ c.toNat ∧ c.toNat ≤ 57 := by
  simp only [Char.isDigit, Bool.and_eq_true, decide_eq_true_eq, ge_iff_le, UInt32.le_iff_toNat_le]
    at h
  exact h

/-- A digit is the one that its value is written with. -/
theorem digitChar_toNat_sub {c : Char} (h : c.isDigit = true) :
    c.toNat - '0'.toNat < 10 ∧ (c.toNat - '0'.toNat).digitChar = c := by
  obtain ⟨hlow, hhigh⟩ := toNat_bounds_of_isDigit h
  have hzero : '0'.toNat = 48 := rfl
  have hlt : c.toNat - '0'.toNat < 10 := by omega
  refine ⟨hlt, Char.toNat_inj.1 ?_⟩
  rw [Nat.toNat_digitChar_of_lt_ten hlt]
  omega

/-- The value of a row that starts with another digit than zero is positive. -/
theorem ofDigitChars_pos {d : Char} {ds : List Char} (hd : d.isDigit = true) (h0 : d ≠ '0') :
    0 < Nat.ofDigitChars 10 (d :: ds) 0 := by
  obtain ⟨-, hchar⟩ := digitChar_toNat_sub hd
  have hpos : 0 < d.toNat - '0'.toNat := by
    rcases Nat.eq_zero_or_pos (d.toNat - '0'.toNat) with h | h
    · rw [h] at hchar
      exact absurd hchar.symm h0
    · exact h
  rw [Nat.ofDigitChars_cons, Nat.ofDigitChars_eq_ofDigitChars_zero]
  have := Nat.mul_pos (Nat.pow_pos (n := ds.length) (by decide : 0 < 10)) hpos
  simp only [Nat.mul_zero, Nat.zero_add]
  omega

/-- **A row of digits without a zero in front** is the row that its value is written with. -/
theorem toDigits_ofDigitChars {ds : List Char} (hds : ds ≠ []) (h : ds.all Char.isDigit = true)
    (h0 : ds.head? ≠ some '0' ∨ ds.length = 1) :
    Nat.toDigits 10 (Nat.ofDigitChars 10 ds 0) = ds := by
  -- the last digit is what a division by ten leaves, so the induction is on the row from its end
  induction ds using List.reverseRecOn with
  | nil => exact absurd rfl hds
  | append_singleton es c ih =>
    simp only [List.all_append, List.all_cons, List.all_nil, Bool.and_true, Bool.and_eq_true] at h
    obtain ⟨hlt, hchar⟩ := digitChar_toNat_sub h.2
    rw [Nat.ofDigitChars_append, Nat.ofDigitChars_cons, Nat.ofDigitChars_nil]
    cases es with
    | nil =>
      rw [Nat.ofDigitChars_nil, Nat.mul_zero, Nat.zero_add, Nat.toDigits_of_lt_base hlt, hchar]
      rfl
    | cons d es =>
      have hd : d ≠ '0' := by simpa using h0
      have hhead : d.isDigit = true := by
        have := h.1
        simp only [List.all_cons, Bool.and_eq_true] at this
        exact this.1
      rw [← Nat.toDigits_append_toDigits (by decide) (ofDigitChars_pos hhead hd) hlt,
        ih (List.cons_ne_nil d es) h.1 (.inl (by simpa using hd)), Nat.toDigits_of_lt_base hlt,
        hchar]

/-- A positive number is written without a zero in front. -/
theorem head?_toDigits {n : Nat} (h : 0 < n) : (Nat.toDigits 10 n).head? ≠ some '0' := by
  induction n using Nat.strongRecOn with
  | ind n ih =>
    rw [Nat.toDigits_eq_if (by decide)]
    split
    · next hlt =>
      intro h0
      have : n.digitChar = '0' := by simpa using h0
      rw [Nat.digitChar_eq_zero] at this
      omega
    · next hge =>
      rw [List.head?_append_of_ne_nil _ Nat.toDigits_ne_nil]
      exact ih (n / 10) (by omega) (by omega)

/-! ## Reading -/

theorem readBlock?_eq {block : List Char} (hne : block ≠ []) (hlen : block.length ≤ blockSize)
    (h : block.all Char.isDigit = true) :
    readBlock? block = some (Nat.ofDigitChars 10 block 0) := by
  rw [readBlock?, if_pos ⟨hne, hlen, h⟩]

/-- One block after the other, from any value on. -/
theorem foldlM_blocks (ds : List Char) (h : ds.all Char.isDigit = true) (high : Nat) :
    (blocks ds).foldlM
        (fun high block => (readBlock? block).map (high * Nat.pow 10 block.length + ·)) high =
      some (Nat.ofDigitChars 10 ds high) := by
  induction hn : ds.length using Nat.strongRecOn generalizing ds high with
  | ind n ih =>
    cases ds with
    | nil => rw [blocks]; rfl
    | cons d ds =>
      have hsize := blockSize_pos
      rw [blocks]
      generalize hrow : d :: ds = row at *
      have hsplit : (row.take blockSize ++ row.drop blockSize).all Char.isDigit = true := by
        rw [List.take_append_drop]; exact h
      rw [List.all_append, Bool.and_eq_true] at hsplit
      have hne : row.take blockSize ≠ [] := by
        rw [← hrow]
        intro hnil
        have := congrArg List.length hnil
        rw [List.length_take, List.length_cons, List.length_nil] at this
        omega
      have hlen : (row.take blockSize).length ≤ blockSize := List.length_take_le ..
      have hpos : 0 < row.length := by rw [← hrow]; exact Nat.succ_pos _
      have hrest : (row.drop blockSize).length < n := by rw [List.length_drop]; omega
      rw [List.foldlM_cons, readBlock?_eq hne hlen hsplit.1]
      simp only [Option.map_some, bind, Option.bind]
      rw [ih _ hrest _ hsplit.2 _ rfl]
      have hvalue : high * Nat.pow 10 (row.take blockSize).length +
          Nat.ofDigitChars 10 (row.take blockSize) 0 =
            Nat.ofDigitChars 10 (row.take blockSize) high := by
        have h := @Nat.ofDigitChars_eq_ofDigitChars_zero (row.take blockSize) high
        rw [h, Nat.mul_comm]
        rfl
      rw [hvalue, ← Nat.ofDigitChars_append, List.take_append_drop]

/-- **A row of digits has its positional value**, however many blocks it takes. -/
theorem value?_eq {ds : List Char} (h : ds.all Char.isDigit = true) :
    value? ds = some (Nat.ofDigitChars 10 ds 0) :=
  foldlM_blocks ds h 0

/-! ## Writing -/

theorem length_fullBlock {n : Nat} (h : n < blockLimit) : (fullBlock n).length = blockSize := by
  have hlen : (Nat.toDigits 10 n).length ≤ blockSize :=
    (Nat.length_toDigits_le_iff (by decide) blockSize_pos).2 h
  rw [fullBlock, List.length_append, List.length_replicate]
  omega

theorem ofDigitChars_fullBlock (n high : Nat) (h : n < blockLimit) :
    Nat.ofDigitChars 10 (fullBlock n) high = blockLimit * high + n := by
  have hzero : Nat.ofDigitChars 10 (fullBlock n) 0 = n := by
    rw [fullBlock, Nat.ofDigitChars_append, Nat.ofDigitChars_replicate_zero, Nat.mul_zero,
      Nat.ofDigitChars_ten_toDigits]
  rw [Nat.ofDigitChars_eq_ofDigitChars_zero, length_fullBlock h, hzero]
  rfl

/-- The digits of a number of more than one block. -/
theorem toDigits_append_fullBlock {n : Nat} (h : blockLimit ≤ n) :
    Nat.toDigits 10 (n / blockLimit) ++ fullBlock (n % blockLimit) = Nat.toDigits 10 n := by
  have hlimit := one_lt_blockLimit
  have hmod : n % blockLimit < blockLimit := Nat.mod_lt n (by omega)
  have hdiv : 0 < n / blockLimit := Nat.div_pos h (by omega)
  have hvalue : Nat.ofDigitChars 10
      (Nat.toDigits 10 (n / blockLimit) ++ fullBlock (n % blockLimit)) 0 = n := by
    rw [Nat.ofDigitChars_append, Nat.ofDigitChars_ten_toDigits, ofDigitChars_fullBlock _ _ hmod,
      Nat.div_add_mod]
  have hdigits : (Nat.toDigits 10 (n / blockLimit) ++ fullBlock (n % blockLimit)).all Char.isDigit =
      true := by
    rw [fullBlock, List.all_append, List.all_append, all_isDigit_toDigits, all_isDigit_toDigits,
      all_isDigit_replicate]
    rfl
  have hne : Nat.toDigits 10 (n / blockLimit) ++ fullBlock (n % blockLimit) ≠ [] :=
    List.append_ne_nil_of_left_ne_nil Nat.toDigits_ne_nil _
  have hhead : (Nat.toDigits 10 (n / blockLimit) ++ fullBlock (n % blockLimit)).head? ≠
      some '0' := by
    rw [List.head?_append_of_ne_nil _ Nat.toDigits_ne_nil]
    exact head?_toDigits hdiv
  rw [← toDigits_ofDigitChars hne hdigits (.inl hhead), hvalue]

theorem digitsOnto_eq (n : Nat) (behind : List Char) :
    digitsOnto n behind = Nat.toDigits 10 n ++ behind := by
  induction n, behind using digitsOnto.induct with
  | case1 n behind h => rw [digitsOnto, if_pos h]
  | case2 n behind h ih =>
    rw [digitsOnto, if_neg h, ih, ← List.append_assoc,
      toDigits_append_fullBlock (Nat.le_of_not_lt h)]

/-- **A number is written with its decimal digits**, however many blocks they take. -/
theorem digits_eq_toDigits (n : Nat) : digits n = Nat.toDigits 10 n := by
  rw [digits, digitsOnto_eq, List.append_nil]

end Numeral

end Sexpr
