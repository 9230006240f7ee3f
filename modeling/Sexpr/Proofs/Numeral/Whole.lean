import Sexpr.Proofs.Token.Spelling

/-!
# Integers in one piece, written and read

The numeral of an integer is read as a setting exactly if the integer is short enough to be written
in one piece, and otherwise the refusal has its number of digits (`Numeral.readInteger_intText`).
The digits are counted first: too many of them are refused as such, whatever stands behind them
(`Numeral.readInteger_signed`).
-/

namespace Sexpr

open FloatParts

namespace Numeral

/-- A text that no row of digits goes on with. -/
def EndsDigits (rest : List Char) : Prop :=
  ∀ c ∈ rest.head?, Unicode.digitValue? c = none ∧ c ≠ '_'

theorem endsDigits_nil : EndsDigits [] := nofun

theorem digitValue?_of_isDigit {c : Char} (h : c.isDigit = true) :
    Unicode.digitValue? c = some (c.toNat - '0'.toNat) := by
  have hbounds : 48 ≤ c.toNat ∧ c.toNat < 48 + 10 := by
    have := toNat_bounds_of_isDigit h
    omega
  rw [Unicode.digitValue?, Unicode.zeros, List.find?_cons_of_pos (by simpa using hbounds)]
  rfl

/-- The digits lie between two runs of blank characters. -/
theorem blankRuns_apart : ∀ run ∈ Unicode.blankRuns, run.2 < 48 ∨ 57 < run.1 := by decide

theorem isBlank_of_isDigit {c : Char} (h : c.isDigit = true) : Unicode.isBlank c = false := by
  obtain ⟨hlow, hhigh⟩ := toNat_bounds_of_isDigit h
  rw [Unicode.isBlank, List.any_eq_false]
  intro run hmem
  rw [Bool.and_eq_true, decide_eq_true_eq, decide_eq_true_eq]
  rcases blankRuns_apart run hmem with hbelow | habove
  · omega
  · omega

/-- **A row of digits** is gone along to its end. -/
theorem scan?_append {ds rest : List Char} (hds : ds.all Char.isDigit = true)
    (hrest : EndsDigits rest) (value count : Nat) :
    scan? false value count (ds ++ rest) =
      some ⟨Nat.ofDigitChars 10 ds value, count + ds.length, rest⟩ := by
  induction ds generalizing value count with
  | nil =>
    cases rest with
    | nil => rfl
    | cons c rest =>
      obtain ⟨hdigit, hne⟩ := hrest c rfl
      rw [List.nil_append, scan?, hdigit]
      simp [hne]
  | cons d ds ih =>
    rw [List.all_cons, Bool.and_eq_true] at hds
    rw [List.cons_append, scan?, digitValue?_of_isDigit hds.1]
    simp only [ih hds.2, Nat.ofDigitChars_cons, List.length_cons, Nat.add_assoc, Nat.add_comm 1]

theorem scan?_digits {ds rest : List Char} (hds : IsDigits ds) (hrest : EndsDigits rest) :
    scan? true 0 0 (ds ++ rest) = some ⟨Nat.ofDigitChars 10 ds 0, ds.length, rest⟩ := by
  obtain ⟨hne, hall⟩ := hds
  cases ds with
  | nil => exact absurd rfl hne
  | cons d ds =>
    have hd := digitValue?_of_isDigit (Bool.and_eq_true_iff.1 hall).1
    have hrow := scan?_append hall hrest 0 0
    rw [List.cons_append, scan?, hd] at hrow ⊢
    rw [hrow, Nat.zero_add]

/-- No blanks stand in front of a sign and a row of digits. -/
theorem dropWhile_isBlank {ds : List Char} (h : IsDigits ds) (negative : Bool) (rest : List Char) :
    (signText negative ++ (ds ++ rest)).dropWhile Unicode.isBlank =
      signText negative ++ (ds ++ rest) := by
  obtain ⟨c, hhead, hc⟩ := h.exists_head negative rest
  have hblank : Unicode.isBlank c = false := by
    rw [Bool.or_eq_true, decide_eq_true_eq] at hc
    rcases hc with hdigit | rfl
    · exact isBlank_of_isDigit hdigit
    · decide
  obtain ⟨cs, hcs⟩ := List.head?_eq_some_iff.1 hhead
  rw [hcs, List.dropWhile_cons_of_neg (by rw [hblank]; decide)]

/-- **A sign and a row of digits** are an integer if there are not too many digits, and only blanks
stand behind them. -/
theorem readInteger_signed {ds rest : List Char} (hds : IsDigits ds) (hrest : EndsDigits rest)
    (negative : Bool) :
    readInteger (signText negative ++ (ds ++ rest)) =
      if maxDigits < ds.length then .error (.tooLong ds.length)
      else if rest.all Unicode.isBlank then
        .ok (if negative then -(Nat.ofDigitChars 10 ds 0 : Int) else Nat.ofDigitChars 10 ds 0)
      else .error .notInteger := by
  rw [readInteger, dropWhile_isBlank hds, Token.splitSign_digits hds]
  simp only [scan?_digits hds hrest]

theorem intText_ne_empty (n : Int) : intText n ≠ "" := by
  intro hempty
  have hlist := toList_intText n
  rw [hempty] at hlist
  exact (isDigits_toDigits n.natAbs).1 (List.append_eq_nil_iff.1 hlist.symm).2

theorem length_toDigits_le_maxDigits (n : Int) :
    (Nat.toDigits 10 n.natAbs).length ≤ maxDigits ↔ isShort n = true := by
  have hpos : 0 < maxDigits := by rw [maxDigits_eq]; decide
  rw [Nat.length_toDigits_le_iff (by decide) hpos, isShort, decide_eq_true_eq]
  rfl

/-- **The numeral of an integer** is read as that integer if it can be written in one piece, and
otherwise it is refused with the number of its digits. -/
theorem readInteger_intText (n : Int) :
    readInteger (intText n).toList =
      if isShort n then .ok n else .error (.tooLong (Nat.toDigits 10 n.natAbs).length) := by
  have hsigned := readInteger_signed (isDigits_toDigits n.natAbs) endsDigits_nil (decide (n < 0))
  rw [List.append_nil, ← toList_intText, Nat.ofDigitChars_ten_toDigits, sign_natAbs,
    List.all_nil, if_pos rfl] at hsigned
  rw [hsigned]
  by_cases hshort : isShort n = true
  · rw [if_pos hshort, if_neg (Nat.not_lt.2 ((length_toDigits_le_maxDigits n).2 hshort))]
  · rw [if_neg hshort, if_pos]
    exact Nat.not_le.1 fun hle => hshort ((length_toDigits_le_maxDigits n).1 hle)

theorem readInteger_intText_eq_ok {n m : Int} :
    readInteger (intText n).toList = .ok m ↔ isShort n = true ∧ n = m := by
  rw [readInteger_intText]
  cases isShort n <;> simp

end Numeral

end Sexpr
