import Sexpr.Proofs.Lexeme.Extent

/-!
# Counting parentheses

Which parentheses of a text belong together can be told by counting them, without a stack and
without the lists around them. `Parens` are the offsets of the parentheses of a text outside of
strings and comments.

* `Parens.height` is how many more are opened than closed in front of an offset.
* `Parens.stray?` is the first one that closes more than was opened, and `Parens.unclosed` are those
  behind which the height does not fall back.
* `Parens.Leaves` says that some lists are open at an offset, in terms of the heights. One
  parenthesis keeps to it (`Parens.Leaves.stay`, `Parens.Leaves.opening`, `Parens.Leaves.closing`),
  and so the open lists behind a row of lexemes are those that counting has (`leaves_passed`).
-/

namespace Sexpr

/-- The offsets of opening and of closing parentheses. -/
structure Parens where
  opens : List Nat
  closes : List Nat

namespace Parens

/-- The parentheses of two texts in a row. -/
instance : Append Parens := ⟨fun p q => ⟨p.opens ++ q.opens, p.closes ++ q.closes⟩⟩

variable (p q : Parens)

@[simp] theorem opens_append : (p ++ q).opens = p.opens ++ q.opens := rfl

@[simp] theorem closes_append : (p ++ q).closes = p.closes ++ q.closes := rfl

theorem append_none : p ++ ⟨[], []⟩ = p := by
  show Parens.mk (p.opens ++ []) (p.closes ++ []) = p
  rw [List.append_nil, List.append_nil]

/-- How many more parentheses are opened than closed in front of an offset. -/
def height (k : Nat) : Int := (p.opens.countP (· < k) : Int) - p.closes.countP (· < k)

/-- The first closing parenthesis up to which more are closed than opened. -/
def stray? : Option Nat := p.closes.find? fun k => p.height (k + 1) < 0

/-- The opening parentheses that none closes: behind each later closing one there is still more open
than in front of them. -/
def unclosed : List Nat :=
  p.opens.filter fun o => ∀ k ∈ p.closes, o < k → p.height o < p.height (k + 1)

/-! ## Heights -/

@[simp] theorem height_append (k : Nat) : (p ++ q).height k = p.height k + q.height k := by
  simp only [height, opens_append, closes_append, List.countP_append]
  omega

/-- One parenthesis that opens. -/
def opening (offset : Nat) : Parens := ⟨[offset], []⟩

/-- One parenthesis that closes. -/
def closing (offset : Nat) : Parens := ⟨[], [offset]⟩

@[simp] theorem opens_opening (offset : Nat) : (opening offset).opens = [offset] := rfl

@[simp] theorem closes_opening (offset : Nat) : (opening offset).closes = [] := rfl

@[simp] theorem opens_closing (offset : Nat) : (closing offset).opens = [] := rfl

@[simp] theorem closes_closing (offset : Nat) : (closing offset).closes = [offset] := rfl

@[simp] theorem height_opening (offset : Nat) : (opening offset).height (offset + 1) = 1 := by
  simp [height]

@[simp] theorem height_closing (offset : Nat) : (closing offset).height (offset + 1) = -1 := by
  simp [height]

/-- All parentheses stand in front of an offset. -/
structure Before (e : Nat) : Prop where
  opens : ∀ o ∈ p.opens, o < e
  closes : ∀ k ∈ p.closes, k < e

/-- All parentheses stand at an offset or behind it. -/
structure From (e : Nat) : Prop where
  opens : ∀ o ∈ p.opens, e ≤ o
  closes : ∀ k ∈ p.closes, e ≤ k

theorem countP_lt_of_lt {offsets : List Nat} {e : Nat} (h : ∀ o ∈ offsets, o < e) {k : Nat}
    (hk : e ≤ k) : offsets.countP (· < k) = offsets.countP (· < e) := by
  apply List.countP_congr
  intro o ho
  have := h o ho
  simp only [decide_eq_true_eq]
  omega

theorem countP_lt_of_le {offsets : List Nat} {e : Nat} (h : ∀ o ∈ offsets, e ≤ o) {k : Nat}
    (hk : k ≤ e) : offsets.countP (· < k) = 0 := by
  rw [List.countP_eq_zero]
  intro o ho
  have := h o ho
  simp only [decide_eq_true_eq]
  omega

variable {p q} {e : Nat}

/-- Behind all parentheses the height stays. -/
theorem Before.height_eq (h : p.Before e) {k : Nat} (hk : e ≤ k) : p.height k = p.height e := by
  rw [height, height, countP_lt_of_lt h.opens hk, countP_lt_of_lt h.closes hk]

/-- In front of all parentheses it is zero. -/
theorem From.height_eq (h : p.From e) {k : Nat} (hk : k ≤ e) : p.height k = 0 := by
  rw [height, countP_lt_of_le h.opens hk, countP_lt_of_le h.closes hk]
  rfl

theorem Before.mono (h : p.Before e) : p.Before (e + 1) where
  opens o ho := Nat.lt_succ_of_lt (h.opens o ho)
  closes k hk := Nat.lt_succ_of_lt (h.closes k hk)

theorem from_opening : (opening e).From e := ⟨by simp, by simp⟩

theorem from_closing : (closing e).From e := ⟨by simp, by simp⟩

/-- Later parentheses do not change the heights in front of them. -/
theorem height_append_of_le (hq : q.From e) {k : Nat} (hk : k ≤ e) :
    (p ++ q).height k = p.height k := by
  rw [height_append, hq.height_eq hk, Int.add_zero]

/-- Earlier parentheses raise all heights behind them alike. -/
theorem height_append_of_ge (hp : p.Before e) {k : Nat} (hk : e ≤ k) :
    (p ++ q).height k = p.height e + q.height k := by
  rw [height_append, hp.height_eq hk]

/-- **Later parentheses** can close those that earlier ones leave open, and leave some of their own
open. -/
theorem unclosed_append (hp : p.Before e) (hq : q.From e) :
    (p ++ q).unclosed =
      (p.unclosed.filter fun o => ∀ k ∈ q.closes, p.height o < p.height e + q.height (k + 1)) ++
        q.unclosed := by
  rw [unclosed, opens_append, List.filter_append, unclosed, List.filter_filter]
  -- a parenthesis of `p` has closing ones of both behind it, one of `q` only those of `q`
  congr 1
  · apply List.filter_congr
    intro o ho
    have hoe := hp.opens o ho
    have hearlier : (∀ k ∈ p.closes, o < k → (p ++ q).height o < (p ++ q).height (k + 1)) ↔
        ∀ k ∈ p.closes, o < k → p.height o < p.height (k + 1) := by
      refine forall₂_congr fun k hk => ?_
      rw [height_append_of_le hq (Nat.le_of_lt hoe), height_append_of_le hq (hp.closes k hk)]
    have hlater : (∀ k ∈ q.closes, o < k → (p ++ q).height o < (p ++ q).height (k + 1)) ↔
        ∀ k ∈ q.closes, p.height o < p.height e + q.height (k + 1) := by
      refine forall₂_congr fun k hk => ?_
      have hek := hq.closes k hk
      rw [height_append_of_le hq (Nat.le_of_lt hoe), height_append_of_ge hp (Nat.le_succ_of_le hek)]
      exact imp_iff_right (Nat.lt_of_lt_of_le hoe hek)
    simp only [closes_append, List.forall_mem_append, hearlier, hlater, Bool.decide_and,
      Bool.and_comm]
  · apply List.filter_congr
    intro o ho
    have hoe := hq.opens o ho
    have hearlier : ∀ k ∈ p.closes, o < k → (p ++ q).height o < (p ++ q).height (k + 1) := by
      intro k hk hok
      have := hp.closes k hk
      omega
    have hlater : (∀ k ∈ q.closes, o < k → (p ++ q).height o < (p ++ q).height (k + 1)) ↔
        ∀ k ∈ q.closes, o < k → q.height o < q.height (k + 1) := by
      refine forall₂_congr fun k hk => ?_
      rw [height_append_of_ge hp hoe, height_append_of_ge hp (Nat.le_succ_of_le (hq.closes k hk)),
        Int.add_lt_add_iff_left]
    rw [decide_eq_decide, closes_append, List.forall_mem_append, hlater]
    exact and_iff_right hearlier

/-! ## The lists that are open -/

variable (p e)

/-- The lists that are open in front of an offset, given by the offsets of their parentheses,
innermost first, and no parenthesis has closed more than was opened. Each of them begins as high as
there are lists around it. -/
structure Leaves (left : List Nat) : Prop where
  before : p.Before e
  height : p.height e = left.length
  stands : ∀ o around, o :: around <:+ left → p.height o = around.length
  nonneg : ∀ k ∈ p.closes, 0 ≤ p.height (k + 1)
  unclosed : p.unclosed = left.reverse

variable {p e} {left : List Nat}

theorem Leaves.stray?_eq_none (h : p.Leaves e left) : p.stray? = none := by
  rw [stray?, List.find?_eq_none]
  intro k hk
  simpa using h.nonneg k hk

/-- An open list begins with an opening parenthesis. -/
theorem Leaves.lt (h : p.Leaves e left) {o : Nat} (ho : o ∈ left) : o < e := by
  rw [← List.mem_reverse, ← h.unclosed, Parens.unclosed, List.mem_filter] at ho
  exact h.before.opens o ho.1

theorem leaves_nil : (⟨[], []⟩ : Parens).Leaves e [] where
  before := ⟨by simp, by simp⟩
  height := by simp [Parens.height]
  stands o around h := absurd (List.eq_nil_of_suffix_nil h) (List.cons_ne_nil o around)
  nonneg := by simp
  unclosed := rfl

/-- A character that is no parenthesis leaves all open lists open. -/
theorem Leaves.stay (h : p.Leaves e left) : p.Leaves (e + 1) left where
  before := h.before.mono
  height := (h.before.height_eq (Nat.le_succ e)).trans h.height
  stands := h.stands
  nonneg := h.nonneg
  unclosed := h.unclosed

/-- An opening parenthesis is one more open list. -/
theorem Leaves.opening (h : p.Leaves e left) : (p ++ opening e).Leaves (e + 1) (e :: left) where
  before := by
    refine ⟨?_, by simpa using h.before.mono.closes⟩
    rw [opens_append, List.forall_mem_append]
    exact ⟨h.before.mono.opens, by simp⟩
  height := by
    rw [height_append_of_ge h.before (Nat.le_succ e), h.height, height_opening, List.length_cons]
    omega
  stands := by
    intro o around hsuffix
    rcases List.suffix_cons_iff.1 hsuffix with heq | hsuffix
    · obtain ⟨rfl, rfl⟩ := List.cons.inj heq
      rw [height_append_of_le from_opening (Nat.le_refl o), h.height]
    · have ho := h.lt (hsuffix.subset List.mem_cons_self)
      rw [height_append_of_le from_opening (Nat.le_of_lt ho), h.stands o around hsuffix]
  nonneg := by
    intro k hk
    have hk : k ∈ p.closes := by simpa using hk
    rw [height_append_of_le from_opening (h.before.closes k hk)]
    exact h.nonneg k hk
  unclosed := by
    rw [unclosed_append h.before from_opening, h.unclosed, List.reverse_cons]
    simp [Parens.unclosed]

/-- A closing parenthesis closes the innermost open list: it brings the height down to where that
list begins, and all lists around it begin lower. -/
theorem Leaves.closing {o : Nat} (h : p.Leaves e (o :: left)) :
    (p ++ closing e).Leaves (e + 1) left where
  before := by
    refine ⟨by simpa using h.before.mono.opens, ?_⟩
    rw [closes_append, List.forall_mem_append]
    exact ⟨h.before.mono.closes, by simp⟩
  height := by
    rw [height_append_of_ge h.before (Nat.le_succ e), h.height, height_closing, List.length_cons]
    omega
  stands := by
    intro o' around hsuffix
    have hsuffix := hsuffix.trans (List.suffix_cons o left)
    have ho := h.lt (hsuffix.subset List.mem_cons_self)
    rw [height_append_of_le from_closing (Nat.le_of_lt ho), h.stands o' around hsuffix]
  nonneg := by
    rw [closes_append, closes_closing, List.forall_mem_append, List.forall_mem_singleton]
    refine ⟨fun k hk => ?_, ?_⟩
    · rw [height_append_of_le from_closing (h.before.closes k hk)]
      exact h.nonneg k hk
    · rw [height_append_of_ge h.before (Nat.le_succ e), h.height, height_closing,
        List.length_cons]
      omega
  unclosed := by
    -- the height falls to where the innermost list begins; those around it begin lower
    have hlast : p.height o = left.length := h.stands o left (List.suffix_refl _)
    have houtside : ∀ o' ∈ left, p.height o' < left.length := by
      intro o' ho'
      obtain ⟨inside, around, rfl⟩ := List.append_of_mem ho'
      have hheight := h.stands o' around ⟨o :: inside, by simp⟩
      simp only [hheight, List.length_append, List.length_cons]
      omega
    have hfall : p.height e + (Parens.closing e).height (e + 1) = left.length := by
      rw [h.height, height_closing, List.length_cons]
      omega
    rw [unclosed_append h.before from_closing, h.unclosed, List.reverse_cons, List.filter_append]
    simp only [closes_closing, List.forall_mem_singleton, hfall]
    have hkept : left.reverse.filter (fun o' => p.height o' < left.length) = left.reverse :=
      List.filter_eq_self.2 fun o' ho' => by simpa using houtside o' (by simpa using ho')
    rw [hkept, List.filter_cons_of_neg (by simp [hlast])]
    simp [Parens.unclosed]

/-- **The first closing parenthesis that is one too many**: all lists are closed in front of it, and
nothing behind it counts. -/
theorem Leaves.stray?_eq_some (h : p.Leaves e []) (hq : q.From (e + 1)) :
    (p ++ Parens.closing e ++ q).stray? = some e := by
  have hearlier : p.closes.find? (fun k => (p ++ Parens.closing e ++ q).height (k + 1) < 0) =
      none := by
    rw [List.find?_eq_none]
    intro k hk
    have hke := h.before.closes k hk
    rw [height_append_of_le hq (Nat.succ_le_succ (Nat.le_of_lt hke)),
      height_append_of_le from_closing hke]
    simpa using h.nonneg k hk
  have hfall : (p ++ Parens.closing e ++ q).height (e + 1) < 0 := by
    rw [height_append_of_le hq (Nat.le_refl _), height_append_of_ge h.before (Nat.le_succ e),
      h.height, height_closing]
    decide
  rw [stray?, closes_append, closes_append, closes_closing, List.append_assoc, List.find?_append,
    hearlier, List.singleton_append, List.find?_cons_of_pos (by simpa using hfall)]
  rfl

end Parens

namespace Lexeme

/-! ## Parentheses of a text -/

/-- Outside of strings and comments. -/
def State.isPlain : State → Bool
  | .plain _ _ => true
  | _ => false

/-- The offsets of the characters that a condition on the state in front of them picks. -/
def spots (picks : State → Char → Bool) (state : State) (offset : Nat) : List Char → List Nat
  | [] => []
  | c :: cs =>
    (if picks state c then [offset] else []) ++
      spots picks (advance state c offset).2 (offset + 1) cs

/-- The parentheses of a text outside of strings and comments. -/
def parens (state : State) (offset : Nat) (cs : List Char) : Parens where
  opens := spots (fun state c => state.isPlain && c = '(') state offset cs
  closes := spots (fun state c => state.isPlain && c = ')') state offset cs

section Spots

variable (picks : State → Char → Bool) (state : State) (offset : Nat)

theorem spots_append (cs rest : List Char) :
    spots picks state offset (cs ++ rest) = spots picks state offset cs ++
      spots picks (passed state offset cs).2 (offset + cs.length) rest := by
  induction cs generalizing state offset with
  | nil => rfl
  | cons c cs ih =>
    have hlength : offset + (c :: cs).length = offset + 1 + cs.length := by
      rw [List.length_cons]; omega
    rw [List.cons_append, spots, ih, spots, List.append_assoc, hlength]
    rfl

theorem mem_spots {cs : List Char} {k : Nat} (h : k ∈ spots picks state offset cs) :
    offset ≤ k ∧ k < offset + cs.length := by
  induction cs generalizing state offset with
  | nil => exact absurd h List.not_mem_nil
  | cons c cs ih =>
    rw [spots, List.mem_append] at h
    rw [List.length_cons]
    rcases h with h | h
    · split at h
      · obtain rfl := List.mem_singleton.1 h
        omega
      · exact absurd h List.not_mem_nil
    · have := ih _ _ h
      omega

/-- The offsets increase. -/
theorem pairwise_spots (cs : List Char) : (spots picks state offset cs).Pairwise (· < ·) := by
  induction cs generalizing state offset with
  | nil => exact .nil
  | cons c cs ih =>
    rw [spots, List.pairwise_append]
    refine ⟨?_, ih _ _, ?_⟩
    · split
      · exact List.pairwise_singleton _ _
      · exact .nil
    · intro k hk k' hk'
      have hlater := (mem_spots picks _ _ hk').1
      split at hk
      · obtain rfl := List.mem_singleton.1 hk
        exact hlater
      · exact absurd hk List.not_mem_nil

end Spots

variable (state : State) (offset : Nat)

theorem parens_append (cs rest : List Char) :
    parens state offset (cs ++ rest) = parens state offset cs ++
      parens (passed state offset cs).2 (offset + cs.length) rest := by
  rw [parens, spots_append, spots_append]
  rfl

theorem from_parens (cs : List Char) : (parens state offset cs).From offset where
  opens _ ho := (mem_spots _ _ _ ho).1
  closes _ hk := (mem_spots _ _ _ hk).1

/-- A character that ends no list and begins none. -/
theorem parens_of_ne {c : Char} (h : state.isPlain = true → c ≠ '(' ∧ c ≠ ')') :
    parens state offset [c] = ⟨[], []⟩ := by
  cases hplain : state.isPlain with
  | false => simp [parens, spots, hplain]
  | true => simp [parens, spots, h hplain]

/-- What one character does: outside of strings and comments a parenthesis begins a list, ends the
innermost one or ends the row, and everything else leaves the open lists as they are. -/
inductive Turns (offset : Nat) : List Nat → Parens → Option (List Nat) → Prop
  | opening (opened : List Nat) : Turns offset opened (.opening offset) (some (offset :: opened))
  | closing (o : Nat) (around : List Nat) :
    Turns offset (o :: around) (.closing offset) (some around)
  | stray : Turns offset [] (.closing offset) none
  | stay (opened : List Nat) : Turns offset opened ⟨[], []⟩ (some opened)

theorem turns_advance (opened : List Nat) (c : Char) :
    Turns offset opened (parens state offset [c])
      (openBehind opened (advance state c offset).1) := by
  cases state with
  | comment =>
    rw [parens_of_ne _ _ (by simp [State.isPlain])]
    exact .stay opened
  | string latest escaped start =>
    rw [parens_of_ne _ _ (by simp [State.isPlain])]
    simp only [advance]
    split_ifs <;> exact .stay opened
  | plain latest start =>
    have hended := openBehind_ended opened latest start
    have hnone : ∀ {c}, c ≠ '(' → c ≠ ')' → parens (.plain latest start) offset [c] = ⟨[], []⟩ :=
      fun hopen hclose => parens_of_ne _ _ fun _ => ⟨hopen, hclose⟩
    have hout := advanced_plain latest start c offset
    generalize advance (.plain latest start) c offset = out at hout ⊢
    cases hout with
    | opening hc =>
      subst hc
      rw [openBehind_append, hended]
      exact .opening opened
    | closing hc =>
      subst hc
      rw [openBehind_append, hended]
      cases opened with
      | nil => exact .stray
      | cons o around => exact .closing o around
    | comment hc =>
      subst hc
      rw [hended]
      exact .stay opened
    | space hc =>
      rw [hended, hnone (by rintro rfl; exact absurd hc (by decide))
        (by rintro rfl; exact absurd hc (by decide))]
      exact .stay opened
    | mark hc =>
      subst hc
      exact .stay opened
    | quote hc =>
      subst hc
      exact .stay opened
    | dropped hc =>
      subst hc
      exact .stay opened
    | grown hc =>
      rw [hnone (by rintro rfl; exact absurd hc (by decide))
        (by rintro rfl; exact absurd hc (by decide))]
      exact .stay opened

/-- **The open lists behind a row of lexemes** are those that counting leaves open. -/
theorem leaves_passed {cs : List Char} {left : List Nat}
    (h : openBehind [] (passed state offset cs).1 = some left) :
    (parens state offset cs).Leaves (offset + cs.length) left := by
  induction cs using List.reverseRecOn generalizing left with
  | nil =>
    obtain rfl := Option.some.inj h
    exact Parens.leaves_nil
  | append_singleton cs c ih =>
    rw [passed_append, openBehind_append] at h
    obtain ⟨opened, hfront, hlast⟩ := Option.bind_eq_some_iff.1 h
    have hleaves := ih hfront
    have hturns := turns_advance (passed state offset cs).2 (offset + cs.length) opened c
    rw [passed, passed, List.append_nil] at hlast
    rw [parens_append, List.length_append, List.length_singleton, ← Nat.add_assoc]
    rw [hlast] at hturns
    generalize parens (passed state offset cs).2 (offset + cs.length) [c] = q at hturns ⊢
    cases hturns with
    | opening => exact hleaves.opening
    | closing => exact hleaves.closing
    | stay =>
      rw [Parens.append_none]
      exact hleaves.stay

example : (parens (.plain [] 0) 0 "(a \"(\" (b) (c".toList).unclosed = [0, 11] := by decide

/-- **The parenthesis that ends a row** is the first one that is one too many. -/
theorem stray?_parens {body rest latest : List Char} {start : Nat}
    (h : openBehind [] (passed state offset body).1 = some [])
    (hstate : (passed state offset body).2 = .plain latest start) :
    (parens state offset (body ++ ')' :: rest)).stray? = some (offset + body.length) := by
  have hclosing : parens (.plain latest start) (offset + body.length) [')'] =
      .closing (offset + body.length) := rfl
  have hsplit : body ++ ')' :: rest = body ++ [')'] ++ rest := by simp
  rw [hsplit, parens_append, parens_append, hstate, hclosing]
  refine (leaves_passed state offset h).stray?_eq_some ?_
  rw [List.length_append, List.length_singleton]
  exact from_parens _ _ rest

end Lexeme

end Sexpr
