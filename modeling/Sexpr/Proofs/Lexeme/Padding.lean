import Sexpr.Proofs.Lexeme.Offsets

/-!
# Padding in a text

Blanks and whole comments leave no lexeme, and they end a token that stands in front of them. So
they can be put into a text without a change to its lexemes, offsets apart
(`ofText_insert_padding`). Two things are in the way of this: a string or a comment that the place
lies in, and a token that would go on behind it.

* `Padding` says which characters make up blanks and whole comments.
* `makeRoom` is what becomes of offsets when characters are put into a text.
-/

namespace Sexpr

namespace Lexeme

/-! ## Blanks and comments -/

/-- Blanks and comments, each comment with the line break that ends it. -/
inductive Padding : List Char → Prop
  | nil : Padding []
  | blank {c : Char} {w : List Char} : Token.isSpace c = true → Padding w → Padding (c :: w)
  | comment {body w : List Char} : '\n' ∉ body → Padding w → Padding (';' :: (body ++ '\n' :: w))

/-- A comment goes on to the end of its line. -/
theorem passed_comment {body : List Char} (h : '\n' ∉ body) (offset : Nat) :
    passed .comment offset body = ([], .comment) := by
  induction body generalizing offset with
  | nil => rfl
  | cons c body ih =>
    rw [List.mem_cons, not_or] at h
    have hout : advance .comment c offset = ([], .comment) :=
      congrArg (Prod.mk []) (if_neg (Ne.symm h.1))
    rw [passed, hout, ih h.2]
    rfl

theorem ofText_comment {body : List Char} (h : '\n' ∉ body) (offset : Nat) (rest : List Char) :
    ofText offset (';' :: (body ++ '\n' :: rest)) = ofText (offset + (body.length + 2)) rest := by
  have hopen : ofText offset (';' :: (body ++ '\n' :: rest)) =
      cut .comment (offset + 1) (body ++ '\n' :: rest) := rfl
  have hend : offset + 1 + body.length + 1 = offset + (body.length + 2) := by omega
  rw [hopen, cut_append, passed_comment h, List.nil_append, ← hend]
  exact cut_plain_nil _ _ rest

/-- **Padding leaves no lexeme.** -/
theorem ofText_padding {w : List Char} (h : Padding w) (offset : Nat) (rest : List Char) :
    ofText offset (w ++ rest) = ofText (offset + w.length) rest := by
  induction h generalizing offset with
  | nil => rfl
  | @blank c w hc _ ih =>
    rw [List.cons_append, ofText_space _ _ hc, ih, List.length_cons, Nat.add_right_comm,
      Nat.add_assoc]
  | @comment body w hbody _ ih =>
    have hlength : (';' :: (body ++ '\n' :: w)).length = body.length + 2 + w.length := by
      simp only [List.length_cons, List.length_append]
      omega
    rw [List.cons_append, List.append_assoc, List.cons_append, ofText_comment hbody, ih, hlength,
      Nat.add_assoc]

/-- Padding in front of what ends a token ends it as well. -/
theorem Padding.bounded {w rest : List Char} (h : Padding w) (hrest : Bounded rest) :
    Bounded (w ++ rest) := by
  cases h with
  | nil => exact hrest
  | blank hc => exact bounded_cons (by simp [delimits, hc]) _
  | comment => exact bounded_cons rfl _

/-- Padding behind a token that ends there anyway. -/
theorem cut_padding {w rest latest : List Char} (h : Padding w) (hend : latest = [] ∨ Bounded rest)
    (start offset : Nat) :
    cut (.plain latest start) offset (w ++ rest) =
      ended latest start ++ ofText (offset + w.length) rest := by
  rw [← ofText_padding h]
  rcases hend with rfl | hrest
  · exact cut_plain_nil start offset (w ++ rest)
  · exact cut_bounded offset (h.bounded hrest) latest start

/-! ## In the middle of a text -/

/-- The offset of a character after `n` others have been put in front of the one at `p`. -/
def makeRoom (p n offset : Nat) : Nat := if offset < p then offset else offset + n

theorem makeRoom_lt {p offset : Nat} (h : offset < p) (n : Nat) : makeRoom p n offset = offset :=
  if_pos h

theorem makeRoom_add (p n i : Nat) : makeRoom p n (p + i) = p + n + i := by
  have hle : ¬p + i < p := by omega
  rw [makeRoom, if_neg hle, Nat.add_right_comm]

/-- **Padding in a text** changes nothing but the offsets behind it, if it stands outside of strings
and comments and parts no token. -/
theorem ofText_insert_padding {u w v latest : List Char} {start : Nat} (hpadding : Padding w)
    (hstate : (passed (.plain [] 0) 0 u).2 = .plain latest start)
    (hend : latest = [] ∨ Bounded v) :
    ofText 0 (u ++ w ++ v) = (ofText 0 (u ++ v)).map (move (makeRoom u.length w.length)) := by
  let φ := makeRoom u.length w.length
  have hfront : passed (.plain [] (φ 0)) 0 u =
      ((passed (.plain [] 0) 0 u).1.map (move φ), .plain latest (φ start)) := by
    have hmove : ∀ i < u.length, φ (0 + i) = 0 + i := by
      intro i hi
      rw [Nat.zero_add]
      exact makeRoom_lt hi w.length
    have hpassed := passed_move hmove (.plain [] 0)
    rwa [hstate] at hpassed
  have hbehind : ofText (u.length + w.length) v = (ofText u.length v).map (move φ) :=
    ofText_move fun i _ => makeRoom_add u.length w.length i
  have hjoined : ofText 0 (u ++ v) =
      (passed (.plain [] 0) 0 u).1 ++ (ended latest start ++ ofText u.length v) := by
    have hcut := cut_padding .nil hend start u.length
    rw [List.nil_append, List.length_nil, Nat.add_zero] at hcut
    rw [← hcut, ofText, cut_append, hstate, Nat.zero_add]
  calc ofText 0 (u ++ w ++ v)
      = cut (.plain [] (φ 0)) 0 (u ++ (w ++ v)) := by rw [cut_plain_nil, List.append_assoc]
    _ = (passed (.plain [] 0) 0 u).1.map (move φ) ++
          (ended latest (φ start) ++ ofText (u.length + w.length) v) := by
        rw [cut_append, hfront, cut_padding hpadding hend, Nat.zero_add]
    _ = (ofText 0 (u ++ v)).map (move φ) := by
        rw [hjoined, ended_move, hbehind, List.map_append, List.map_append]

end Lexeme

end Sexpr
