import Sexpr.Lexeme.Reading
import Sexpr.Proofs.Token.Fixed

/-!
# Atoms that read back

`Atom.Legible` holds of the atoms that the reader can make of a string or a token, unless the token
is no literal (`legible_of_string`, `legible_or_unreadable`).

`Atom.Readable` says in which styles such an atom is written as one lexeme, and `Atom.reread` is
what that lexeme is read as (`read_text`): the same atom, except that a float comes from its six
decimal places in any style but that of the source. An error is not read back: its first word is
read as a symbol (`read_error`).
-/

namespace Sexpr

namespace Atom

/-- The atoms that can be written so that they are read back. -/
inductive Legible : Atom → Prop
  | int (n : Int) : Legible (.int n)
  | float {x : Binary64} : x.isNaN = false → Legible (.float x)
  /-- The reader drops every backslash. -/
  | string {s : String} : '\\' ∉ s.toList → Legible (.string s)
  /-- A symbol is a word that is no other literal. -/
  | symbol {s : String} : Lexeme.IsWord s.toList → ofToken s.toList = .symbol s →
    Legible (.symbol s)
  | quote : Legible .quote

theorem Legible.ne_nil {a : Atom} (h : a.Legible) : a ≠ .nil := by
  cases h <;> exact Atom.noConfusion

theorem Legible.ne_branch {a : Atom} (h : a.Legible) : a ≠ .branch := by
  cases h <;> exact Atom.noConfusion

theorem Legible.kind_ne_error {a : Atom} (h : a.Legible) : a.kind ≠ .error := by
  cases h <;> exact Kind.noConfusion

/-- A legible atom is the same as itself, for it is no NaN. -/
theorem Legible.same_self {a : Atom} (h : a.Legible) : a.same a = true := by
  cases h with
  | float hx => simp [same, Binary64.same, hx]
  | int n => simp [same]
  | string hs => simp [same]
  | symbol hs ht => simp [same]
  | quote => rfl

/-! ## What is read of an atom -/

/-- An atom that a style writes as one lexeme: the marks of the debug view are in the way, and a
string without its quotes is one only by chance. -/
structure Readable (style : Style) (a : Atom) : Prop where
  legible : a.Legible
  unmarked : style ≠ .unicode
  quoted : style = .plain → a.kind ≠ .string

/-- In the source style all legible atoms are. -/
theorem Legible.readable {a : Atom} (h : a.Legible) : a.Readable .source :=
  ⟨h, by decide, fun hplain => absurd hplain (by decide)⟩

/-- What the lexeme of an atom is read as. A float comes from its six decimal places, unless it is
written so that it can be read back. -/
def reread (style : Style) : Atom → Atom
  | float x => if style = .source then .float x else ofToken x.fixed.toList
  | a => a

theorem reread_source : reread .source = id := by
  funext a
  cases a <;> rfl

/-! ## The atoms of tokens -/

/-- A token is a form of its own: neither the end of a chain nor a list. -/
theorem ofToken_form (cs : List Char) : ofToken cs ≠ .nil ∧ ofToken cs ≠ .branch := by
  unfold ofToken ofToken?
  split_ifs
  · cases Token.intValue? cs <;> exact ⟨Atom.noConfusion, Atom.noConfusion⟩
  · cases Token.floatValue? cs <;> exact ⟨Atom.noConfusion, Atom.noConfusion⟩
  all_goals exact ⟨Atom.noConfusion, Atom.noConfusion⟩

/-- What is read of an atom that is a form of its own is one, too. -/
theorem reread_form (style : Style) (a : Atom) (hnil : a ≠ .nil) (hbranch : a ≠ .branch) :
    a.reread style ≠ .nil ∧ a.reread style ≠ .branch := by
  cases a with
  | float x =>
    rw [reread]
    split
    · exact ⟨Atom.noConfusion, Atom.noConfusion⟩
    · exact ofToken_form _
  | _ => exact ⟨hnil, hbranch⟩

/-- Characters between double quotes are a string. -/
theorem ofToken_quoted (body : List Char) :
    ofToken ('"' :: (body ++ ['"'])) = .string (String.ofList body) := by
  have hint : Token.isInt ('"' :: (body ++ ['"'])) = false :=
    Token.not_isInt_of_mem (c := '"') (by decide) (by decide) List.mem_cons_self
  have hfloat : Token.isFloat ('"' :: (body ++ ['"'])) = false := by
    have hwhole : ∀ whole, Token.isInt ('"' :: whole) = false := by
      intro whole
      exact Token.not_isInt_of_mem (c := '"') (by decide) (by decide) List.mem_cons_self
    rw [Token.isFloat, Token.splitFirst?, if_neg (by decide)]
    cases Token.splitFirst? '.' (body ++ ['"']) with
    | none => rfl
    | some parts => simp [hwhole]
  have hstring : Token.isString ('"' :: (body ++ ['"'])) = true := by
    have hlast : ('"' :: (body ++ ['"'])).getLast? = some '"' := by
      rw [← List.cons_append, List.getLast?_concat]
    simp [Token.isString, hlast]
  rw [ofToken, ofToken?, if_neg (by simp [hint]), if_neg (by simp [hfloat]), if_pos hstring]
  simp

/-- No double quote is in a word, so none is a string. -/
theorem not_isString_of_isWord {w : List Char} (h : Lexeme.IsWord w) :
    ¬Token.isString w = true := by
  intro hs
  simp only [Token.isString, Bool.and_eq_true, decide_eq_true_eq] at hs
  exact h.notMem (by decide) (List.mem_of_head? hs.1.2)

theorem kind_ofToken_ne_string {w : List Char} (h : Lexeme.IsWord w) :
    (ofToken w).kind ≠ .string := by
  rw [ofToken, ofToken?, if_neg (not_isString_of_isWord h)]
  split_ifs
  · cases Token.intValue? w <;> exact Kind.noConfusion
  · cases Token.floatValue? w <;> exact Kind.noConfusion
  all_goals exact Kind.noConfusion

/-- A word is legible as an atom, or no literal. -/
theorem legible_or_unreadable {w : List Char} (h : Lexeme.IsWord w) :
    (ofToken w).Legible ∨ ofToken w = unreadable w := by
  have hstring := not_isString_of_isWord h
  have hquote : ¬Token.isQuote w = true := by
    intro hq
    rw [Token.isQuote, decide_eq_true_eq] at hq
    exact h.head (by rw [hq]; rfl)
  by_cases hint : Token.isInt w = true
  · rw [ofToken, ofToken?, if_pos hint]
    cases Token.intValue? w with
    | none => exact .inr rfl
    | some n => exact .inl (.int n)
  by_cases hfloat : Token.isFloat w = true
  · rw [ofToken, ofToken?, if_neg hint, if_pos hfloat, Token.floatValue?]
    split
    · cases Decimal.read? w with
      | none => exact .inr rfl
      | some d => exact .inl (.float (Binary64.isNaN_ofDecimal d))
    · exact .inl (.float (by simp [Binary64.isNaN, Binary64.zero, Binary64.infinityCode,
        Binary64.binade]))
  by_cases hsymbol : Token.isSymbol w = true
  · have hw : ofToken w = .symbol (String.ofList w) := by
      rw [ofToken, ofToken?, if_neg hint, if_neg hfloat, if_neg hstring, if_pos hsymbol]
      rfl
    rw [hw]
    refine .inl (.symbol ?_ ?_)
    · rwa [String.toList_ofList]
    · rw [String.toList_ofList, hw]
  · rw [ofToken, ofToken?, if_neg hint, if_neg hfloat, if_neg hstring, if_neg hsymbol,
      if_neg hquote]
    exact .inr rfl

/-- **The atom of a string** of a cut is legible. -/
theorem legible_of_string {cs : List Char} {offset : Nat} (h : Lexeme.Proper (.string cs offset)) :
    (ofToken cs).Legible := by
  obtain ⟨body, hbody, rfl⟩ := h
  rw [ofToken_quoted]
  exact .string (by rwa [String.toList_ofList])

end Atom

namespace Lexeme

open Atom

variable (config : ReaderConfig) (last : Nat) (opened : List Nat) (offset : Nat)

/-! ## Reading what was written -/

/-- A word is read as its atom. -/
theorem read_word {w rest : List Char} (hw : IsWord w) (h : Bounded rest) :
    read config last opened (ofText offset (w ++ rest)) =
      (read config last opened (ofText (offset + w.length) rest)).mapHere
        (Stretch.precede ⟨ofToken w, .absent⟩) := by
  rw [ofText_word offset hw h, read]

/-- **A readable atom is read** from its text: a mark of quotation in front of anything, every other
atom in front of a character that ends a token. -/
theorem read_text {style : Style} {a : Atom} (ha : a.Readable style) {rest : List Char}
    (h : a = .quote ∨ Bounded rest) :
    read config last opened (ofText offset ((a.text style).toList ++ rest)) =
      (read config last opened (ofText (offset + (a.text style).length) rest)).mapHere
        (Stretch.precede ⟨a.reread style, .absent⟩) := by
  obtain ⟨hlegible, hunmarked, hquoted⟩ := ha
  cases hlegible with
  | quote =>
    have htext : Atom.quote.text style = "'" := rfl
    rw [htext]
    exact congrArg (read config last opened) (ofText_apostrophe offset rest)
  | int n =>
    have hw := isWord_intText n
    have hread := read_word config last opened offset hw (h.resolve_left Atom.noConfusion)
    rwa [ofToken_intText] at hread
  | @float x hx =>
    have hbounded := h.resolve_left Atom.noConfusion
    by_cases hsource : style = .source
    · subst hsource
      have hread := read_word config last opened offset (Binary64.isWord_spell hx) hbounded
      rwa [Binary64.ofToken_spell hx] at hread
    · have htext : (Atom.float x).text style = x.fixed := if_neg hsource
      rw [htext, reread, if_neg hsource]
      exact read_word config last opened offset x.isWord_fixed hbounded
  | @symbol s hs ht =>
    have htext : (Atom.symbol s).text style = s := if_neg hunmarked
    have hread := read_word config last opened offset hs (h.resolve_left Atom.noConfusion)
    rw [ht] at hread
    rwa [htext]
  | @string s hs =>
    have hatom : ofToken ('"' :: (s.toList ++ ['"'])) = .string s := by
      rw [ofToken_quoted, String.ofList_toList]
    have htext : (Atom.string s).text style = quoted s := if_neg fun hplain => hquoted hplain rfl
    rw [htext, ofText_quoted offset rest hs, read, hatom]
    rfl

/-- An error is read as a symbol, whatever its message is and whatever comes behind it. -/
theorem read_error (style : Style) (message : String) (rest : List Char) :
    ∃ reading : Reading,
      read config last opened
          (ofText offset ((Atom.text style (.error message)).toList ++ rest)) =
        reading.mapHere (Stretch.precede ⟨.symbol "<Error:", .absent⟩) := by
  have hw : IsWord "<Error:".toList := ⟨by decide, by decide, by decide⟩
  have htext : (Atom.text style (.error message)).toList ++ rest =
      "<Error:".toList ++ ' ' :: (message.toList ++ '>' :: rest) := by
    simp [Atom.text]
  have hatom : ofToken "<Error:".toList = .symbol "<Error:" := by decide
  have hread := read_word config last opened offset hw
    (bounded_cons (c := ' ') (by decide) (message.toList ++ '>' :: rest))
  rw [hatom, ← htext] at hread
  exact ⟨_, hread⟩

end Lexeme

end Sexpr
