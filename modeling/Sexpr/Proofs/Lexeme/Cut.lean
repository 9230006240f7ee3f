import Mathlib.Data.List.Basic
import Sexpr.Atom
import Sexpr.Lexeme

/-!
# The cut of a text in parts

The cut goes through a text from the left, so the cut of two texts in a row is the cut of the
first one, without an end, and then the cut of the second one from the state behind it
(`cut_append`). With this the lexemes of a text can be found piece by piece: a word before a
character that ends it, an apostrophe, a string between its double quotes.

`Lexeme.Proper` is what every lexeme of a cut is like (`proper_of_mem_cut`): a token is a quotation
mark or a word, and no backslash is left in a string, whether it ends or not.
-/

namespace Sexpr

namespace Lexeme

/-! ## One text behind the other -/

/-- The lexemes that are complete after some characters, and the state behind them. -/
def passed (state : State) (offset : Nat) : List Char → List Lexeme × State
  | [] => ([], state)
  | c :: cs =>
    let out := advance state c offset
    let behind := passed out.2 (offset + 1) cs
    (out.1 ++ behind.1, behind.2)

theorem cut_append (state : State) (offset : Nat) (cs rest : List Char) :
    cut state offset (cs ++ rest) =
      (passed state offset cs).1 ++ cut (passed state offset cs).2 (offset + cs.length) rest := by
  induction cs generalizing state offset with
  | nil => rfl
  | cons c cs ih =>
    rw [List.cons_append, cut, ih, passed, List.append_assoc, List.length_cons]
    congr 3
    omega

theorem passed_append (state : State) (offset : Nat) (cs rest : List Char) :
    passed state offset (cs ++ rest) =
      ((passed state offset cs).1 ++
          (passed (passed state offset cs).2 (offset + cs.length) rest).1,
        (passed (passed state offset cs).2 (offset + cs.length) rest).2) := by
  induction cs generalizing state offset with
  | nil => rfl
  | cons c cs ih =>
    have hlength : offset + (c :: cs).length = offset + 1 + cs.length := by
      rw [List.length_cons]; omega
    rw [List.cons_append, passed, ih, passed, List.append_assoc, hlength]

theorem cut_eq (state : State) (offset : Nat) (cs : List Char) :
    cut state offset cs = (passed state offset cs).1 ++ atEnd (passed state offset cs).2 := by
  simpa [cut] using cut_append state offset cs []

/-! ## Between two tokens -/

/-- The lexemes of a text whose first character stands at an offset, between two tokens. -/
def ofText (offset : Nat) (cs : List Char) : List Lexeme := cut (.plain [] offset) offset cs

/-- An empty token has no offset. -/
theorem cut_plain_nil (start offset : Nat) (cs : List Char) :
    cut (.plain [] start) offset cs = ofText offset cs := by
  cases cs with
  | nil => rfl
  | cons c cs =>
    have hout : advance (.plain [] start) c offset = advance (.plain [] offset) c offset := by
      simp only [advance, ended, grown, ↓reduceIte]
    rw [ofText, cut, cut, hout]

variable (offset : Nat) (rest : List Char)

theorem ofText_opening :
    ofText offset ('(' :: rest) = .opening offset :: ofText (offset + 1) rest := by
  rw [← cut_plain_nil offset (offset + 1)]
  rfl

theorem ofText_closing :
    ofText offset (')' :: rest) = .closing offset :: ofText (offset + 1) rest := by
  rw [← cut_plain_nil offset (offset + 1)]
  rfl

theorem ofText_space {c : Char} (h : Token.isSpace c = true) :
    ofText offset (c :: rest) = ofText (offset + 1) rest := by
  rw [← cut_plain_nil offset (offset + 1)]
  simp only [Token.isSpace, Bool.or_eq_true, decide_eq_true_eq] at h
  rcases h with ((rfl | rfl) | rfl) | rfl <;> rfl

theorem ofText_apostrophe : ofText offset (Text.apostrophe :: rest) =
    .token [Text.apostrophe] offset :: ofText (offset + 1) rest := by
  rw [← cut_plain_nil offset (offset + 1)]
  rfl

/-! ## Words -/

/-- A character that ends a token. -/
def delimits (c : Char) : Bool := c = '(' || c = ')' || c = ';' || Token.isSpace c

/-- A character that a token goes on with. -/
def continues (c : Char) : Bool := !delimits c && c ≠ '"'

/-- Characters that make up one token, which is no quotation mark. -/
structure IsWord (w : List Char) : Prop where
  head : w.head? ≠ some Text.apostrophe
  ne_nil : w ≠ []
  all : w.all continues = true

theorem IsWord.notMem {w : List Char} (h : IsWord w) {c : Char} (hc : continues c = false) :
    c ∉ w := by
  intro hmem
  exact Bool.false_ne_true (hc.symm.trans (List.all_eq_true.1 h.all c hmem))

/-- Nothing, or a character that ends a token. -/
def Bounded (rest : List Char) : Prop := ∀ c, rest.head? = some c → delimits c = true

theorem bounded_nil : Bounded [] := fun _ h => absurd h (by simp)

theorem bounded_cons {c : Char} (h : delimits c = true) (rest : List Char) : Bounded (c :: rest) :=
  fun _ h' => Option.some.inj h' ▸ h

/-- What a character outside of strings and comments can do. -/
inductive Advanced (latest : List Char) (start : Nat) (c : Char) (offset : Nat) :
    List Lexeme × State → Prop
  | opening : c = '(' →
    Advanced latest start c offset (ended latest start ++ [.opening offset], .plain [] offset)
  | closing : c = ')' →
    Advanced latest start c offset (ended latest start ++ [.closing offset], .plain [] offset)
  | comment : c = ';' → Advanced latest start c offset (ended latest start, .comment)
  | space : Token.isSpace c = true →
    Advanced latest start c offset (ended latest start, .plain [] offset)
  | mark : c = Text.apostrophe → latest = [] →
    Advanced latest start c offset ([.token [c] offset], .plain [] offset)
  | quote : c = '"' → latest = [] →
    Advanced latest start c offset ([], .string ['"'] false offset)
  | dropped : c = '"' → latest ≠ [] →
    Advanced latest start c offset ([.droppedQuote latest.reverse offset], .plain latest start)
  | grown : continues c = true → latest ≠ [] ∨ c ≠ Text.apostrophe →
    Advanced latest start c offset ([], grown latest start c offset)

theorem advanced_plain (latest : List Char) (start : Nat) (c : Char) (offset : Nat) :
    Advanced latest start c offset (advance (.plain latest start) c offset) := by
  simp only [advance]
  by_cases hopen : c = '('
  · rw [if_pos hopen]
    exact .opening hopen
  by_cases hclose : c = ')'
  · rw [if_neg hopen, if_pos hclose]
    exact .closing hclose
  by_cases hcomment : c = ';'
  · rw [if_neg hopen, if_neg hclose, if_pos hcomment]
    exact .comment hcomment
  rw [if_neg hopen, if_neg hclose, if_neg hcomment]
  by_cases hmark : c = Text.apostrophe ∧ latest = []
  · rw [if_pos hmark]
    exact .mark hmark.1 hmark.2
  rw [if_neg hmark]
  by_cases hspace : Token.isSpace c = true
  · rw [if_pos hspace]
    exact .space hspace
  rw [if_neg hspace]
  by_cases hquote : c = '"'
  · subst hquote
    rw [if_pos rfl]
    split
    · next hnil => exact .quote rfl hnil
    · next hne => exact .dropped rfl hne
  · rw [if_neg hquote]
    refine .grown ?_ (by tauto)
    simp [continues, delimits, hopen, hclose, hcomment, hspace, hquote]

/-- A character that continues a token is added to it, unless it is the apostrophe that makes a
token of its own. -/
theorem advance_continues {c : Char} (h : continues c = true) {latest : List Char}
    (hc : latest ≠ [] ∨ c ≠ Text.apostrophe) (start offset : Nat) :
    advance (.plain latest start) c offset = ([], grown latest start c offset) := by
  simp only [continues, delimits, Bool.and_eq_true, Bool.not_eq_true', Bool.or_eq_false_iff,
    decide_eq_false_iff_not, decide_eq_true_eq] at h
  obtain ⟨⟨⟨⟨hopen, hclose⟩, hcomment⟩, hspace⟩, hquote⟩ := h
  have hmark : ¬(c = Text.apostrophe ∧ latest = []) := by
    rintro ⟨hmark, hfirst⟩
    exact hc.elim (· hfirst) (· hmark)
  simp only [advance, hopen, hclose, hcomment, hquote, hspace, hmark, Bool.false_eq_true,
    ↓reduceIte]

theorem passed_continues {latest w : List Char} (hne : latest ≠ [])
    (h : w.all continues = true) (start : Nat) :
    passed (.plain latest start) offset w = ([], .plain (w.reverse ++ latest) start) := by
  induction w generalizing latest offset with
  | nil => rfl
  | cons c w ih =>
    rw [List.all_cons, Bool.and_eq_true] at h
    rw [passed, advance_continues h.1 (.inl hne), grown, if_neg hne,
      ih _ (List.cons_ne_nil c latest) h.2, List.reverse_cons, List.append_assoc]
    rfl

theorem passed_word {w : List Char} (h : IsWord w) (start : Nat) :
    passed (.plain [] start) offset w = ([], .plain w.reverse offset) := by
  obtain ⟨hhead, hne, hall⟩ := h
  cases w with
  | nil => exact absurd rfl hne
  | cons c w =>
    rw [List.all_cons, Bool.and_eq_true] at hall
    have hc : c ≠ Text.apostrophe := fun h => hhead (congrArg some h)
    rw [passed, advance_continues hall.1 (.inr hc), grown, if_pos rfl,
      passed_continues _ (List.cons_ne_nil c []) hall.2, List.reverse_cons]
    rfl

theorem advance_delimits {c : Char} (h : delimits c = true) (latest : List Char) (start : Nat) :
    advance (.plain latest start) c offset =
      (ended latest start ++ (advance (.plain [] offset) c offset).1,
        (advance (.plain [] offset) c offset).2) := by
  have hmark : c ≠ Text.apostrophe := by
    rintro rfl
    exact absurd h (by decide)
  simp only [delimits, Bool.or_eq_true, decide_eq_true_eq] at h
  rcases h with ((rfl | rfl) | rfl) | h
  · rfl
  · rfl
  · exact congrArg (·, State.comment) (List.append_nil _).symm
  · have hne : ∀ d, Token.isSpace d = false → c ≠ d := by
      rintro d hd rfl
      exact absurd (h.symm.trans hd) (by decide)
    have hopen := hne '(' rfl
    have hclose := hne ')' rfl
    have hcomment := hne ';' rfl
    simp only [advance, hopen, hclose, hcomment, hmark, h, false_and, ↓reduceIte]
    exact congrArg (·, State.plain [] offset) (List.append_nil _).symm

/-- A token ends before a character that ends it. -/
theorem cut_bounded {rest : List Char} (h : Bounded rest) (latest : List Char) (start : Nat) :
    cut (.plain latest start) offset rest = ended latest start ++ ofText offset rest := by
  cases rest with
  | nil => exact (List.append_nil _).symm
  | cons c rest => rw [ofText, cut, cut, advance_delimits offset (h c rfl), List.append_assoc]

/-- **A word before a character that ends it** is one lexeme. -/
theorem ofText_word {w rest : List Char} (hw : IsWord w) (h : Bounded rest) :
    ofText offset (w ++ rest) = .token w offset :: ofText (offset + w.length) rest := by
  have hne : w.reverse ≠ [] := by
    rw [Ne, List.reverse_eq_nil_iff]
    exact hw.ne_nil
  rw [ofText, cut_append, passed_word _ hw, List.nil_append, cut_bounded _ h, ended, if_neg hne,
    List.reverse_reverse]
  rfl

/-! ## Strings -/

/-- The characters of a string between its double quotes, as they are written: each double quote
has a backslash in front. -/
def escaped (body : List Char) : List Char :=
  body.flatMap fun c => if c = '"' then ['\\', '"'] else [c]

theorem toList_quoted (s : String) :
    (Atom.quoted s).toList = '"' :: (escaped s.toList ++ ['"']) := by
  simp [Atom.quoted, escaped]

/-- A character of a string, as it is written, is read as that character. -/
theorem passed_escaped_one {c : Char} (h : c ≠ '\\') (latest : List Char) (start : Nat) :
    passed (.string latest false start) offset (if c = '"' then ['\\', '"'] else [c]) =
      ([], .string (c :: latest) false start) := by
  by_cases hquote : c = '"'
  · subst hquote
    rfl
  · simp only [passed, advance, h, hquote, false_and, ↓reduceIte]
    rfl

theorem passed_escaped {body : List Char} (h : '\\' ∉ body) (latest : List Char) (start : Nat) :
    passed (.string latest false start) offset (escaped body) =
      ([], .string (body.reverse ++ latest) false start) := by
  induction body generalizing latest offset with
  | nil => rfl
  | cons c body ih =>
    rw [List.mem_cons, not_or] at h
    rw [escaped, List.flatMap_cons, ← escaped, passed_append,
      passed_escaped_one offset (Ne.symm h.1), ih _ h.2, List.reverse_cons, List.append_assoc]
    rfl

/-- **A string between its double quotes** is one lexeme. -/
theorem ofText_quoted {s : String} (h : '\\' ∉ s.toList) :
    ofText offset ((Atom.quoted s).toList ++ rest) =
      .string ('"' :: (s.toList ++ ['"'])) offset ::
        ofText (offset + (Atom.quoted s).length) rest := by
  have hlength : offset + (Atom.quoted s).length = offset + 1 + (escaped s.toList).length + 1 := by
    rw [← String.length_toList, toList_quoted, List.length_cons, List.length_append,
      List.length_singleton]
    omega
  have hopen : advance (.plain [] offset) '"' offset = ([], .string ['"'] false offset) := rfl
  have hclose : ∀ latest offset', advance (.string latest false offset) '"' offset' =
      ([.string ('"' :: latest).reverse offset], .plain [] offset') := fun _ _ => rfl
  rw [hlength, toList_quoted, List.cons_append, ofText, cut, hopen, List.nil_append,
    List.append_assoc, cut_append, passed_escaped _ h, List.nil_append, List.singleton_append, cut,
    hclose, cut_plain_nil]
  simp

/-! ## What lexemes are like -/

/-- The lexemes that a cut can give. -/
def Proper : Lexeme → Prop
  | .token cs _ => cs = [Text.apostrophe] ∨ IsWord cs
  | .string cs _ => ∃ body, '\\' ∉ body ∧ cs = '"' :: (body ++ ['"'])
  | .openString cs _ => ∃ body, '\\' ∉ body ∧ cs = '"' :: body
  | _ => True

/-- The states that a cut can be in. -/
def State.Proper : State → Prop
  | .plain latest _ => latest = [] ∨ IsWord latest.reverse
  | .string latest _ _ => ∃ body, '\\' ∉ body ∧ latest.reverse = '"' :: body
  | .comment => True

theorem proper_ended {latest : List Char} {start : Nat}
    (h : State.Proper (.plain latest start)) : ∀ x ∈ ended latest start, x.Proper := by
  intro x hx
  unfold ended at hx
  split at hx
  · exact absurd hx (by simp)
  · next hne =>
    rw [List.mem_singleton] at hx
    subst hx
    exact .inr (h.resolve_left hne)

theorem proper_grown {latest : List Char} {start : Nat} (h : State.Proper (.plain latest start))
    {c : Char} (hc : continues c = true) (hmark : latest ≠ [] ∨ c ≠ Text.apostrophe)
    (offset : Nat) : (grown latest start c offset).Proper := by
  unfold grown
  split
  · next hnil =>
    have hne : c ≠ Text.apostrophe := hmark.resolve_left (· hnil)
    exact .inr ⟨by simpa using hne, by simp, by simp [hc]⟩
  · next hne =>
    obtain ⟨hhead, hnil, hall⟩ := h.resolve_left hne
    refine .inr ⟨?_, by simp, by simp [hc, hall]⟩
    rw [List.reverse_cons, List.head?_append_of_ne_nil _ hnil]
    exact hhead

theorem proper_advance_plain {latest : List Char} {start : Nat}
    (h : State.Proper (.plain latest start)) (c : Char) (offset : Nat) :
    (∀ x ∈ (advance (.plain latest start) c offset).1, x.Proper) ∧
      (advance (.plain latest start) c offset).2.Proper := by
  have hended := proper_ended h
  have hout := advanced_plain latest start c offset
  generalize advance (.plain latest start) c offset = out at hout ⊢
  cases hout with
  | opening => exact ⟨by simpa [or_imp, forall_and] using ⟨hended, trivial⟩, .inl rfl⟩
  | closing => exact ⟨by simpa [or_imp, forall_and] using ⟨hended, trivial⟩, .inl rfl⟩
  | comment => exact ⟨hended, trivial⟩
  | space => exact ⟨hended, .inl rfl⟩
  | mark hc => exact ⟨by simp [Proper, hc], .inl rfl⟩
  | quote => exact ⟨by simp, [], by simp, rfl⟩
  | dropped => exact ⟨by simp [Proper], h⟩
  | grown hc hmark => exact ⟨by simp, proper_grown h hc hmark offset⟩

/-- One character keeps to what lexemes and states are like. -/
theorem proper_advance {state : State} (h : state.Proper) (c : Char) (offset : Nat) :
    (∀ x ∈ (advance state c offset).1, x.Proper) ∧ (advance state c offset).2.Proper := by
  cases state with
  | plain latest start => exact proper_advance_plain h c offset
  | comment =>
    simp only [advance]
    split
    · exact ⟨by simp, .inl rfl⟩
    · exact ⟨by simp, trivial⟩
  | string latest escaped start =>
    obtain ⟨body, hbody, hlatest⟩ := h
    simp only [advance]
    split
    · exact ⟨by simp, body, hbody, hlatest⟩
    · next hslash =>
      split
      · next hquote =>
        refine ⟨?_, .inl rfl⟩
        intro x hx
        rw [List.mem_singleton] at hx
        subst hx
        exact ⟨body, hbody, by rw [List.reverse_cons, hlatest, hquote.1, List.cons_append]⟩
      · refine ⟨by simp, body ++ [c], ?_, by rw [List.reverse_cons, hlatest, List.cons_append]⟩
        simp [hbody, Ne.symm hslash]

/-- **Every lexeme of a cut** is a quotation mark or a word if it is a token, and without
backslashes if it is a string. -/
theorem proper_of_mem_cut {state : State} (h : state.Proper) (offset : Nat) (cs : List Char) :
    ∀ x ∈ cut state offset cs, x.Proper := by
  induction cs generalizing state offset with
  | nil =>
    cases state with
    | plain latest start => exact proper_ended h
    | string latest escaped start =>
      intro x hx
      obtain rfl := List.mem_singleton.1 hx
      exact h
    | comment => simp [cut, atEnd]
  | cons c cs ih =>
    obtain ⟨hout, hbehind⟩ := proper_advance h c offset
    intro x hx
    rw [cut, List.mem_append] at hx
    rcases hx with hx | hx
    · exact hout x hx
    · exact ih hbehind _ x hx

/-- The state behind some characters is what states are like. -/
theorem proper_passed {state : State} (h : state.Proper) (offset : Nat) (cs : List Char) :
    (passed state offset cs).2.Proper := by
  induction cs generalizing state offset with
  | nil => exact h
  | cons c cs ih => exact ih (proper_advance h c offset).2 (offset + 1)

/-- Only the end of the text leaves a string open. -/
theorem openString_notMem_ended (latest : List Char) (start : Nat) (cs : List Char)
    (offset : Nat) : .openString cs offset ∉ ended latest start := by
  unfold ended
  split <;> simp

theorem openString_notMem_advance (state : State) (c : Char) (offset : Nat) (body : List Char)
    (start : Nat) : .openString body start ∉ (advance state c offset).1 := by
  cases state with
  | comment => exact List.not_mem_nil
  | string latest escaped start' =>
    simp only [advance]
    split
    · exact List.not_mem_nil
    · split <;> simp
  | plain latest start' =>
    have hended := openString_notMem_ended latest start' body start
    have hout := advanced_plain latest start' c offset
    generalize advance (.plain latest start') c offset = out at hout ⊢
    cases hout with
    | opening => simp [hended]
    | closing => simp [hended]
    | comment => exact hended
    | space => exact hended
    | mark => simp
    | quote => simp
    | dropped => simp
    | grown => simp

theorem openString_notMem_passed (state : State) (offset : Nat) (cs body : List Char)
    (start : Nat) : .openString body start ∉ (passed state offset cs).1 := by
  induction cs generalizing state offset with
  | nil => exact List.not_mem_nil
  | cons c cs ih =>
    rw [passed, List.mem_append]
    exact not_or.2 ⟨openString_notMem_advance state c offset body start, ih _ _⟩

end Lexeme

end Sexpr
