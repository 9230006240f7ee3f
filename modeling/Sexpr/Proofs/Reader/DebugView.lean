import Sexpr.Proofs.Reader.Trees
import Sexpr.Proofs.Token.Fixed
import Sexpr.Proofs.Tree.Layout

/-!
# The debug view

In the style that marks every node two trees of the reader have the same text exactly if they look
alike: the same shape, and at each place the same atom, floats by their six decimal places
(`Reader.render_unicode_eq_iff`). This holds as long as the end of a text leaves no error in the
tree.

* `Atom.looksLike` is the comparison of two atoms.
* `Atom.mark` is the character that an atom starts with. It tells sentinels, lists and all kinds of
  atoms apart, except that a number has none of its own.
* `Atom.Closed` holds of the atoms whose text tells where it ends. No such text goes on to be
  another one (`Atom.Closed.unique`), so a row of them can be told apart from the left.
-/

namespace Sexpr

namespace Atom

/-- Equal kinds and equal values; two floats count as equal if their texts with six decimal places
are. -/
def looksLike : Atom → Atom → Bool
  | float x, float y => x.fixed = y.fixed
  | a, b => a = b

/-- Atoms that look alike have the same text, and both are marks of quotation or neither is. -/
theorem text_eq_of_looksLike {a b : Atom} (h : a.looksLike b = true) :
    a.text .unicode = b.text .unicode ∧ (a = .quote ↔ b = .quote) := by
  unfold looksLike at h
  split at h
  · next x y => exact ⟨by simpa [text] using h, by simp⟩
  · obtain rfl := of_decide_eq_true h
    exact ⟨rfl, .rfl⟩

/-! ## Marks -/

/-- The character that an atom starts with in the debug view; numbers have no mark. -/
def mark : Atom → Option Char
  | nil => some '⦉'
  | error _ => some '<'
  | int _ => none
  | float _ => none
  | string _ => some '"'
  | symbol _ => some '⧼'
  | quote => some Text.apostrophe
  | branch => some '('

theorem eq_nil_of_mark {a : Atom} (h : a.mark = Atom.nil.mark) : a = .nil := by
  cases a <;> simp_all [mark, Text.apostrophe]

theorem eq_branch_of_mark {a : Atom} (h : a.mark = Atom.branch.mark) : a = .branch := by
  cases a <;> simp_all [mark, Text.apostrophe]

/-- A character that a number starts with: a digit, a minus, or a letter if it is not finite. -/
def startsNumber (c : Char) : Bool := c.isDigit || c = '-' || c = 'n' || c = 'i'

theorem not_startsNumber_mark {a : Atom} {c : Char} (h : a.mark = some c) :
    startsNumber c = false := by
  cases a <;> cases h <;> decide

theorem startsNumber_sign {ds : List Char} (h : FloatParts.IsDigits ds) (negative : Bool)
    (rest : List Char) :
    ∃ c, (FloatParts.signText negative ++ (ds ++ rest)).head? = some c ∧
      startsNumber c = true := by
  obtain ⟨c, hc, hstart⟩ := h.exists_head negative rest
  refine ⟨c, hc, ?_⟩
  rw [startsNumber, hstart]
  rfl

theorem startsNumber_intText (n : Int) :
    ∃ c, (Numeral.intText n).toList.head? = some c ∧ startsNumber c = true := by
  rw [toList_intText, ← List.append_nil (Nat.toDigits 10 n.natAbs)]
  exact startsNumber_sign (isDigits_toDigits _) _ _

theorem startsNumber_fixed (x : Binary64) :
    ∃ c, x.fixed.toList.head? = some c ∧ startsNumber c = true := by
  have h := x.fixed_fixed
  generalize x.fixed.toList = w at h
  cases h with
  | nan => exact ⟨'n', rfl, rfl⟩
  | infinite negative => cases negative <;> exact ⟨_, rfl, rfl⟩
  | finite negative n => exact startsNumber_sign (isDigits_toDigits _) _ _

/-- The text of an atom starts with its mark, or else as a number does. -/
theorem head?_text_unicode (a : Atom) : ∃ c, (a.text .unicode).toList.head? = some c ∧
    (a.mark = some c ∨ a.mark = none ∧ startsNumber c = true) := by
  cases a with
  | int n =>
    obtain ⟨c, hc, hnumber⟩ := startsNumber_intText n
    exact ⟨c, hc, .inr ⟨rfl, hnumber⟩⟩
  | float x =>
    obtain ⟨c, hc, hnumber⟩ := startsNumber_fixed x
    exact ⟨c, hc, .inr ⟨rfl, hnumber⟩⟩
  | nil => exact ⟨'⦉', rfl, .inl rfl⟩
  | quote => exact ⟨Text.apostrophe, rfl, .inl rfl⟩
  | branch => exact ⟨'(', rfl, .inl rfl⟩
  | string s => exact ⟨'"', by simp [text, Lexeme.toList_quoted], .inl rfl⟩
  | symbol s => exact ⟨'⧼', by simp [text], .inl rfl⟩
  | error message => exact ⟨'<', by simp [text], .inl rfl⟩

/-- Where two texts start with the text of an atom and go on in the same way, the marks are the
same. -/
theorem mark_eq {a b : Atom} {cs cs' : List Char}
    (h : (a.text .unicode).toList ++ cs = (b.text .unicode).toList ++ cs') : a.mark = b.mark := by
  obtain ⟨c, hc, ha⟩ := a.head?_text_unicode
  obtain ⟨d, hd, hb⟩ := b.head?_text_unicode
  have hcd : c = d := by
    have hhead := congrArg List.head? h
    rw [List.head?_append, List.head?_append, hc, hd] at hhead
    exact Option.some.inj hhead
  subst hcd
  rcases ha with ha | ⟨ha, hnumber⟩
  · rcases hb with hb | ⟨-, hnumber⟩
    · rw [ha, hb]
    · exact absurd (not_startsNumber_mark ha) (by simp [hnumber])
  · rcases hb with hb | ⟨hb, -⟩
    · exact absurd (not_startsNumber_mark hb) (by simp [hnumber])
    · rw [ha, hb]

/-! ## Atoms from the left -/

/-- What stands before and behind the first double quote that has no backslash in front, without
the backslashes. -/
def splitQuoted? : List Char → Option (List Char × List Char)
  | [] => none
  | '\\' :: c :: cs => (splitQuoted? cs).map fun (body, rest) => (c :: body, rest)
  | c :: cs =>
    if c = '"' then some ([], cs) else (splitQuoted? cs).map fun (body, rest) => (c :: body, rest)

theorem splitQuoted?_escaped {body : List Char} (h : '\\' ∉ body) (rest : List Char) :
    splitQuoted? (Lexeme.escaped body ++ '"' :: rest) = some (body, rest) := by
  induction body with
  | nil => rfl
  | cons c body ih =>
    rw [List.mem_cons, not_or] at h
    rw [Lexeme.escaped, List.flatMap_cons, ← Lexeme.escaped, List.append_assoc]
    by_cases hc : c = '"'
    · rw [if_pos hc, List.cons_append, List.singleton_append, splitQuoted?, ih h.2, hc]
      rfl
    · rw [if_neg hc, List.singleton_append, splitQuoted?, if_neg hc, ih h.2]
      · rfl
      · intro d cs heq
        exact absurd heq (Ne.symm h.1)

/-- A text up to its first space. -/
theorem eq_of_space {w w' rest rest' : List Char} (hw : ' ' ∉ w) (hw' : ' ' ∉ w')
    (h : w ++ ' ' :: rest = w' ++ ' ' :: rest') : w = w' ∧ rest = rest' := by
  have hsplit := congrArg (Token.splitFirst? ' ') h
  rw [Token.splitFirst?_append hw, Token.splitFirst?_append hw'] at hsplit
  exact Prod.mk.inj (Option.some.inj hsplit)

/-- The messages of the errors that a reader gives as long as the end of a text leaves none: there
is no space behind the words that each kind of them starts with. -/
inductive Wording : String → Prop
  | unreadable {w : List Char} : ' ' ∉ w → Wording ("Can't parse: <" ++ String.ofList w ++ ">")
  | tooDeep {limit : String} : ' ' ∉ limit.toList → Wording ("Nesting too deep: " ++ limit)

theorem Wording.unique {m m' : String} {rest rest' : List Char} (h : Wording m) (h' : Wording m')
    (heq : m.toList ++ '>' :: ' ' :: rest = m'.toList ++ '>' :: ' ' :: rest') :
    m = m' ∧ rest = rest' := by
  cases h with
  | @unreadable w hw =>
    cases h' with
    | @unreadable w' hw' =>
      have hwords : (w ++ ['>', '>']) ++ ' ' :: rest = (w' ++ ['>', '>']) ++ ' ' :: rest' := by
        simpa using heq
      obtain ⟨hw, hrest⟩ := eq_of_space (by simp [hw]) (by simp [hw']) hwords
      exact ⟨by rw [List.append_cancel_right hw], hrest⟩
    | tooDeep => exact absurd heq (by simp)
  | @tooDeep limit hlimit =>
    cases h' with
    | @tooDeep limit' hlimit' =>
      have hwords : (limit.toList ++ ['>']) ++ ' ' :: rest =
          (limit'.toList ++ ['>']) ++ ' ' :: rest' := by
        simpa using heq
      obtain ⟨hlimits, hrest⟩ := eq_of_space (by simp [hlimit]) (by simp [hlimit']) hwords
      exact ⟨by rw [String.toList_inj.1 (List.append_cancel_right hlimits)], hrest⟩
    | unreadable => exact absurd heq (by simp)

/-- The atoms whose text tells where it ends. -/
inductive Closed : Atom → Prop
  | quote : Closed .quote
  | string {s : String} : '\\' ∉ s.toList → Closed (.string s)
  | symbol {s : String} : ' ' ∉ s.toList → Closed (.symbol s)
  | error {message : String} : Wording message → Closed (.error message)
  | int (n : Int) : Closed (.int n)
  | float (x : Binary64) : Closed (.float x)

theorem space_notMem_of_isWord {w : List Char} (h : Lexeme.IsWord w) : ' ' ∉ w :=
  h.notMem (by decide)

theorem space_notMem_limit (limit : Limit) : ' ' ∉ limit.text.toList := by
  unfold Limit.text
  cases limit.count with
  | integer n => exact space_notMem_of_isWord (isWord_intText n)
  | truth b => cases b <;> decide

/-- The atoms of the reader are so, as long as the end of a text leaves no error. -/
theorem Given.closed {config : ReaderConfig} (hconfig : config.reportUnterminated = false)
    {a : Atom} (h : a.Given config) : a.Closed := by
  have hlenient : config.reportUnterminated ≠ true := by simp [hconfig]
  cases h with
  | openString _ hstrict => exact absurd hstrict hlenient
  | openList hstrict => exact absurd hstrict hlenient
  | unreadable hw _ => exact .error (.unreadable (space_notMem_of_isWord hw))
  | @tooDeep limit _ => exact .error (.tooDeep (space_notMem_limit limit))
  | legible ha =>
    cases ha with
    | quote => exact .quote
    | int n => exact .int n
    | float => exact .float _
    | string hs => exact .string hs
    | symbol hs _ => exact .symbol (space_notMem_of_isWord hs)

/-- Numbers with the same text look alike. -/
theorem looksLike_of_text {a b : Atom} (ha : a.mark = none) (hb : b.mark = none)
    (h : a.text .unicode = b.text .unicode) : a.looksLike b = true := by
  cases a with
  | int n =>
    cases b with
    | int m =>
      have hn := ofToken_intText n
      have htext : Numeral.intText n = Numeral.intText m := h
      rw [htext, ofToken_intText] at hn
      simp [looksLike, Atom.int.inj hn]
    | float y => exact absurd h.symm (y.fixed_ne_intText n)
    | _ => cases hb
  | float x =>
    cases b with
    | int m => exact absurd h (x.fixed_ne_intText m)
    | float y => simpa [looksLike, text] using h
    | _ => cases hb
  | _ => cases ha

theorem space_notMem_number {a : Atom} (h : a.mark = none) : ' ' ∉ (a.text .unicode).toList := by
  cases a with
  | int n => exact space_notMem_of_isWord (isWord_intText n)
  | float x => exact space_notMem_of_isWord x.isWord_fixed
  | _ => cases h

theorem number_unique {a b : Atom} {rest rest' : List Char} (ha : a.mark = none)
    (hb : b.mark = none)
    (h : (a.text .unicode).toList ++ ' ' :: rest = (b.text .unicode).toList ++ ' ' :: rest') :
    a.looksLike b = true ∧ rest = rest' := by
  obtain ⟨htext, hrest⟩ := eq_of_space (space_notMem_number ha) (space_notMem_number hb) h
  exact ⟨looksLike_of_text ha hb (String.toList_inj.1 htext), hrest⟩

/-- **No text of an atom goes on to be another one**: where two rows of atoms have the same text,
their first atoms look alike, and what is behind these is the same. -/
theorem Closed.unique {a b : Atom} {rest rest' : List Char} (ha : a.Closed) (hb : b.Closed)
    (h : (a.text .unicode).toList ++ ((if a = .quote then [] else [' ']) ++ rest) =
      (b.text .unicode).toList ++ ((if b = .quote then [] else [' ']) ++ rest')) :
    a.looksLike b = true ∧ rest = rest' := by
  -- the marks leave two atoms of one kind, or two numbers
  have hmark := mark_eq h
  cases ha with
  | quote =>
    cases hb with
    | quote => exact ⟨rfl, by simpa [text] using h⟩
    | _ => exact absurd hmark (by simp [mark, Text.apostrophe])
  | @string s hs =>
    cases hb with
    | @string s' hs' =>
      have hbody : Lexeme.escaped s.toList ++ '"' :: ' ' :: rest =
          Lexeme.escaped s'.toList ++ '"' :: ' ' :: rest' := by
        simpa [text, Lexeme.toList_quoted] using h
      have hsplit := congrArg splitQuoted? hbody
      rw [splitQuoted?_escaped hs, splitQuoted?_escaped hs'] at hsplit
      obtain ⟨hs, hrest⟩ := Prod.mk.inj (Option.some.inj hsplit)
      exact ⟨by simp [looksLike, String.toList_inj.1 hs], (List.cons.inj hrest).2⟩
    | _ => exact absurd hmark (by simp [mark, Text.apostrophe])
  | @symbol s hs =>
    cases hb with
    | @symbol s' hs' =>
      obtain ⟨hs, hrest⟩ := eq_of_space hs hs' (by simpa [text] using h)
      exact ⟨by simp [looksLike, String.toList_inj.1 hs], hrest⟩
    | _ => exact absurd hmark (by simp [mark, Text.apostrophe])
  | @error message hm =>
    cases hb with
    | @error message' hm' =>
      obtain ⟨hmessage, hrest⟩ := hm.unique hm' (by simpa [text] using h)
      exact ⟨by simp [looksLike, hmessage], hrest⟩
    | _ => exact absurd hmark (by simp [mark, Text.apostrophe])
  | int n =>
    cases hb with
    | int m => exact number_unique rfl rfl (by simpa using h)
    | float y => exact number_unique rfl rfl (by simpa using h)
    | _ => exact absurd hmark (by simp [mark])
  | float x =>
    cases hb with
    | int m => exact number_unique rfl rfl (by simpa using h)
    | float y => exact number_unique rfl rfl (by simpa using h)
    | _ => exact absurd hmark (by simp [mark])

end Atom

namespace Tree

/-! ## Trees from the left -/

/-- Trees that look alike are written alike. -/
theorem writtenNodes_eq_of_alike {l r : Tree} (h : l.alike Atom.looksLike r = true) :
    l.writtenNodes .unicode = r.writtenNodes .unicode := by
  induction l generalizing r with
  | absent => rw [eq_absent_of_alike h]
  | node a child next ihchild ihnext =>
    obtain ⟨b, child', next', rfl, hatom, hchild, hnext⟩ := exists_of_alike_node h
    obtain ⟨htext, hquote⟩ := Atom.text_eq_of_looksLike hatom
    simp only [writtenNodes_node, ihchild hchild, ihnext hnext, isAbsent_eq_of_alike hchild,
      isAbsent_eq_of_alike hnext, htext, hquote]

/-- Where the texts of two trees go on in the same way, their first nodes have the same mark. -/
theorem mark_eq_of_writtenNodes {a b : Atom} {child next child' next' : Tree}
    {rest rest' : List Char}
    (h : ((node a child next).writtenNodes .unicode).toList ++ rest =
      ((node b child' next').writtenNodes .unicode).toList ++ rest') : a.mark = b.mark := by
  simp only [writtenNodes_node, String.toList_append, List.append_assoc] at h
  exact Atom.mark_eq h

/-- **Trees that are written alike look alike**, whatever comes behind their texts, and what comes
behind them is the same. -/
theorem alike_of_writtenNodes {l r : Tree} (hl : l.MadeOf Atom.Closed) (hr : r.MadeOf Atom.Closed)
    {rest rest' : List Char}
    (h : (l.writtenNodes .unicode).toList ++ rest = (r.writtenNodes .unicode).toList ++ rest') :
    l.alike Atom.looksLike r = true ∧ rest = rest' := by
  induction hl generalizing r rest rest' with
  | sentinel =>
    cases hr with
    | sentinel => exact ⟨rfl, List.append_cancel_left h⟩
    | branch => exact absurd (mark_eq_of_writtenNodes h) (by decide)
    | leaf hnil => exact absurd (Atom.eq_nil_of_mark (mark_eq_of_writtenNodes h).symm) hnil
  | branch hchild hnext ihchild ihnext =>
    cases hr with
    | sentinel => exact absurd (mark_eq_of_writtenNodes h) (by decide)
    | leaf _ hbranch =>
      exact absurd (Atom.eq_branch_of_mark (mark_eq_of_writtenNodes h).symm) hbranch
    | branch hchild' hnext' =>
      rw [toList_writtenNodes_branch _ hchild hnext,
        toList_writtenNodes_branch _ hchild' hnext'] at h
      simp only [List.cons_append, List.append_assoc, List.cons.injEq, true_and] at h
      obtain ⟨hchildren, hbehind⟩ := ihchild hchild' h
      simp only [List.cons.injEq, true_and] at hbehind
      obtain ⟨hnexts, hrest⟩ := ihnext hnext' hbehind
      exact ⟨by simp [hchildren, hnexts, Atom.looksLike], hrest⟩
  | leaf hnil hbranch ha hnext ih =>
    cases hr with
    | sentinel => exact absurd (Atom.eq_nil_of_mark (mark_eq_of_writtenNodes h)) hnil
    | branch => exact absurd (Atom.eq_branch_of_mark (mark_eq_of_writtenNodes h)) hbranch
    | leaf _ _ hb hnext' =>
      rw [toList_writtenNodes_leaf _ _ hnext, toList_writtenNodes_leaf _ _ hnext'] at h
      simp only [List.append_assoc] at h
      obtain ⟨hatoms, hbehind⟩ := ha.unique hb h
      obtain ⟨hnexts, hrest⟩ := ih hnext' hbehind
      exact ⟨by simp [hatoms, hnexts], hrest⟩

end Tree

namespace Reader

/-- The atoms of a tree tell where they end, if the end of the text leaves no error in it. -/
theorem madeOf_closed {r : Reader} (h : r.config.reportUnterminated = false) :
    r.parse.1.MadeOf Atom.Closed :=
  r.madeOf_given.sharpen fun _ _ ha => ha.closed h

/-- **The debug view shows a tree unambiguously.** Two readers, of whatever texts, from whatever
positions and with whatever limits, neither of which notes the end of its text in the tree: their
trees have the same debug view exactly if these have the same shape and the same atom at each place,
floats by their six decimal places. -/
theorem render_unicode_eq_iff (r r' : Reader) (h : r.config.reportUnterminated = false)
    (h' : r'.config.reportUnterminated = false) :
    r.parse.1.render .unicode = r'.parse.1.render .unicode ↔
      r.parse.1.alike Atom.looksLike r'.parse.1 = true := by
  have hwritten : ∀ t : Tree, t.render .unicode = t.writtenNodes .unicode :=
    fun t => Tree.render_eq_written .unicode t
  rw [hwritten, hwritten]
  refine ⟨fun heq => ?_, Tree.writtenNodes_eq_of_alike⟩
  exact (Tree.alike_of_writtenNodes (madeOf_closed h) (madeOf_closed h')
    (congrArg (·.toList ++ []) heq)).1

/-- The seventh decimal place of a float does not show, nor a string that the text ends in. -/
theorem render_unicode_eq_rounded :
    (ofText "(a 0.5 \"b".toList ⟨none, false⟩).config.reportUnterminated = false ∧
      (ofText "(a 0.50000001)".toList ⟨none, false⟩).config.reportUnterminated = false ∧
      (ofText "(a 0.5 \"b".toList ⟨none, false⟩).parse.1.render .unicode =
        (ofText "(a 0.50000001)".toList ⟨none, false⟩).parse.1.render .unicode := by
  refine ⟨rfl, rfl, (render_unicode_eq_iff _ _ rfl rfl).2 ?_⟩
  rw [fst_parse, fst_parse]
  decide +kernel

end Reader

end Sexpr
