import Sexpr.Proofs.Lexeme.Parallel
import Sexpr.Proofs.Lexeme.Reports
import Sexpr.Proofs.Lexeme.Splitting
import Sexpr.Proofs.Reader.Trees

/-!
# Closing what a text leaves open

A text that ends inside some lists, and perhaps inside a string, is read as far as it goes. What is
read of it is what is read of the text closed (`Reader.parse_closed`): with a line break and a
parenthesis for each open list, and a double quote in front of these for an open string. Only the
string itself is new then.

* `Tree.continueAt` goes on with a chain inside the last list of the last list of a tree.
* `Lexeme.Gains` says that one level of a reading gains something at its end, and no other. Every
  lexeme keeps it (`Lexeme.kept_gains`).
* `Lexeme.timeline_closings` and `Lexeme.filter_cutOff` compare what is reported.
* `Lexeme.Mended` puts both together for two rows that part where the text ends, and
  `Reader.exists_mended` has it of every text.
-/

namespace Sexpr

namespace Tree

/-- The tree with `u` behind the forms of a chain, in place of its sentinel. This chain is reached
from the outermost one by entering the last form `depth` times; if one of these is no list, then
the tree is left as it is. -/
def continueAt : Tree → Nat → Tree → Tree
  | t, 0, u => t.before u
  | absent, _ + 1, _ => absent
  | node a child next, depth + 1, u =>
    if next.endsHere then
      if a = .branch then node a (child.continueAt depth u) next else node a child next
    else node a child (next.continueAt (depth + 1) u)

variable (u : Tree)

/-- What is in front of the last form stays as it is. -/
theorem continueAt_node {a : Atom} (ha : a ≠ .nil) (child : Tree) {next : Tree} {depth : Nat}
    (h : depth = 0 ∨ next.endsHere = false) :
    (node a child next).continueAt depth u = node a child (next.continueAt depth u) := by
  cases depth with
  | zero =>
    rw [continueAt, continueAt]
    exact before_node ha child next u
  | succ depth =>
    have hnext : next.endsHere = false := h.resolve_left (Nat.succ_ne_zero depth)
    rw [continueAt, if_neg (by simp [hnext])]

theorem continueAt_last (child : Tree) (depth : Nat) :
    (node .branch child sentinel).continueAt (depth + 1) u =
      node .branch (child.continueAt depth u) sentinel := rfl

theorem continueAt_last_leaf {a : Atom} (h : a ≠ .branch) (child : Tree) (depth : Nat) :
    (node a child sentinel).continueAt (depth + 1) u = node a child sentinel := by
  have hends : sentinel.endsHere = true := rfl
  rw [continueAt, if_pos hends, if_neg h]

/-- With nothing to go on with, a tree is as it was. -/
theorem continueAt_sentinel {t : Tree} (h : t.WellFormed) (depth : Nat) :
    t.continueAt depth sentinel = t := by
  induction h generalizing depth with
  | sentinel => cases depth <;> rfl
  | branch hchild hnext ihchild ihnext =>
    cases depth with
    | zero => exact before_sentinel (.branch hchild hnext)
    | succ depth =>
      rw [continueAt, ihnext, ihchild]
      split <;> rfl
  | leaf hnil hbranch hnext ihnext =>
    cases depth with
    | zero => exact before_sentinel (.leaf hnil hbranch hnext)
    | succ depth =>
      rw [continueAt, ihnext, if_neg hbranch]
      split <;> rfl

end Tree

/-- What is no truncation is of no kind of truncations. -/
theorem Diagnostic.anomaly_ne (d : Diagnostic) (hd : d.isTruncation = false) {a : Anomaly}
    (ha : a.isTruncation = true) : d.cause.anomaly ≠ a := by
  rintro rfl
  exact Bool.noConfusion (hd.symm.trans ha)

namespace Lexeme

/-! ## One level gains -/

/-- The chains of some levels, the innermost first, before and after one of them has gained `u`. It
gains it at its own end, or at the end of the last list inside of it, always inside `depth` lists
altogether. The levels around it have nothing more to come. -/
inductive Gains (u : Tree) (depth : Nat) : List Tree → List Tree → Prop
  | here {t : Tree} {around : List Tree} {inside : Nat} :
    inside + around.length = depth → (inside = 0 ∨ t.endsHere = false) →
    (∀ s ∈ around, s = .sentinel) →
    Gains u depth (t :: around) (t.continueAt inside u :: around)
  | outside {t : Tree} {around around' : List Tree} :
    Gains u depth around around' → Gains u depth (t :: around) (t :: around')

variable {u : Tree} {depth : Nat} {t t' inner inner' outer outer' : Tree}
  {around around' : List Tree}

/-- The outermost level gains at the depth. -/
theorem Gains.eq_continueAt (h : Gains u depth [t] [t']) : t' = t.continueAt depth u := by
  cases h with
  | here hdepth => rw [← hdepth]; rfl
  | outside h => cases h

/-- A form in front of the innermost level. -/
theorem Gains.precede {a : Atom} (ha : a ≠ .nil) (child : Tree)
    (h : Gains u depth (t :: around) (t' :: around')) :
    Gains u depth (.node a child t :: around) (.node a child t' :: around') := by
  cases h with
  | here hdepth hopen haround =>
    rw [← Tree.continueAt_node u ha child hopen]
    refine .here hdepth (.inr ?_) haround
    simp [Tree.endsHere, ha]
  | outside h => exact .outside h

/-- A list that is kept: if it has gained something, then it is the last form of its level. -/
theorem Gains.enclose_branch (h : Gains u depth (inner :: outer :: around)
    (inner' :: outer' :: around')) :
    Gains u depth (.node .branch inner outer :: around)
      (.node .branch inner' outer' :: around') := by
  cases h with
  | here hdepth hopen haround =>
    rw [List.forall_mem_cons] at haround
    obtain ⟨rfl, haround⟩ := haround
    rw [← Tree.continueAt_last]
    refine .here ?_ (.inr rfl) haround
    rw [← hdepth, List.length_cons]
    omega
  | outside h => exact h.precede Atom.noConfusion inner

/-- A list that is replaced by an error: what it has gained is lost. -/
theorem Gains.enclose_error (message : String) (h : Gains u depth (inner :: outer :: around)
    (inner' :: outer' :: around')) :
    Gains u depth (.node (.error message) .absent outer :: around)
      (.node (.error message) .absent outer' :: around') := by
  cases h with
  | @here _ _ inside hdepth hopen haround =>
    rw [List.forall_mem_cons] at haround
    obtain ⟨rfl, haround⟩ := haround
    have hleaf : Atom.error message ≠ .branch := Atom.noConfusion
    have hlost := Tree.continueAt_last_leaf u hleaf .absent inside
    have hgains : Gains u depth (.node (.error message) .absent .sentinel :: around)
        ((Tree.node (.error message) .absent .sentinel).continueAt (inside + 1) u :: around) := by
      refine .here ?_ (.inr rfl) haround
      rw [← hdepth, List.length_cons]
      omega
    rwa [hlost] at hgains
  | outside h => exact h.precede Atom.noConfusion .absent

/-- A list is kept, whatever is inside of it, or replaced by an error. -/
theorem chain_enclose_cases (config : ReaderConfig) (depth offset : Nat) :
    (∀ inner outer, (enclose config depth offset inner outer).chain =
      .node .branch inner.chain outer.chain) ∨
    ∃ message, ∀ inner outer, (enclose config depth offset inner outer).chain =
      .node (.error message) .absent outer.chain := by
  unfold enclose
  cases config.maxDepth with
  | none => exact .inl fun _ _ => rfl
  | some limit =>
    by_cases h : limit.count.value < depth + 1
    · exact .inr ⟨_, fun _ _ => by simp only [if_pos h]; rfl⟩
    · exact .inl fun _ _ => by simp only [if_neg h]

/-- Every lexeme keeps it that one level gains. -/
theorem kept_gains (config : ReaderConfig) (u : Tree) (depth : Nat) :
    Kept config config id fun r r' => Gains u depth r.chains r'.chains where
  form cs h := h.precede (Atom.ofToken_form cs).1 .absent
  droppedQuote _ _ h := h
  closing h := .outside h
  opening {inner outer inner' outer' around around' _ _} offset _ h := by
    rcases chain_enclose_cases config around.length offset with hchain | ⟨message, hchain⟩
    · simp only [Reading.chains, List.map_cons, hchain, id]
      exact Gains.enclose_branch h
    · simp only [Reading.chains, List.map_cons, hchain, id]
      exact Gains.enclose_error message h

/-- **Two rows that part at their ends**: the tree gains what the second one has more of. -/
theorem chain_read_gains (config : ReaderConfig) {last last' : Nat} {xs ys ys' : List Lexeme}
    (hstring : ∀ cs offset, .openString cs offset ∉ xs) {left : List Nat}
    (hleft : openBehind [] xs = some left)
    (hys : (read config last left ys).chains = List.replicate (left.length + 1) .sentinel)
    (hys' : (read config last' left ys').chains = u :: List.replicate left.length .sentinel) :
    (read config last' [] (xs ++ ys')).here.chain =
      (read config last [] (xs ++ ys)).here.chain.continueAt left.length u := by
  have hend : Gains u left.length (read config last left ys).chains
      (read config last' left ys').chains := by
    rw [hys, hys', List.replicate_succ]
    exact .here (by simp) (.inl rfl) fun s hs => List.eq_of_mem_replicate hs
  have hread : Gains u left.length (read config last [] (xs ++ ys)).chains
      (read config last' [] (xs.map (move id) ++ ys')).chains := by
    apply (kept_gains config u left.length).read_append
    · exact fun cs offset hmem => absurd hmem (hstring cs offset)
    · exact fun hnone => absurd (hleft.symm.trans hnone) (Option.some_ne_none left)
    · intro left' hleft'
      obtain rfl := Option.some.inj (hleft.symm.trans hleft')
      rwa [List.map_id]
  rw [map_move_id, Reading.chains, Reading.chains, around_read_outermost,
    around_read_outermost] at hread
  exact hread.eq_continueAt

/-! ## Parentheses at the end -/

theorem chains_ending (limit : Option Limit) (last : Nat) (left : List Nat) :
    (ending ⟨limit, false⟩ last left).chains = List.replicate (left.length + 1) .sentinel := by
  rw [Reading.chains, ending_levels]
  induction left with
  | nil => rfl
  | cons o left ih =>
    rw [List.map_cons, List.cons_append, List.map_cons, ih]
    rfl

/-- Parentheses that close all lists end every level where it is. -/
theorem chains_read_closings (config : ReaderConfig) (last offset : Nat) (left : List Nat) :
    (read config last left (ofText offset (List.replicate left.length ')'))).chains =
      List.replicate (left.length + 1) .sentinel := by
  induction left generalizing offset with
  | nil => rfl
  | cons o left ih =>
    rw [List.length_cons, List.replicate_succ, ofText_closing, List.replicate_succ,
      ← ih (offset + 1)]
    rfl

/-- A string stands in front of the innermost level. -/
theorem chains_read_string {config : ReaderConfig} {last : Nat} {left : List Nat} {xs : List Lexeme}
    {levels : List Tree} (h : (read config last left xs).chains = t :: levels) (cs : List Char)
    (offset : Nat) :
    (read config last left (.string cs offset :: xs)).chains =
      .node (Atom.ofToken cs) .absent t :: levels := by
  rw [Reading.chains, List.map_cons, List.cons.injEq] at h
  obtain ⟨rfl, rfl⟩ := h
  rfl

/-- Parentheses that close all lists bring the reports of those beyond the limit. -/
theorem timeline_closings (config : ReaderConfig) (last offset : Nat) (left : List Nat) :
    timeline config last left (ofText offset (List.replicate left.length ')')) =
      (openPlaces left).flatMap (beyond config) := by
  induction left generalizing offset with
  | nil => rfl
  | cons o left ih =>
    rw [List.length_cons, List.replicate_succ, ofText_closing, timeline_cons, openPlaces,
      List.flatMap_cons, ← ih (offset + 1)]
    rfl

/-- The end of the text brings the same reports, and those of the lists that it leaves open. -/
theorem filter_cutOff (config : ReaderConfig) (last : Nat) (left : List Nat)
    {p : Diagnostic → Bool} (hp : ∀ d, d.isTruncation = false → p d = true)
    (hlist : ∀ o, p ⟨.unterminatedList o, last⟩ = false) :
    (cutOff config last left).filter p = (openPlaces left).flatMap (beyond config) := by
  rw [cutOff_eq_flatMap, List.filter_flatMap]
  congr 1
  funext x
  rw [List.filter_cons_of_neg (by simp [hlist])]
  exact List.filter_eq_self.2 fun d hd => hp d (isTruncation_beyond config x d hd)

/-- The end of the text cuts off the lists that it leaves open, and nothing else. -/
theorem filter_cutOff_truncations (config : ReaderConfig) (last : Nat) (left : List Nat)
    {p : Diagnostic → Bool} (hp : ∀ d, d.isTruncation = false → p d = false) :
    (cutOff config last left).filter p =
      ((openPlaces left).map fun x => ⟨.unterminatedList x.offset, last⟩).filter p := by
  rw [cutOff_eq_flatMap, List.map_eq_flatMap, List.filter_flatMap, List.filter_flatMap]
  congr 1
  funext x
  have hbeyond : (beyond config x).filter p = [] :=
    List.filter_eq_nil_iff.2 fun d hd => by simp [hp d (isTruncation_beyond config x d hd)]
  rw [List.filter_cons, List.filter_cons, hbeyond]
  rfl

theorem isTruncation_flatMap_beyond (config : ReaderConfig) (xs : List Place) :
    ∀ d ∈ xs.flatMap (beyond config), d.isTruncation = false := by
  intro d hd
  obtain ⟨x, -, hx⟩ := List.mem_flatMap.1 hd
  exact isTruncation_beyond config x d hx

/-! ## A text and the text closed -/

/-- What is read of a text, and of the text closed. `ds` is reported before the end of the text and
`pending` of a string that is open there, and `left` are the open lists. `u` is what is new. -/
structure Mended (config : ReaderConfig) (last : Nat) (ds pending : List Diagnostic)
    (left : List Nat) (u : Tree) (whole closed : Stretch) : Prop where
  before : ∀ d ∈ ds, d.isTruncation = false
  strings : ∀ d ∈ pending, d.cause.anomaly = .unterminatedString
  chain : closed.chain = whole.chain.continueAt left.length u
  reports : whole.reports = ds ++ (pending ++ cutOff config last left)
  reports_closed : closed.reports = ds ++ (openPlaces left).flatMap (beyond config)

section Mended

variable {config : ReaderConfig} {last : Nat} {ds pending : List Diagnostic} {left : List Nat}
  {whole closed : Stretch} {p : Diagnostic → Bool}

/-- Nothing of the text closed is cut off. -/
theorem Mended.isTruncation_closed (h : Mended config last ds pending left u whole closed) :
    closed.reports.any Diagnostic.isTruncation = false := by
  rw [List.any_eq_false]
  intro d hd
  rw [h.reports_closed, List.mem_append] at hd
  rw [Bool.not_eq_true]
  rcases hd with hd | hd
  · exact h.before d hd
  · exact isTruncation_flatMap_beyond config _ d hd

/-- The reports of the text, without those of the lists that it leaves open. -/
theorem Mended.filter_reports (h : Mended config last ds pending left u whole closed)
    (hp : ∀ d, d.isTruncation = false → p d = true)
    (hlist : ∀ o, p ⟨.unterminatedList o, last⟩ = false) (hpending : pending.filter p = []) :
    whole.reports.filter p = closed.reports := by
  have hbefore : ds.filter p = ds := List.filter_eq_self.2 fun d hd => hp d (h.before d hd)
  rw [h.reports, h.reports_closed, List.filter_append, List.filter_append, hbefore, hpending,
    filter_cutOff config last left hp hlist, List.nil_append]

/-- The reports of what the end of the text cuts off. -/
theorem Mended.filter_truncations (h : Mended config last ds pending left u whole closed)
    (hp : ∀ d, d.isTruncation = false → p d = false) :
    whole.reports.filter p =
      pending.filter p ++
        ((openPlaces left).map fun x => ⟨.unterminatedList x.offset, last⟩).filter p := by
  have hbefore : ds.filter p = [] :=
    List.filter_eq_nil_iff.2 fun d hd => by simp [hp d (h.before d hd)]
  rw [h.reports, List.filter_append, List.filter_append, hbefore,
    filter_cutOff_truncations config last left hp, List.nil_append]

/-- There is one report for each list that the text leaves open. -/
theorem Mended.count_lists (h : Mended config last ds pending left u whole closed) :
    whole.reports.countP (·.cause.anomaly = .unterminatedList) = left.length := by
  have hbefore : ∀ d : Diagnostic, d.isTruncation = false →
      decide (d.cause.anomaly = .unterminatedList) = false :=
    fun d hd => decide_eq_false (d.anomaly_ne hd rfl)
  have hpending : pending.filter (·.cause.anomaly = .unterminatedList) = [] :=
    List.filter_eq_nil_iff.2 fun d hd => by simp [h.strings d hd]
  rw [List.countP_eq_length_filter, h.filter_truncations hbefore, hpending, List.nil_append,
    List.filter_eq_self.2 ?_, List.length_map, length_openPlaces]
  intro d hd
  obtain ⟨x, -, rfl⟩ := List.mem_map.1 hd
  rfl

/-- The reports of a string that the text leaves open. -/
theorem Mended.filter_strings (h : Mended config last ds pending left u whole closed) :
    whole.reports.filter (·.cause.anomaly = .unterminatedString) = pending := by
  have hbefore : ∀ d : Diagnostic, d.isTruncation = false →
      decide (d.cause.anomaly = .unterminatedString) = false :=
    fun d hd => decide_eq_false (d.anomaly_ne hd rfl)
  have hpending : pending.filter (·.cause.anomaly = .unterminatedString) = pending :=
    List.filter_eq_self.2 fun d hd => decide_eq_true (h.strings d hd)
  rw [h.filter_truncations hbefore, hpending, List.filter_eq_nil_iff.2 ?_, List.append_nil]
  intro d hd
  obtain ⟨x, -, rfl⟩ := List.mem_map.1 hd
  exact Bool.noConfusion

end Mended

section Rows

variable {config : ReaderConfig} {last last' : Nat} {xs ys ys' : List Lexeme}

/-- Behind a closing parenthesis outside of all lists nothing of a text counts. -/
theorem mended_stopped (hstring : ∀ cs offset, .openString cs offset ∉ xs)
    (hstop : openBehind [] xs = none)
    (hshape : (read config last [] (xs ++ ys)).here.chain.WellFormed) :
    Mended config last (collect (reported config last) [] xs) [] [] .sentinel
      (read config last [] (xs ++ ys)).here (read config last' [] (xs ++ ys')).here := by
  have hread : read config last [] (xs ++ ys) = read config last' [] (xs ++ ys') :=
    read_append_congr hstring fun left hleft =>
      absurd (hstop.symm.trans hleft) (Option.some_ne_none left).symm
  have hreports : (read config last [] (xs ++ ys)).here.reports =
      collect (reported config last) [] xs := by
    rw [reports_read, timeline_append, hstop]
    exact List.append_nil _
  rw [← hread]
  exact {
    before := isTruncation_collect config last hstring []
    strings := fun d hd => absurd hd List.not_mem_nil
    chain := (Tree.continueAt_sentinel hshape 0).symm
    reports := by rw [hreports]; exact (List.append_nil _).symm
    reports_closed := by rw [hreports]; exact (List.append_nil _).symm }

/-- Two rows that part where some lists are open. The first one ends there, and the second one goes
on with `u` and closes them. -/
theorem mended_open (hstring : ∀ cs offset, .openString cs offset ∉ xs) {left : List Nat}
    (hleft : openBehind [] xs = some left) {pending : List Diagnostic}
    (hpending : ∀ d ∈ pending, d.cause.anomaly = .unterminatedString)
    (hys : (read config last left ys).chains = List.replicate (left.length + 1) .sentinel)
    (hys' : (read config last' left ys').chains = u :: List.replicate left.length .sentinel)
    (hreports : timeline config last left ys = pending ++ cutOff config last left)
    (hreports' : timeline config last' left ys' = (openPlaces left).flatMap (beyond config)) :
    Mended config last (collect (reported config last) [] xs) pending left u
      (read config last [] (xs ++ ys)).here (read config last' [] (xs ++ ys')).here where
  before := isTruncation_collect config last hstring []
  strings := hpending
  chain := chain_read_gains config hstring hleft hys hys'
  reports := by
    rw [reports_read, timeline_append, hleft, ← hreports]
    rfl
  reports_closed := by
    rw [reports_read, timeline_append, hleft, ← hreports',
      collect_reported_congr config last hstring last']
    rfl

end Rows

/-! ## The rows of a text and of the text closed -/

/-- Outside of strings the end of the text opens and closes nothing. -/
theorem cut_unquoted {state : State}
    (h : ∀ latest escaped start, state ≠ .string latest escaped start) :
    (∀ cs offset, .openString cs offset ∉ atEnd state) ∧
      ∀ offset rest, cut state offset ('\n' :: rest) = atEnd state ++ ofText (offset + 1) rest := by
  have hbreak : ∀ offset rest, ofText offset ('\n' :: rest) = ofText (offset + 1) rest := by
    intro offset rest
    rw [← cut_plain_nil offset (offset + 1)]
    rfl
  cases state with
  | plain latest start =>
    refine ⟨openString_notMem_ended latest start, ?_⟩
    intro offset rest
    rw [cut_bounded offset (bounded_cons rfl rest), hbreak, atEnd]
  | comment =>
    refine ⟨fun _ _ => List.not_mem_nil, ?_⟩
    intro offset rest
    exact cut_plain_nil offset (offset + 1) rest
  | string latest escaped start => exact absurd rfl (h latest escaped start)

/-- A line break goes into a string, whatever is in front of it, and the double quote behind it ends
the string. -/
theorem cut_quoted (latest : List Char) (escaped : Bool) (start offset : Nat) (rest : List Char) :
    cut (.string latest escaped start) offset ('\n' :: '"' :: rest) =
      .string (latest.reverse ++ ['\n', '"']) start :: ofText (offset + 2) rest := by
  have hstring : ('"' :: '\n' :: latest).reverse = latest.reverse ++ ['\n', '"'] := by simp
  rw [← hstring, ← cut_plain_nil (offset + 1) (offset + 2)]
  rfl

end Lexeme

namespace Reader

open Lexeme

variable {text : List Char} {config : ReaderConfig}

/-- A text with a closing parenthesis outside of all lists. -/
theorem exists_mended_of_stop (h : openBehind [] (passed (.plain [] 0) 0 text).1 = none)
    (rest : List Char) :
    ∃ ds, Mended config text.length ds [] [] .sentinel (ofText text config).reading.here
      (ofText (text ++ rest) config).reading.here := by
  have hshape : (ofText text config).reading.here.chain.WellFormed := by
    rw [← fst_parse]
    exact (madeOf_parse _).wellFormed
  rw [reading_ofText, Lexeme.ofText, cut_eq] at hshape ⊢
  rw [reading_ofText, Lexeme.ofText, cut_append]
  exact ⟨_, mended_stopped (openString_notMem_passed _ _ _) h hshape⟩

/-- A text that does not end in a string. -/
theorem exists_mended_of_unquoted {limit : Option Limit} {left : List Nat}
    (hleft : openBehind [] (passed (.plain [] 0) 0 text).1 = some left)
    (h : ∀ latest escaped start, (passed (.plain [] 0) 0 text).2 ≠ .string latest escaped start) :
    ∃ ds, Mended ⟨limit, false⟩ text.length ds [] left .sentinel
      (ofText text ⟨limit, false⟩).reading.here
      (ofText (text ++ '\n' :: List.replicate left.length ')') ⟨limit, false⟩).reading.here := by
  obtain ⟨hend, hbreak⟩ := cut_unquoted h
  let xs := (passed (.plain [] 0) 0 text).1 ++ atEnd (passed (.plain [] 0) 0 text).2
  have hstring : ∀ cs offset, .openString cs offset ∉ xs := by
    intro cs offset hmem
    rw [List.mem_append] at hmem
    exact hmem.elim (openString_notMem_passed _ _ _ _ _) (hend cs offset)
  have hxs : openBehind [] xs = some left := by
    rw [openBehind_append, hleft]
    exact openBehind_atEnd left _
  have hwhole : Lexeme.ofText 0 text = xs ++ [] := by
    rw [Lexeme.ofText, cut_eq, List.append_nil]
  rw [reading_ofText, reading_ofText, hwhole, Lexeme.ofText, cut_append, hbreak,
    ← List.append_assoc]
  refine ⟨_, mended_open hstring hxs ?_ ?_ ?_ ?_ ?_⟩
  · exact fun d hd => absurd hd List.not_mem_nil
  · exact chains_ending limit text.length left
  · exact chains_read_closings _ _ _ left
  · rfl
  · exact timeline_closings _ _ _ left

/-- A text that ends in a string. -/
theorem exists_mended_of_quoted {limit : Option Limit} {left : List Nat}
    (hleft : openBehind [] (passed (.plain [] 0) 0 text).1 = some left)
    {latest : List Char} {escaped : Bool} {start : Nat}
    (h : (passed (.plain [] 0) 0 text).2 = .string latest escaped start) {body : List Char}
    (hbody : latest.reverse = '"' :: body) :
    ∃ ds, Mended ⟨limit, false⟩ text.length ds
      [⟨.unterminatedString (String.ofList ('"' :: body)), text.length⟩] left
      (.node (.string (String.ofList (body ++ ['\n']))) .absent .sentinel)
      (ofText text ⟨limit, false⟩).reading.here
      (ofText (text ++ '\n' :: '"' :: List.replicate left.length ')')
        ⟨limit, false⟩).reading.here := by
  have hwhole : Lexeme.ofText 0 text =
      (passed (.plain [] 0) 0 text).1 ++ [.openString ('"' :: body) start] := by
    rw [Lexeme.ofText, cut_eq, h, atEnd, hbody]
  have hstring : '"' :: body ++ ['\n', '"'] = '"' :: (body ++ ['\n'] ++ ['"']) := by simp
  rw [reading_ofText, reading_ofText, hwhole, Lexeme.ofText, cut_append, h, cut_quoted, hbody,
    hstring, ← Atom.ofToken_quoted]
  refine ⟨_, mended_open (openString_notMem_passed _ _ _) hleft ?_ ?_ ?_ ?_ ?_⟩
  · intro d hd
    obtain rfl := List.mem_singleton.1 hd
    rfl
  · exact chains_ending limit text.length left
  · apply chains_read_string
    exact chains_read_closings _ _ _ left
  · rfl
  · rw [timeline_cons]
    exact timeline_closings _ _ _ left

/-- **Every text** is closed as one that ends in no string, or as one that ends in one. -/
theorem exists_mended (text : List Char) (limit : Option Limit) :
    (∃ ds left, Mended ⟨limit, false⟩ text.length ds [] left .sentinel
      (ofText text ⟨limit, false⟩).reading.here
      (ofText (text ++ '\n' :: List.replicate left.length ')') ⟨limit, false⟩).reading.here) ∨
    ∃ ds left body, Mended ⟨limit, false⟩ text.length ds
      [⟨.unterminatedString (String.ofList ('"' :: body)), text.length⟩] left
      (.node (.string (String.ofList (body ++ ['\n']))) .absent .sentinel)
      (ofText text ⟨limit, false⟩).reading.here
      (ofText (text ++ '\n' :: '"' :: List.replicate left.length ')')
        ⟨limit, false⟩).reading.here := by
  cases hleft : openBehind [] (passed (.plain [] 0) 0 text).1 with
  | none =>
    obtain ⟨ds, h⟩ := exists_mended_of_stop hleft ['\n']
    exact .inl ⟨ds, [], h⟩
  | some left =>
    have hstart : State.Proper (.plain [] 0) := Or.inl rfl
    have hproper := proper_passed hstart 0 text
    cases hstate : (passed (.plain [] 0) 0 text).2 with
    | string latest escaped start =>
      rw [hstate] at hproper
      obtain ⟨body, -, hbody⟩ := hproper
      obtain ⟨ds, h⟩ := exists_mended_of_quoted hleft hstate hbody
      exact .inr ⟨ds, left, body, h⟩
    | plain latest start =>
      obtain ⟨ds, h⟩ := exists_mended_of_unquoted hleft (by simp [hstate])
      exact .inl ⟨ds, left, h⟩
    | comment =>
      obtain ⟨ds, h⟩ := exists_mended_of_unquoted hleft (by simp [hstate])
      exact .inl ⟨ds, left, h⟩

section Mended

variable {text' : List Char} {last : Nat} {ds pending : List Diagnostic} {left : List Nat}
  {u : Tree}

theorem truncated_of_mended (h : Mended config last ds pending left u
    (ofText text config).reading.here (ofText text' config).reading.here) :
    (ofText text' config).parse.2.truncated = false := by
  rw [truncated, diagnostics_parse_ofText]
  exact h.isTruncation_closed

/-- Nothing is new in the text closed. -/
theorem parse_of_mended_unquoted (h : Mended config last ds [] left .sentinel
    (ofText text config).reading.here (ofText text' config).reading.here) :
    (ofText text' config).parse.1 = (ofText text config).parse.1 ∧
      (ofText text' config).parse.2.diagnostics =
        (ofText text config).parse.2.diagnostics.filter
          (·.cause.anomaly ≠ .unterminatedList) := by
  have hshape : (ofText text config).reading.here.chain.WellFormed := by
    rw [← fst_parse]
    exact (madeOf_parse _).wellFormed
  constructor
  · rw [fst_parse, fst_parse, h.chain, Tree.continueAt_sentinel hshape]
  · rw [diagnostics_parse_ofText, diagnostics_parse_ofText]
    refine (h.filter_reports ?_ ?_ rfl).symm
    · exact fun d hd => decide_eq_true (d.anomaly_ne hd rfl)
    · exact fun o => rfl

/-- The text closed is as the text, with `u` at the end of the innermost open list. -/
theorem parse_of_mended_quoted (h : Mended config last ds pending left u
    (ofText text config).reading.here (ofText text' config).reading.here) :
    (ofText text' config).parse.1 = (ofText text config).parse.1.continueAt left.length u ∧
      (ofText text' config).parse.2.diagnostics =
        (ofText text config).parse.2.diagnostics.filter (!·.isTruncation) := by
  constructor
  · rw [fst_parse, fst_parse, h.chain]
  · have hpending : pending.filter (!·.isTruncation) = [] := by
      refine List.filter_eq_nil_iff.2 ?_
      intro d hd
      rw [Diagnostic.isTruncation, h.strings d hd]
      exact Bool.noConfusion
    rw [diagnostics_parse_ofText, diagnostics_parse_ofText]
    refine (h.filter_reports ?_ ?_ hpending).symm
    · exact fun d hd => by rw [hd]; rfl
    · exact fun o => rfl

end Mended

/-- **The tree of a text that ends too early is the tree of the text closed.** Truncations do not
show in the tree here. A line break and a parenthesis for each open list close a text: the tree is
the same, and so are the reports, apart from those of the open lists. If a string is open too, then
a double quote in front of the parentheses ends it: the string, with the line break, comes at the
end of the innermost open list, unless this list is cut away. Nothing of the text closed is cut
off. -/
theorem parse_closed (text : List Char) (limit : Option Limit) :
    let whole := (ofText text ⟨limit, false⟩).parse
    let lists := whole.2.diagnostics.countP (·.cause.anomaly = .unterminatedList)
    let strings := whole.2.diagnostics.filter (·.cause.anomaly = .unterminatedString)
    (strings = [] ∧
      let closed := (ofText (text ++ '\n' :: List.replicate lists ')') ⟨limit, false⟩).parse
      closed.1 = whole.1 ∧
        closed.2.diagnostics =
          whole.2.diagnostics.filter (·.cause.anomaly ≠ .unterminatedList) ∧
        closed.2.truncated = false) ∨
    ∃ body, strings = [⟨.unterminatedString (String.ofList ('"' :: body)), text.length⟩] ∧
      let closed := (ofText (text ++ '\n' :: '"' :: List.replicate lists ')') ⟨limit, false⟩).parse
      closed.1 = whole.1.continueAt lists
          (.node (.string (String.ofList (body ++ ['\n']))) .absent .sentinel) ∧
        closed.2.diagnostics = whole.2.diagnostics.filter (!·.isTruncation) ∧
        closed.2.truncated = false := by
  intro whole lists strings
  have hreports : whole.2.diagnostics = (ofText text ⟨limit, false⟩).reading.here.reports :=
    diagnostics_parse_ofText text _
  rcases exists_mended text limit with ⟨ds, left, h⟩ | ⟨ds, left, body, h⟩
  · left
    have hlists : lists = left.length := by rw [← h.count_lists, ← hreports]
    obtain ⟨htree, hothers⟩ := parse_of_mended_unquoted h
    rw [hlists]
    refine ⟨?_, htree, hothers, truncated_of_mended h⟩
    rw [← h.filter_strings, ← hreports]
  · right
    have hlists : lists = left.length := by rw [← h.count_lists, ← hreports]
    obtain ⟨htree, hothers⟩ := parse_of_mended_quoted h
    rw [hlists]
    refine ⟨body, ?_, htree, hothers, truncated_of_mended h⟩
    rw [← h.filter_strings, ← hreports]

end Reader

end Sexpr
