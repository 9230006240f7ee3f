import Sexpr.Proofs.Reader.Joining
import Sexpr.Session

/-!
# The groups of a session

A session cuts its lines into groups: each is the shortest row of lines whose text reads without a
truncation (`Session.IsGroup`). `readForm_cases` says what one turn takes from the input, and
`run_groups` what a whole session does: it shows the tree of one group after the other, and the
forms of these trees are those of the lines read all at once.
-/

namespace Sexpr

/-- The texts that are written, one after the other. -/
def Action.texts (actions : List Action) : List String :=
  actions.filterMap fun | write text => some text | _ => none

namespace Session

/-! ## Groups -/

section

variable (config : ReaderConfig)

/-- What the text of some lines reads as. -/
def parseLines (lines : List String) : Tree × Reader := (Reader.ofText (textOf lines) config).parse

/-- The tree of some lines. -/
def treeOf (lines : List String) : Tree := (parseLines config lines).1

/-- The text of some lines reads without a truncation. -/
def Complete (lines : List String) : Prop := (parseLines config lines).2.truncated = false

/-- Some lines, at least one, are complete, and no fewer of them from the first one on are. -/
structure IsGroup (lines : List String) : Prop where
  ne_nil : lines ≠ []
  complete : Complete config lines
  shortest : ∀ p, p <+: lines → p ≠ [] → Complete config p → p = lines

/-- However many of some lines are taken from the first one on, they are not complete. -/
def Unfinished (lines : List String) : Prop := ∀ p, p <+: lines → p ≠ [] → ¬Complete config p

/-- One of the forms of some lines is `(quit)`. -/
def quits (lines : List String) : Bool := (treeOf config lines).anyForm isQuit

/-- The reading of some lines ends at a closing parenthesis outside of all lists. -/
def StopsEarly (lines : List String) : Prop :=
  ∃ d ∈ (parseLines config lines).2.diagnostics, d.cause = .strayClose

variable {config} {lines : List String}

theorem unfinished_nil : Unfinished config [] := fun _ hp hne =>
  absurd (List.prefix_nil.1 hp) hne

/-- One more line, after which the lines are still not complete. -/
theorem Unfinished.concat (h : Unfinished config lines) {line : String}
    (hline : ¬Complete config (lines ++ [line])) : Unfinished config (lines ++ [line]) := by
  intro p hp hne
  rcases List.prefix_concat_iff.1 hp with rfl | hp
  · exact hline
  · exact h p hp hne

/-- One more line, after which the lines are complete. -/
theorem Unfinished.isGroup (h : Unfinished config lines) {line : String}
    (hline : Complete config (lines ++ [line])) : IsGroup config (lines ++ [line]) := by
  refine ⟨by simp, hline, ?_⟩
  intro p hp hne hcomplete
  rcases List.prefix_concat_iff.1 hp with rfl | hp
  · rfl
  · exact absurd hcomplete (h p hp hne)

/-! ## One turn -/

/-- What some lines amount to. -/
theorem verdict_consider (config : ReaderConfig) (lines : List String) :
    (consider config lines).1 =
      if (parseLines config lines).2.truncated = true then .incomplete
      else if quits config lines = true then .quit
      else .complete (treeOf config lines) := by
  have hparse : (Reader.ofText (textOf lines) config).parse = parseLines config lines := rfl
  have hquits : (parseLines config lines).1.anyForm isQuit = quits config lines := rfl
  simp only [consider, Reader.parseLogged_eq, hparse, hquits]
  split_ifs <;> rfl

theorem texts_append (actions actions' : List Action) :
    Action.texts (actions ++ actions') = Action.texts actions ++ Action.texts actions' :=
  List.filterMap_append

theorem prompts_append (actions actions' : List Action) :
    Action.prompts (actions ++ actions') = Action.prompts actions ++ Action.prompts actions' :=
  List.filterMap_append

theorem texts_write (text : String) (actions : List Action) :
    Action.texts (.write text :: actions) = text :: Action.texts actions := rfl

theorem prompts_write (text : String) (actions : List Action) :
    Action.prompts (.write text :: actions) = Action.prompts actions := rfl

theorem texts_prompt (prompt : String) (records : List Record) (actions : List Action) :
    Action.texts (.prompt prompt :: records.map .log ++ actions) = Action.texts actions := by
  simp [Action.texts, List.filterMap_append, List.filterMap_map]

theorem prompts_prompt (prompt : String) (records : List Record) (actions : List Action) :
    Action.prompts (.prompt prompt :: records.map .log ++ actions) =
      prompt :: Action.prompts actions := by
  simp [Action.prompts, List.filterMap_append, List.filterMap_map]

end

variable (config : SessionConfig)

/-- What one turn takes from the input, when some lines are collected already. -/
structure Taken (collected taken rest : List String) (turn : Turn) : Prop where
  isGroup : IsGroup config.reader (collected ++ taken)
  rest : turn.rest = rest
  result : turn.result =
    if quits config.reader (collected ++ taken) then none
    else some (treeOf config.reader (collected ++ taken))
  texts : Action.texts turn.actions = []
  prompts : (Action.prompts turn.actions).length = taken.length

/-- The end of the input in the middle of a group. -/
structure RanOut (collected input : List String) (turn : Turn) : Prop where
  unfinished : Unfinished config.reader (collected ++ input)
  result : turn.result = none
  texts : Action.texts turn.actions = []
  prompts : (Action.prompts turn.actions).length = input.length + 1

/-- A turn with a line in front, which does not complete the lines. -/
def Turn.later (turn : Turn) (records : List Record) : Turn :=
  { turn with actions := .prompt config.prompt :: records.map .log ++ turn.actions }

variable {config} in
theorem Taken.later {collected taken rest : List String} {line : String} {turn : Turn}
    (h : Taken config (collected ++ [line]) taken rest turn) (records : List Record) :
    Taken config collected (line :: taken) rest (turn.later config records) := by
  obtain ⟨hgroup, hrest, hresult, htexts, hprompts⟩ := h
  rw [List.append_assoc, List.singleton_append] at hgroup hresult
  refine ⟨hgroup, hrest, hresult, ?_, ?_⟩
  · rw [Turn.later, texts_prompt, htexts]
  · rw [Turn.later, prompts_prompt, List.length_cons, hprompts, List.length_cons]

variable {config} in
theorem RanOut.later {collected input : List String} {line : String} {turn : Turn}
    (h : RanOut config (collected ++ [line]) input turn) (records : List Record) :
    RanOut config collected (line :: input) (turn.later config records) := by
  obtain ⟨hunfinished, hresult, htexts, hprompts⟩ := h
  rw [List.append_assoc, List.singleton_append] at hunfinished
  refine ⟨hunfinished, hresult, ?_, ?_⟩
  · rw [Turn.later, texts_prompt, htexts]
  · rw [Turn.later, prompts_prompt, List.length_cons, hprompts, List.length_cons]

/-- A turn that ends with the line that completes the lines. -/
theorem taken_last {collected : List String} {line : String}
    (h : IsGroup config.reader (collected ++ [line])) (rest : List String)
    (records : List Record) {result : Option Tree}
    (hresult : result = if quits config.reader (collected ++ [line]) then none
      else some (treeOf config.reader (collected ++ [line]))) :
    Taken config collected [line] rest
      ⟨result, rest, .prompt config.prompt :: records.map .log⟩ := by
  have htexts := texts_prompt config.prompt records []
  have hprompts := congrArg List.length (prompts_prompt config.prompt records [])
  rw [List.append_nil] at htexts hprompts
  exact ⟨h, rfl, hresult, htexts, hprompts⟩

/-- **One turn** takes the next group from the input, or all of it if no group is complete. -/
theorem readForm_cases {collected : List String} (h : Unfinished config.reader collected)
    (input : List String) :
    (∃ taken rest, taken ≠ [] ∧ input = taken ++ rest ∧
      Taken config collected taken rest (readForm config collected input)) ∨
    RanOut config collected input (readForm config collected input) := by
  induction input generalizing collected with
  | nil =>
    refine .inr ⟨?_, rfl, rfl, rfl⟩
    rwa [List.append_nil]
  | cons line input ih =>
    have hverdict := verdict_consider config.reader (collected ++ [line])
    rw [readForm]
    generalize consider config.reader (collected ++ [line]) = out at hverdict ⊢
    obtain ⟨verdict, records⟩ := out
    simp only at hverdict
    by_cases htruncated : (parseLines config.reader (collected ++ [line])).2.truncated = true
    · rw [if_pos htruncated] at hverdict
      subst hverdict
      have hline : ¬Complete config.reader (collected ++ [line]) := by simp [Complete, htruncated]
      rcases ih (h.concat hline) with ⟨taken, rest, hne, rfl, htaken⟩ | hout
      · exact .inl ⟨line :: taken, rest, by simp, rfl, htaken.later records⟩
      · exact .inr (hout.later records)
    · rw [if_neg htruncated] at hverdict
      have hline : Complete config.reader (collected ++ [line]) := by
        simpa [Complete] using htruncated
      have hgroup := h.isGroup hline
      refine .inl ⟨[line], input, by simp, rfl, ?_⟩
      by_cases hquit : quits config.reader (collected ++ [line]) = true
      · rw [if_pos hquit] at hverdict
        subst hverdict
        exact taken_last config hgroup input records (by rw [if_pos hquit])
      · rw [if_neg hquit] at hverdict
        subst hverdict
        exact taken_last config hgroup input records (by rw [if_neg hquit])

/-! ## A whole session -/

theorem run_none {input : List String} (h : (readForm config [] input).result = none) :
    run config input = (readForm config [] input).actions := by
  rw [run]
  split
  · rfl
  · next tree htree => rw [htree] at h; exact absurd h (by simp)

theorem run_some {input : List String} {tree : Tree}
    (h : (readForm config [] input).result = some tree) :
    run config input = (readForm config [] input).actions ++
      .write (answer config tree) :: run config (readForm config [] input).rest := by
  rw [run]
  split
  · next hnone => rw [hnone] at h; exact absurd h (by simp)
  · next tree' htree =>
    rw [htree] at h
    rw [Option.some.inj h]

/-- The course of a session on some input: the groups that it takes, the lines behind them that
make up no group, and the lines that it leaves. -/
structure Course (input : List String) (groups : List (List String)) (last unread : List String) :
    Prop where
  input_eq : input = groups.flatten ++ last ++ unread
  isGroup : ∀ g ∈ groups, IsGroup config.reader g
  unfinished : Unfinished config.reader last
  /-- Only the last group can end the session. -/
  only_last : ∀ g ∈ groups.dropLast, quits config.reader g = false
  /-- Nothing is taken behind a group that ends the session, and all is taken if none does. -/
  left : if groups.any (quits config.reader) then last = [] else unread = []
  /-- The trees of the groups are shown, but not the one that ends the session. -/
  texts : Action.texts (run config input) =
    (groups.filter fun g => !quits config.reader g).map fun g =>
      answer config (treeOf config.reader g)
  /-- There is a prompt for each line that is taken, and one for the end of the input. -/
  prompts : (Action.prompts (run config input)).length =
    groups.flatten.length + last.length + if groups.any (quits config.reader) then 0 else 1

variable {config}

theorem RanOut.course {input : List String}
    (h : RanOut config [] input (readForm config [] input)) :
    Course config input [] input [] := by
  obtain ⟨hunfinished, hresult, htexts, hprompts⟩ := h
  have hrun := run_none config hresult
  refine ⟨by simp, by simp, hunfinished, by simp, by simp, ?_, ?_⟩
  · rw [hrun, htexts]
    rfl
  · rw [hrun, hprompts]
    simp

theorem Taken.course_quit {g rest : List String}
    (h : Taken config [] g rest (readForm config [] (g ++ rest)))
    (hquit : quits config.reader g = true) : Course config (g ++ rest) [g] [] rest := by
  obtain ⟨hgroup, hrest, hresult, htexts, hprompts⟩ := h
  rw [List.nil_append] at hgroup hresult
  rw [if_pos hquit] at hresult
  have hrun := run_none config hresult
  refine ⟨by simp, by simpa using hgroup, unfinished_nil, by simp, by simp [hquit], ?_, ?_⟩
  · rw [hrun, htexts]
    simp [hquit]
  · rw [hrun, hprompts]
    simp [hquit]

theorem Taken.course {g rest last unread : List String} {groups : List (List String)}
    (h : Taken config [] g rest (readForm config [] (g ++ rest)))
    (hquit : quits config.reader g = false) (hrest : Course config rest groups last unread) :
    Course config (g ++ rest) (g :: groups) last unread := by
  obtain ⟨hgroup, hturn, hresult, htexts, hprompts⟩ := h
  rw [List.nil_append] at hgroup hresult
  rw [if_neg (by simp [hquit])] at hresult
  have hrun := run_some config hresult
  rw [hturn] at hrun
  refine ⟨?_, ?_, hrest.unfinished, ?_, ?_, ?_, ?_⟩
  · rw [hrest.input_eq]
    simp
  · exact List.forall_mem_cons.2 ⟨hgroup, hrest.isGroup⟩
  · cases groups with
    | nil => simp
    | cons g' groups =>
      rw [List.dropLast_cons_cons]
      exact List.forall_mem_cons.2 ⟨hquit, hrest.only_last⟩
  · simpa [hquit] using hrest.left
  · rw [hrun, texts_append, htexts, texts_write, hrest.texts]
    simp [hquit]
  · rw [hrun, prompts_append, List.length_append, hprompts, prompts_write, hrest.prompts]
    simp only [List.flatten_cons, List.length_append, List.any_cons, hquit, Bool.false_or]
    omega

/-- **A session takes its input group by group.** -/
theorem exists_course (config : SessionConfig) (input : List String) : ∃ groups last unread,
    Course config input groups last unread := by
  induction hn : input.length using Nat.strongRecOn generalizing input with
  | ind n ih =>
    rcases readForm_cases config unfinished_nil input with ⟨g, rest, hne, rfl, htaken⟩ | hout
    · by_cases hquit : quits config.reader g = true
      · exact ⟨[g], [], rest, htaken.course_quit hquit⟩
      · have hlength : rest.length < n := by
          have := List.length_pos_iff.2 hne
          rw [← hn, List.length_append]
          omega
        obtain ⟨groups, last, unread, hrest⟩ := ih _ hlength rest rfl
        exact ⟨g :: groups, last, unread, htaken.course (by simpa using hquit) hrest⟩
    · exact ⟨[], input, [], hout.course⟩

/-! ## The forms of the groups -/

variable {config : ReaderConfig}

theorem treeOf_eq (lines : List String) : treeOf config lines =
    (Lexeme.read config (textOf lines).length [] (Lexeme.ofText 0 (textOf lines))).here.chain := by
  rw [treeOf, parseLines, Reader.fst_parse, Reader.reading_ofText]

/-- Nothing is cut off from a group whose reading does not end early. -/
theorem not_cutsOff {lines : List String} (h : Complete config lines)
    (hstray : ¬StopsEarly config lines) : ∀ d ∈ (Lexeme.read config (textOf lines).length []
      (Lexeme.ofText 0 (textOf lines))).reports, ¬Lexeme.CutsOff d :=
  Reader.not_cutsOff h fun d hd hcause => hstray ⟨d, hd, hcause⟩

theorem textOf_append (lines lines' : List String) :
    textOf (lines ++ lines') = textOf lines ++ textOf lines' := by
  simp [textOf]

/-- The text of a group ends with a line break. -/
theorem exists_textOf_eq {lines : List String} (h : lines ≠ []) :
    ∃ cs, textOf lines = cs ++ ['\n'] := by
  obtain ⟨init, line, rfl⟩ := List.eq_nil_or_concat lines |>.resolve_left h
  refine ⟨textOf init ++ line.toList, ?_⟩
  simp [textOf]

/-- **The forms of groups** are those of all their lines read at once, wherever the text of them
stands. -/
theorem forms_read_groups {groups : List (List String)} (hgroups : ∀ g ∈ groups, IsGroup config g)
    (hstray : ∀ g ∈ groups, ¬StopsEarly config g) (last offset : Nat) :
    (Lexeme.read config last [] (Lexeme.ofText offset (textOf groups.flatten))).here.chain.forms =
      groups.flatMap fun g => (treeOf config g).forms := by
  induction groups generalizing offset with
  | nil => rfl
  | cons g groups ih =>
    rw [List.forall_mem_cons] at hgroups hstray
    obtain ⟨cs, hcs⟩ := exists_textOf_eq hgroups.1.ne_nil
    have hclean := not_cutsOff hgroups.1.complete hstray.1
    have htree : treeOf config g = _ := treeOf_eq g
    have hshape : (treeOf config g).WellFormed := (Reader.madeOf_parse _).wellFormed
    rw [hcs] at hclean htree
    rw [List.flatten_cons, textOf_append, hcs, Lexeme.chain_read_lines config last hclean offset,
      ← htree, Tree.forms_before hshape, ih hgroups.2 hstray.2, List.flatMap_cons]

/-- **A session against one reading of all lines.** Any session takes its lines group by group. If
the reading of no group ends early and none ends the session, then the tree of every group is
shown, the forms of these trees are those of all lines of the groups read at once, lines behind the
last group add nothing to it, and there is one prompt more than there are lines. -/
theorem run_groups (config : SessionConfig) (input : List String) :
    ∃ groups last unread, Course config input groups last unread ∧
      ((∀ g ∈ groups, ¬StopsEarly config.reader g ∧ quits config.reader g = false) →
        input = groups.flatten ++ last ∧
        Action.texts (run config input) =
          groups.map (fun g => answer config (treeOf config.reader g)) ∧
        groups.flatMap (fun g => (treeOf config.reader g).forms) =
          (Reader.ofText (textOf groups.flatten) config.reader).parse.1.forms ∧
        (Action.prompts (run config input)).length = input.length + 1) := by
  obtain ⟨groups, last, unread, hcourse⟩ := exists_course config input
  refine ⟨groups, last, unread, hcourse, ?_⟩
  intro h
  have hany : groups.any (quits config.reader) = false := by
    rw [List.any_eq_false]
    exact fun g hg => by simp [(h g hg).2]
  have hfilter : (groups.filter fun g => !quits config.reader g) = groups :=
    List.filter_eq_self.2 fun g hg => by simp [(h g hg).2]
  have hinput : input = groups.flatten ++ last := by
    have hleft := hcourse.left
    rw [hany, if_neg Bool.false_ne_true] at hleft
    have hinput := hcourse.input_eq
    rwa [hleft, List.append_nil] at hinput
  refine ⟨hinput, ?_, ?_, ?_⟩
  · rw [hcourse.texts, hfilter]
  · have hforms := forms_read_groups hcourse.isGroup (fun g hg => (h g hg).1)
      (textOf groups.flatten).length 0
    rw [← treeOf_eq] at hforms
    exact hforms.symm
  · rw [hcourse.prompts, hany, if_neg Bool.false_ne_true, hinput, List.length_append]

end Session

end Sexpr
