import Sexpr.Proofs.Reader.Settings
import Sexpr.Proofs.Session.Groups

/-!
# Sessions under other settings

The settings of the reader decide what a session shows and not how it goes (`Session.run_settings`).
Lines are complete or not whatever the settings are, and a limit neither hides the form `(quit)` nor
makes one, for it never replaces the outermost lists. So two sessions on the same input take the
same groups and end at the same line. Whether truncations show in the tree cannot be told at all: a
truncated tree is never shown.

* `Grouping` is how a session cuts its input, and `Grouping.unique` that there is one way only.
* `complete_settings` and `quits_settings` compare two settings on some lines.
* `run_strict` has the same actions for two sessions that differ only in what truncations do.
-/

namespace Sexpr

namespace Session

/-! ## One way to cut the input -/

/-- How a session cuts its input: groups, of which only the last one can end the session, the lines
behind them that make up no group, and the lines that are left. -/
structure Grouping (config : ReaderConfig) (input : List String) (groups : List (List String))
    (last unread : List String) : Prop where
  input_eq : input = groups.flatten ++ last ++ unread
  isGroup : ∀ g ∈ groups, IsGroup config g
  unfinished : Unfinished config last
  only_last : ∀ g ∈ groups.dropLast, quits config g = false
  left : if groups.any (quits config) then last = [] else unread = []

theorem Course.grouping {config : SessionConfig} {input : List String}
    {groups : List (List String)} {last unread : List String}
    (h : Course config input groups last unread) :
    Grouping config.reader input groups last unread :=
  ⟨h.input_eq, h.isGroup, h.unfinished, h.only_last, h.left⟩

section Unique

variable {config : ReaderConfig} {input g g' last last' unread unread' : List String}
  {groups groups' : List (List String)}

/-- Two groups at the front of the same lines are one. -/
theorem IsGroup.eq_of_front (h : IsGroup config g) (h' : IsGroup config g') (hg : g <+: input)
    (hg' : g' <+: input) : g' = g := by
  rcases List.prefix_or_prefix_of_prefix hg hg' with hle | hle
  · exact (h'.shortest g hle h.ne_nil h.complete).symm
  · exact h.shortest g' hle h'.ne_nil h'.complete

/-- Unfinished lines do not start with a group. -/
theorem Unfinished.not_isGroup (h : Unfinished config input) (hg : g <+: input) :
    ¬IsGroup config g :=
  fun hgroup => h g hg hgroup.ne_nil hgroup.complete

theorem Grouping.prefix_input (h : Grouping config input (g :: groups) last unread) :
    g <+: input := by
  rw [h.input_eq, List.flatten_cons, List.append_assoc, List.append_assoc]
  exact List.prefix_append _ _

/-- Without a group all lines are unfinished. -/
theorem Grouping.of_nil (h : Grouping config input [] last unread) :
    input = last ∧ unread = [] := by
  have hunread : unread = [] := h.left
  exact ⟨by rw [h.input_eq, hunread]; simp, hunread⟩

/-- Nothing but the lines that are left comes behind a group that ends the session. -/
theorem Grouping.of_quits (h : Grouping config input (g :: groups) last unread)
    (hquit : quits config g = true) : groups = [] ∧ last = [] ∧ input = g ++ unread := by
  have hgroups : groups = [] := by
    cases groups with
    | nil => rfl
    | cons g' groups =>
      have hquit' := h.only_last g (by simp)
      exact absurd (hquit.symm.trans hquit') Bool.noConfusion
  subst hgroups
  have hleft := h.left
  rw [List.any_cons, hquit, Bool.true_or, if_pos rfl] at hleft
  exact ⟨rfl, hleft, by rw [h.input_eq, hleft]; simp⟩

/-- Behind a group that does not end the session the rest is cut in the same way. -/
theorem Grouping.tail (h : Grouping config input (g :: groups) last unread)
    (hquit : quits config g = false) :
    Grouping config (groups.flatten ++ last ++ unread) groups last unread := by
  refine ⟨rfl, fun g' hg' => h.isGroup g' (List.mem_cons_of_mem g hg'), h.unfinished, ?_, ?_⟩
  · intro g' hg'
    refine h.only_last g' ?_
    cases groups with
    | nil => exact absurd hg' List.not_mem_nil
    | cons g'' groups => exact List.mem_cons_of_mem g hg'
  · have hleft := h.left
    rwa [List.any_cons, hquit, Bool.false_or] at hleft

/-- **There is one way** to cut an input. -/
theorem Grouping.unique (h : Grouping config input groups last unread)
    (h' : Grouping config input groups' last' unread') :
    groups' = groups ∧ last' = last ∧ unread' = unread := by
  induction groups generalizing input groups' with
  | nil =>
    obtain ⟨hinput, hunread⟩ := h.of_nil
    cases groups' with
    | nil =>
      obtain ⟨hinput', hunread'⟩ := h'.of_nil
      exact ⟨rfl, hinput'.symm.trans hinput, hunread'.trans hunread.symm⟩
    | cons g' groups' =>
      have hunfinished : Unfinished config input := hinput ▸ h.unfinished
      exact absurd (h'.isGroup g' List.mem_cons_self) (hunfinished.not_isGroup h'.prefix_input)
  | cons g groups ih =>
    cases groups' with
    | nil =>
      have hunfinished : Unfinished config input := h'.of_nil.1 ▸ h'.unfinished
      exact absurd (h.isGroup g List.mem_cons_self) (hunfinished.not_isGroup h.prefix_input)
    | cons g' groups' =>
      obtain rfl : g' = g := (h.isGroup g List.mem_cons_self).eq_of_front
        (h'.isGroup g' List.mem_cons_self) h.prefix_input h'.prefix_input
      by_cases hquit : quits config g' = true
      · obtain ⟨rfl, rfl, hinput⟩ := h.of_quits hquit
        obtain ⟨rfl, rfl, hinput'⟩ := h'.of_quits hquit
        exact ⟨rfl, rfl, List.append_cancel_left (hinput'.symm.trans hinput)⟩
      · rw [Bool.not_eq_true] at hquit
        have hrest : groups'.flatten ++ last' ++ unread' = groups.flatten ++ last ++ unread := by
          have hinput := h'.input_eq.symm.trans h.input_eq
          simp only [List.flatten_cons, List.append_assoc, List.append_cancel_left_eq] at hinput
          simpa using hinput
        obtain ⟨rfl, rfl, rfl⟩ := ih (h.tail hquit) (hrest ▸ h'.tail hquit)
        exact ⟨rfl, rfl, rfl⟩

end Unique

/-! ## Some lines under two settings -/

section Lines

variable (config config' : ReaderConfig) {lines : List String}

theorem truncated_settings (lines : List String) :
    (parseLines config' lines).2.truncated = (parseLines config lines).2.truncated :=
  Reader.truncated_ofText_settings (textOf lines) config config'

/-- **Lines are complete** under all settings or under none. -/
theorem complete_settings (lines : List String) :
    Complete config' lines ↔ Complete config lines := by
  rw [Complete, Complete, truncated_settings config config']

theorem unfinished_settings (lines : List String) :
    Unfinished config' lines ↔ Unfinished config lines := by
  simp only [Unfinished, complete_settings config config']

theorem isGroup_settings (lines : List String) : IsGroup config' lines ↔ IsGroup config lines := by
  constructor
  · rintro ⟨hne, hcomplete, hshortest⟩
    refine ⟨hne, (complete_settings config config' lines).1 hcomplete, ?_⟩
    exact fun p hp hp' h => hshortest p hp hp' ((complete_settings config config' p).2 h)
  · rintro ⟨hne, hcomplete, hshortest⟩
    refine ⟨hne, (complete_settings config config' lines).2 hcomplete, ?_⟩
    exact fun p hp hp' h => hshortest p hp hp' ((complete_settings config config' p).1 h)

/-- Pruning the inside of a list neither makes it the form `(quit)` nor keeps it from being it. -/
theorem isQuit_prune (limit : Limit) (depth : Nat) (child : Tree) :
    isQuit ⟨.branch, child.prune (Lexeme.tooDeep limit) depth⟩ = isQuit ⟨.branch, child⟩ := by
  cases child with
  | absent => rfl
  | node a inner next =>
    by_cases hbranch : a = .branch
    · subst hbranch
      cases depth <;> rfl
    · rw [Tree.prune_node _ depth hbranch]
      have hends : (next.prune (Lexeme.tooDeep limit) depth).endsHere = next.endsHere :=
        Tree.endsHere_prune Atom.noConfusion depth next
      cases a with
      | symbol s => simp only [isQuit, hends]
      | _ => rfl

/-- **A limit leaves the form `(quit)` alone.** -/
theorem quits_limited (limit : Limit) (strict : Bool) (lines : List String) :
    quits ⟨some limit, strict⟩ lines = quits ⟨none, strict⟩ lines := by
  obtain ⟨depth, hdepth⟩ : ∃ depth, limit.depth = depth + 1 :=
    Nat.exists_eq_succ_of_ne_zero limit.depth_ne_zero
  rw [quits, treeOf, parseLines, Reader.fst_parse_limited, hdepth]
  exact Tree.anyForm_prune _ depth (isQuit_prune limit depth) _

/-- **Complete lines end a session** under all settings or under none. -/
theorem quits_settings (h : Complete config lines) : quits config' lines = quits config lines := by
  have hfree : ∀ c : ReaderConfig, quits c lines = quits ⟨none, c.reportUnterminated⟩ lines := by
    rintro ⟨limit, strict⟩
    cases limit with
    | none => rfl
    | some limit => exact quits_limited limit strict lines
  have hcomplete : Complete ⟨none, config.reportUnterminated⟩ lines :=
    (complete_settings config _ lines).2 h
  rw [hfree config', hfree config, quits, quits, treeOf, treeOf, parseLines, parseLines,
    Reader.fst_parse_strict hcomplete]

variable {config} in
/-- A grouping is one under all settings. -/
theorem Grouping.settings {input : List String} {groups : List (List String)}
    {last unread : List String} (h : Grouping config input groups last unread) :
    Grouping config' input groups last unread := by
  have hquits : ∀ g ∈ groups, quits config' g = quits config g :=
    fun g hg => quits_settings config config' (h.isGroup g hg).complete
  have hany : groups.any (quits config') = groups.any (quits config) := by
    rw [Bool.eq_iff_iff, List.any_eq_true, List.any_eq_true]
    exact exists_congr fun g => and_congr_right fun hg => by rw [hquits g hg]
  refine ⟨h.input_eq, ?_, ?_, ?_, ?_⟩
  · exact fun g hg => (isGroup_settings config config' g).2 (h.isGroup g hg)
  · exact (unfinished_settings config config' last).2 h.unfinished
  · exact fun g hg => (hquits g (List.mem_of_mem_dropLast hg)).trans (h.only_last g hg)
  · rw [hany]
    exact h.left

end Lines

/-! ## Truncations in the tree -/

/-- Whether truncations show in the tree does not matter to what some lines amount to. -/
theorem consider_strict (limit : Option Limit) (strict strict' : Bool) (lines : List String) :
    consider ⟨limit, strict'⟩ lines = consider ⟨limit, strict⟩ lines := by
  have hlog : (Reader.ofText (textOf lines) ⟨limit, strict'⟩).parseLog =
      (Reader.ofText (textOf lines) ⟨limit, strict⟩).parseLog := by
    rw [Reader.parseLog_ofText, Reader.parseLog_ofText, Reader.diagnostics_strict]
  have htruncated := truncated_settings ⟨limit, strict⟩ ⟨limit, strict'⟩ lines
  rw [parseLines, parseLines] at htruncated
  by_cases hcut : (Reader.ofText (textOf lines) ⟨limit, strict⟩).parse.2.truncated = true
  · simp only [consider, Reader.parseLogged_eq, hlog, htruncated, hcut, ↓reduceIte]
  · rw [Bool.not_eq_true] at hcut
    have htree := Reader.fst_parse_strict hcut strict'
    cases hquit : (Reader.ofText (textOf lines) ⟨limit, strict⟩).parse.1.anyForm isQuit <;>
      simp only [consider, Reader.parseLogged_eq, hlog, htruncated, hcut, htree, hquit,
        Bool.false_eq_true, ↓reduceIte]

/-- The settings with another decision on what truncations do. -/
def withStrict (config : SessionConfig) (strict : Bool) : SessionConfig :=
  { config with reader := { config.reader with reportUnterminated := strict } }

theorem readForm_strict (config : SessionConfig) (strict : Bool) (collected input : List String) :
    readForm (withStrict config strict) collected input = readForm config collected input := by
  induction input generalizing collected with
  | nil => rfl
  | cons line rest ih =>
    have hconsider : consider (withStrict config strict).reader (collected ++ [line]) =
        consider config.reader (collected ++ [line]) :=
      consider_strict config.reader.maxDepth config.reader.reportUnterminated strict _
    rw [readForm, readForm, hconsider]
    simp only [ih]
    rfl

/-- **A session does not tell** whether truncations would show in the tree: all that it writes,
prompts for and logs is the same. -/
theorem run_strict (config : SessionConfig) (strict : Bool) (input : List String) :
    run (withStrict config strict) input = run config input := by
  induction hn : input.length using Nat.strongRecOn generalizing input with
  | ind n ih =>
    have hturn := readForm_strict config strict [] input
    cases hresult : (readForm config [] input).result with
    | none =>
      rw [run_none config hresult, run_none (withStrict config strict) (hturn ▸ hresult), hturn]
    | some tree =>
      have hlt := length_rest_readForm_lt config [] input (by rw [hresult]; rfl)
      rw [run_some config hresult, run_some (withStrict config strict) (hturn ▸ hresult), hturn,
        ih _ (hn ▸ hlt) _ rfl]
      rfl

/-! ## Two sessions -/

/-- **Two sessions on the same input.** Whatever their settings are, they take the same groups, the
same groups of these end the session, and the same lines are left: both stop at the same line, at
`(quit)` or at the end of the input alike. They show as many prompts and as many trees. If they
differ only in whether truncations show in the tree, then they do all the same. All this rests on
what the settings leave alone in any text: where its reading ends, whether it is truncated, and the
reports of anything but depth. -/
theorem run_settings (config config' : SessionConfig) (input : List String) :
    (∃ groups last unread,
      Course config input groups last unread ∧ Course config' input groups last unread ∧
        (∀ g ∈ groups, quits config'.reader g = quits config.reader g) ∧
        ∀ groups' last' unread', Course config' input groups' last' unread' →
          groups' = groups ∧ last' = last ∧ unread' = unread) ∧
      (Action.prompts (run config' input)).length = (Action.prompts (run config input)).length ∧
      (Action.texts (run config' input)).length = (Action.texts (run config input)).length ∧
      (∀ strict, run (withStrict config strict) input = run config input) ∧
      ∀ (text : List Char) (position : Nat),
        let one := ((Reader.ofText text config.reader).seek position).parse.2
        let other := ((Reader.ofText text config'.reader).seek position).parse.2
        other.position = one.position ∧ other.truncated = one.truncated ∧
          other.diagnostics.filter (·.cause.anomaly ≠ .nestingTooDeep) =
            one.diagnostics.filter (·.cause.anomaly ≠ .nestingTooDeep) := by
  obtain ⟨groups, last, unread, hcourse⟩ := exists_course config input
  obtain ⟨groups', last', unread', hcourse'⟩ := exists_course config' input
  have hgrouping : Grouping config'.reader input groups last unread := hcourse.grouping.settings _
  obtain ⟨rfl, rfl, rfl⟩ := hgrouping.unique hcourse'.grouping
  have hquits : ∀ g ∈ groups', quits config'.reader g = quits config.reader g :=
    fun g hg => quits_settings _ _ (hcourse.isGroup g hg).complete
  refine ⟨⟨groups', last', unread', hcourse, hcourse', hquits, ?_⟩, ?_, ?_, ?_, ?_⟩
  · exact fun _ _ _ h => hgrouping.unique h.grouping
  · have hany : groups'.any (quits config'.reader) = groups'.any (quits config.reader) := by
      rw [Bool.eq_iff_iff, List.any_eq_true, List.any_eq_true]
      exact exists_congr fun g => and_congr_right fun hg => by rw [hquits g hg]
    rw [hcourse.prompts, hcourse'.prompts, hany]
  · have hfilter : (groups'.filter fun g => !quits config'.reader g) =
        groups'.filter fun g => !quits config.reader g :=
      List.filter_congr fun g hg => by rw [hquits g hg]
    rw [hcourse.texts, hcourse'.texts, List.length_map, List.length_map, hfilter]
  · exact fun strict => run_strict config strict input
  · exact fun text position => Reader.parse_settings text position config.reader config'.reader

end Session

end Sexpr
