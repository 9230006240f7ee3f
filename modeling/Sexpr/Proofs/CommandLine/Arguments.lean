import Mathlib.Data.List.Basic
import Sexpr.CommandLine.Options

/-!
# What the arguments amount to

The names of files come out of the arguments in their order (`Options.files_sublist_of_ofArgs`), and
the limit is an integer, if there is one. It is something else only where nothing but the separator
is attached to its option by an equals sign (`Options.exists_attaches_of_ofArgs`).

* `Arg.attached_of_takesValue`: what is attached to an option that takes a value stands behind an
  equals sign, and a spelling of the option is opened in front of it.
* `Options.Adds` is what some arguments add to the files and to the limit: `Options.adds_consume`
  goes along all of them, one by one.
-/

namespace Sexpr

/-! ## Steps that can fail -/

section Steps

variable {ε ε' α β : Type}

/-- Two steps in a row succeed if the first one does and the second one does on its result. -/
theorem bind_eq_ok {x : Except ε α} {f : α → Except ε β} {b : β} :
    x >>= f = .ok b ↔ ∃ a, x = .ok a ∧ f a = .ok b := by
  cases x <;> simp [bind, Except.bind]

/-- A step with its error in other words succeeds if the step does. -/
theorem mapError_eq_ok {x : Except ε α} {f : ε → ε'} {a : α} :
    x.mapError f = .ok a ↔ x = .ok a := by
  cases x <;> simp [Except.mapError]

end Steps

/-! ## One argument -/

theorem Flag.mem_spellings {spelling : String} {flag : Flag}
    (h : ofSpelling? spelling = some flag) : (spelling, flag) ∈ spellings := by
  obtain ⟨front, back, heq, -⟩ := List.lookup_eq_some_iff.1 h
  rw [heq]
  exact List.mem_append_right front List.mem_cons_self

namespace Arg

/-- What the equals sign parts. -/
theorem eq_of_splitEquals {cs start value : List Char}
    (h : splitEquals cs = (start, some value)) : cs = start ++ '=' :: value := by
  unfold splitEquals at h
  split at h
  · cases h
  · rename_i c rest hdrop
    obtain ⟨rfl, rfl⟩ : cs.takeWhile (· ≠ '=') = start ∧ rest = value := by simpa using h
    have hne : cs.dropWhile (· ≠ '=') ≠ [] := by rw [hdrop]; exact List.cons_ne_nil c rest
    have hhead := List.head_dropWhile_not (· ≠ '=') hne
    obtain rfl : c = '=' := by
      simpa only [hdrop, List.head_cons, decide_eq_false_iff_not, not_not] using hhead
    rw [← hdrop, List.takeWhile_append_dropWhile]

/-- A value is attached to the option in an argument: the option is opened, and the value stands
behind an equals sign. -/
def Attaches (arg : List Char) (flag : Flag) (value : List Char) : Prop :=
  ∃ spelling start, (spelling, flag) ∈ Flag.spellings ∧ start <+: spelling.toList ∧
    arg = start ++ '=' :: value

variable {cs value : List Char} {flag : Flag} {short : Bool}

theorem attaches_of_inFull (h : inFull? cs = some (.option flag short (some value))) :
    Attaches cs flag value := by
  unfold inFull? at h
  split at h
  · cases h
  · split at h
    rename_i start attached hsplit
    split at h
    · rename_i flag' hspelling
      cases h
      exact ⟨_, start, Flag.mem_spellings hspelling, by simp, eq_of_splitEquals hsplit⟩
    · cases h

/-- The options with one dash take no values. -/
theorem two_lt_length_of_takesValue :
    ∀ p ∈ Flag.spellings, p.2.takesValue = true → 2 < p.1.length := by decide

theorem attaches_of_candidates {spelling : String}
    (h : (spelling, .option flag short (some value)) ∈ candidates cs)
    (hflag : flag.takesValue = true) : Attaches cs flag value := by
  unfold candidates at h
  split at h
  · unfold longCandidates at h
    split at h
    rename_i rest start attached hsplit
    obtain ⟨⟨spelling', flag'⟩, hmem, heq⟩ := List.mem_map.1 h
    obtain ⟨hmem, hopens⟩ := List.mem_filter.1 hmem
    cases heq
    exact ⟨_, start, hmem, List.isPrefixOf_iff_prefix.1 hopens, eq_of_splitEquals hsplit⟩
  · obtain ⟨⟨spelling', flag'⟩, hmem, heq⟩ := List.mem_map.1 h
    obtain ⟨hmem, hshort⟩ := List.mem_filter.1 hmem
    cases heq
    have hlong : 2 < spelling.length := two_lt_length_of_takesValue _ hmem hflag
    have hshort : spelling = String.ofList ['-', _] := of_decide_eq_true hshort
    rw [hshort, String.length_ofList] at hlong
    exact absurd hlong (by simp)
  · cases h

/-- **A value in the argument of its option** stands behind an equals sign. -/
theorem attached_of_takesValue {arg : String}
    (h : ofText arg = .ok (.option flag short (some value))) (hflag : flag.takesValue = true) :
    Attaches arg.toList flag value := by
  unfold ofText at h
  split at h
  · simp only [ofDashed] at h
    split at h
    · rename_i hfull
      cases h
      exact attaches_of_inFull hfull
    · split at h
      · rename_i hcandidates
        cases h
        exact attaches_of_candidates (hcandidates ▸ List.mem_singleton_self _) hflag
      · split at h <;> cases h
      · cases h
  · cases h

theorem map_fst_of_classify {args : List String} {classified : List (String × Arg)}
    (h : classify args = .ok classified) : classified.map (·.1) = args := by
  induction args using classify.induct generalizing classified with
  | case1 =>
    cases h
    rfl
  | case2 args =>
    cases h
    simp [Function.comp_def]
  | case3 arg args hne ih =>
    rw [classify] at h
    · obtain ⟨found, -, h⟩ := bind_eq_ok.1 h
      obtain ⟨more, hmore, h⟩ := bind_eq_ok.1 h
      cases h
      rw [List.map_cons, ih hmore]
    · exact hne

theorem ofText_of_classify {args : List String} {classified : List (String × Arg)} {arg : String}
    {flag : Flag} {short : Bool} {attached : Option (List Char)}
    (h : classify args = .ok classified) (hmem : (arg, .option flag short attached) ∈ classified) :
    ofText arg = .ok (.option flag short attached) := by
  induction args using classify.induct generalizing classified with
  | case1 =>
    cases h
    cases hmem
  | case2 args =>
    cases h
    simp at hmem
  | case3 arg' args hne ih =>
    rw [classify] at h
    · obtain ⟨found, hfound, h⟩ := bind_eq_ok.1 h
      obtain ⟨more, hmore, h⟩ := bind_eq_ok.1 h
      cases h
      rcases List.mem_cons.1 hmem with heq | hmem
      · cases heq
        exact hfound
      · exact ih hmore hmem
    · exact hne

end Arg

/-! ## All arguments -/

namespace Options

/-- The options before and behind a step: the files are the same, and a limit that is no integer is
new only if `cause` holds. -/
structure Keeps (options options' : Options) (cause : Prop) : Prop where
  files : options'.files = options.files
  limit : options'.maxDepth = .other → options.maxDepth = .other ∨ cause

variable {options options' : Options} {flag : Flag} {parsed parsed' : Parsed}

theorem Keeps.trans {options'' : Options} {cause : Prop} (h : Keeps options options' False)
    (h' : Keeps options' options'' cause) : Keeps options options'' cause where
  files := h'.files.trans h.files
  limit hother := (h'.limit hother).imp_left fun h'' => (h.limit h'').resolve_right id

theorem Keeps.mono {cause cause' : Prop} (h : Keeps options options' cause)
    (himp : cause → cause') : Keeps options options' cause' :=
  ⟨h.files, fun hother => (h.limit hother).imp_right himp⟩

theorem keeps_set (h : set options flag = .ok options') : Keeps options options' False := by
  cases flag <;> cases h <;> exact ⟨rfl, .inl⟩

theorem keeps_foldlM_set {flags : List Flag} (h : flags.foldlM set options = .ok options') :
    Keeps options options' False := by
  induction flags generalizing options with
  | nil =>
    cases h
    exact ⟨rfl, .inl⟩
  | cons flag flags ih =>
    rw [List.foldlM_cons] at h
    obtain ⟨between, hset, hrest⟩ := bind_eq_ok.1 h
    exact (keeps_set hset).trans (ih hrest)

theorem keeps_setValue {value : String} (h : options.setValue flag value = .ok options') :
    Keeps options options' False := by
  unfold setValue at h
  split at h
  · split at h <;> cases h
    exact ⟨rfl, .inl⟩
  · split at h <;> cases h
    exact ⟨rfl, nofun⟩
  · cases h
    exact ⟨rfl, .inl⟩

theorem keeps_setAttached {value : List Char} (h : options.setAttached flag value = .ok options') :
    Keeps options options' (flag = .maxDepth ∧ value = ['-', '-']) := by
  unfold setAttached at h
  split at h
  · rename_i hvalue
    cases h
    cases flag
    case maxDepth => exact ⟨rfl, fun _ => .inr ⟨rfl, hvalue⟩⟩
    all_goals exact ⟨rfl, .inl⟩
  · exact (keeps_setValue h).mono False.elim

/-- An option makes the limit no integer only if it is the one for the limit, with the separator
attached to it. -/
theorem keeps_takeOption {short : Bool} {attached : Option (List Char)}
    {rest : List (String × Arg)} {used : Nat}
    (h : takeOption parsed flag short attached rest = .ok (parsed', used)) :
    Keeps parsed.options parsed'.options (flag = .maxDepth ∧ attached = some ['-', '-']) := by
  unfold takeOption at h
  split at h
  · obtain ⟨options, hset, h⟩ := bind_eq_ok.1 h
    cases h
    refine (keeps_setAttached hset).mono ?_
    rintro ⟨rfl, rfl⟩
    exact ⟨rfl, rfl⟩
  · split at h
    · obtain ⟨options, hset, h⟩ := bind_eq_ok.1 h
      cases h
      exact (keeps_setValue hset).mono False.elim
    · cases h
  · obtain ⟨options, hset, h⟩ := bind_eq_ok.1 h
    cases h
    exact (keeps_set hset).mono False.elim
  · split at h
    · cases h
    · obtain ⟨flags, -, h⟩ := bind_eq_ok.1 h
      obtain ⟨options, hset, h⟩ := bind_eq_ok.1 h
      cases h
      exact (keeps_foldlM_set hset).mono False.elim

/-- The plain arguments in front of an option, taken as files if there were none. -/
def takePlain (parsed : Parsed) (run : List String) : Parsed :=
  if run = [] then parsed else takeRun parsed run.reverse

theorem maxDepth_takePlain (parsed : Parsed) (run : List String) :
    (takePlain parsed run).options.maxDepth = parsed.options.maxDepth := by
  unfold takePlain takeRun
  split_ifs <;> rfl

theorem files_takePlain (parsed : Parsed) (run : List String) :
    (takePlain parsed run).options.files.Sublist (parsed.options.files ++ run.reverse) := by
  unfold takePlain takeRun
  split_ifs
  · exact List.sublist_append_left _ _
  · exact List.sublist_append_left _ _
  · exact List.erase_sublist.trans (List.sublist_append_right _ _)

/-- What some arguments add to what was there before, with the plain arguments in `run` and `run'`
that are not taken yet: no files but themselves, in their order, and a limit that is no integer only
if one of them attaches the separator to its option. -/
structure Adds (before : Parsed) (run : List String) (after : Parsed) (run' : List String)
    (args : List (String × Arg)) : Prop where
  files : (after.options.files ++ run'.reverse).Sublist
    (before.options.files ++ run.reverse ++ args.map (·.1))
  limit : after.options.maxDepth = .other → before.options.maxDepth = .other ∨
    ∃ arg short, (arg, .option .maxDepth short (some ['-', '-'])) ∈ args

section Adds

variable {before between after : Parsed} {run run' run'' : List String}
  {args args' : List (String × Arg)}

theorem Adds.trans (h : Adds before run between run' args)
    (h' : Adds between run' after run'' args') : Adds before run after run'' (args ++ args') where
  files := by
    rw [List.map_append, ← List.append_assoc]
    exact h'.files.trans (h.files.append (List.Sublist.refl _))
  limit hother := by
    rcases h'.limit hother with hbetween | ⟨arg, short, hmem⟩
    · refine (h.limit hbetween).imp_right ?_
      rintro ⟨arg, short, hmem⟩
      exact ⟨arg, short, List.mem_append_left _ hmem⟩
    · exact .inr ⟨arg, short, List.mem_append_right _ hmem⟩

/-- An argument that is used up already adds nothing. -/
theorem adds_used (parsed : Parsed) (run : List String) (args : List (String × Arg)) :
    Adds parsed run parsed run args :=
  ⟨List.sublist_append_left _ _, .inl⟩

theorem adds_plain (parsed : Parsed) (run : List String) (text : String) (arg : Arg) :
    Adds parsed run parsed (text :: run) [(text, arg)] :=
  ⟨by simp, .inl⟩

/-- An option comes behind the plain arguments in front of it. -/
theorem adds_behind_plain {cause : Prop}
    (h : Keeps (takePlain before run).options after.options cause)
    (hcause : cause → ∃ arg short, (arg, .option .maxDepth short (some ['-', '-'])) ∈ args) :
    Adds before run after [] args where
  files := by
    rw [List.reverse_nil, List.append_nil, h.files]
    exact (files_takePlain before run).trans (List.sublist_append_left _ _)
  limit hother := (h.limit hother).imp (fun h => maxDepth_takePlain before run ▸ h) hcause

/-- **What the arguments add up to.** -/
theorem adds_consume {skip : Nat} (h : consume before run skip args = .ok after) :
    Adds before run after [] args := by
  induction args generalizing before run skip with
  | nil =>
    cases h
    exact adds_behind_plain ⟨rfl, .inl⟩ False.elim
  | cons entry rest ih =>
    obtain ⟨text, arg⟩ := entry
    rw [← List.singleton_append]
    cases skip with
    | succ skip => exact (adds_used before run _).trans (ih h)
    | zero =>
      cases arg with
      | plain => exact (adds_plain before run text _).trans (ih h)
      | separator => exact (adds_plain before run text _).trans (ih h)
      | unknown =>
        -- it is left over, but the plain arguments in front of it are taken
        have hadds : Adds before run { takePlain before run with
            extras := text :: (takePlain before run).extras } [] [(text, .unknown)] :=
          adds_behind_plain ⟨rfl, .inl⟩ False.elim
        exact hadds.trans (ih h)
      | option flag short attached =>
        simp only [consume, Arg.isOption, ↓reduceIte] at h
        split at h
        · cases h
        · rename_i between used htake
          have hkeeps : Keeps (takePlain before run).options between.options _ :=
            keeps_takeOption htake
          refine (adds_behind_plain hkeeps ?_).trans (ih h)
          rintro ⟨rfl, rfl⟩
          exact ⟨text, short, List.mem_singleton_self _⟩

end Adds

variable {args : List String}

/-- What the arguments amount to comes from going along all of them. -/
theorem exists_consume_of_ofArgs (h : ofArgs args = .ok options) :
    ∃ classified parsed, Arg.classify args = .ok classified ∧
      consume {} [] 0 classified = .ok parsed ∧ parsed.options = options := by
  obtain ⟨classified, hclassified, h⟩ := bind_eq_ok.1 h
  obtain ⟨parsed, hparsed, h⟩ := bind_eq_ok.1 h
  refine ⟨classified, parsed, mapError_eq_ok.1 hclassified, hparsed, ?_⟩
  split at h
  · exact Except.ok.inj h
  · cases h

/-- **The files are arguments**, in their order. -/
theorem files_sublist_of_ofArgs (h : ofArgs args = .ok options) : options.files.Sublist args := by
  obtain ⟨classified, parsed, hclassified, hparsed, rfl⟩ := exists_consume_of_ofArgs h
  have hfiles := (adds_consume hparsed).files
  rwa [Arg.map_fst_of_classify hclassified, List.reverse_nil, List.append_nil] at hfiles

/-- **A limit that is no integer** comes from an argument that attaches the separator to the
option. -/
theorem exists_attaches_of_ofArgs (h : ofArgs args = .ok options)
    (hother : options.maxDepth = .other) :
    ∃ arg ∈ args, Arg.Attaches arg.toList .maxDepth ['-', '-'] := by
  obtain ⟨classified, parsed, hclassified, hparsed, rfl⟩ := exists_consume_of_ofArgs h
  rcases (adds_consume hparsed).limit hother with hnull | ⟨arg, short, hmem⟩
  · cases hnull
  · refine ⟨arg, ?_, ?_⟩
    · rw [← Arg.map_fst_of_classify hclassified]
      exact List.mem_map.2 ⟨_, hmem, rfl⟩
    · exact Arg.attached_of_takesValue (Arg.ofText_of_classify hclassified hmem) rfl

end Options

end Sexpr
