import Sexpr.CommandLine
import Sexpr.Proofs.CommandLine.Arguments
import Sexpr.Proofs.Numeral.Whole

/-!
# What becomes of a run

A run with options or an environment out of order does nothing at all: whatever the files hold and
whatever is typed, it ends in the same way. Any other run shows one file after the other, each of
them in a block of its own, and goes on to the session. A file that cannot be opened makes its block
shorter, and a file that is not UTF-8 breaks the run off; neither changes what stands in front of it
or in the other blocks (`CommandLine.run_outcome`).

* `Environment.InOrder` and `Options.InOrder` say what a limit has to be, and `configure_cases` what
  the settings are made of. The numeral of an integer is a limit in the one exactly if it is in the
  other (`Environment.inOrder_iff_of_intText`, `Options.inOrder_setValue_intText`).
* `CommandLine.Block` is the block of a file, by what was found under its name.
* `CommandLine.shown` is the row of the blocks of some files, and `blocks_append` puts it in front.
-/

namespace Sexpr

/-! ## Settings in order -/

/-- The variable for the limit is not set, or empty, or read as a positive integer. -/
def Environment.InOrder (environment : Environment) : Prop :=
  ∀ text, environment.maxDepth = some text → text ≠ "" →
    ∃ n, Numeral.readInteger text.toList = .ok n ∧ 0 < n

/-- The options ask for no limit, or for a positive one. -/
def Options.InOrder (options : Options) : Prop :=
  options.maxDepth = .null ∨ ∃ c, options.maxDepth = .count c ∧ 0 < c.value

/-- **The numeral of an integer in the variable** is in order if it is short enough to be read in
one piece and the integer is positive. -/
theorem Environment.inOrder_iff_of_intText {environment : Environment} {n : Int}
    (h : environment.maxDepth = some (Numeral.intText n)) :
    environment.InOrder ↔ Numeral.isShort n = true ∧ 0 < n := by
  constructor
  · intro hinOrder
    obtain ⟨m, hm, hpos⟩ := hinOrder _ h (Numeral.intText_ne_empty n)
    obtain ⟨hshort, rfl⟩ := Numeral.readInteger_intText_eq_ok.1 hm
    exact ⟨hshort, hpos⟩
  · rintro ⟨hshort, hpos⟩ text htext -
    cases h.symm.trans htext
    exact ⟨n, Numeral.readInteger_intText_eq_ok.2 ⟨hshort, rfl⟩, hpos⟩

/-- **The numeral of an integer behind the option** is in order exactly if it is so in the
variable. -/
theorem Options.inOrder_setValue_intText (options : Options) (n : Int) :
    (∃ options', options.setValue .maxDepth (Numeral.intText n) = .ok options' ∧
      options'.InOrder) ↔ Numeral.isShort n = true ∧ 0 < n := by
  have hread := Numeral.readInteger_intText n
  by_cases hshort : Numeral.isShort n = true
  · rw [if_pos hshort] at hread
    simp [setValue, hread, InOrder, Count.value, hshort]
  · rw [if_neg hshort] at hread
    simp [setValue, hread, hshort]

theorem Limit.ofCount_of_pos {c : Count} (h : 0 < c.value) : Limit.ofCount c = .ok ⟨c, h⟩ :=
  dif_pos h

theorem Limit.ofCount_of_not_pos {c : Count} (h : ¬0 < c.value) :
    Limit.ofCount c = .error (.notPositive c) :=
  dif_neg h

namespace SessionConfig

/-- The variable stands for a limit if it is in order, and there is a report on it otherwise. -/
theorem limitOf_cases (environment : Environment) :
    (environment.InOrder ∧ ∃ limit, limitOf environment.maxDepth = .ok limit) ∨
      ¬environment.InOrder ∧
        ∃ e, limitOf environment.maxDepth = .error e ∧ e ≠ .config .wrongType := by
  obtain ⟨term, maxDepth⟩ := environment
  rcases maxDepth with _ | text
  · exact .inl ⟨fun _ h => (nomatch h), none, rfl⟩
  by_cases hempty : text = ""
  · subst hempty
    refine .inl ⟨?_, none, rfl⟩
    rintro _ ⟨⟩ hne
    exact absurd rfl hne
  cases hread : Numeral.readInteger text.toList with
  | error why =>
    refine .inr ⟨?_, .unreadable text why, by simp [limitOf, hread], nofun⟩
    intro hinOrder
    obtain ⟨n, hn, -⟩ := hinOrder text rfl hempty
    exact absurd (hread.symm.trans hn) nofun
  | ok n =>
    by_cases hpos : 0 < n
    · refine .inl ⟨?_, some ⟨.integer n, hpos⟩, ?_⟩
      · rintro _ ⟨⟩ -
        exact ⟨n, hread, hpos⟩
      · simp only [limitOf, hread, Limit.ofCount_of_pos (c := .integer n) hpos]
        rfl
    · refine .inr ⟨?_, .config (.notPositive (.integer n)), ?_, nofun⟩
      · intro hinOrder
        obtain ⟨m, hm, hpos'⟩ := hinOrder text rfl hempty
        cases hread.symm.trans hm
        exact hpos hpos'
      · simp only [limitOf, hread, Limit.ofCount_of_not_pos (c := .integer n) hpos]
        rfl

/-- The environment has settings if it is in order, and there is a report on it otherwise. -/
theorem ofEnvironment_cases (environment : Environment) :
    (environment.InOrder ∧ ∃ base, ofEnvironment environment = .ok base) ∨
      ¬environment.InOrder ∧
        ∃ e, ofEnvironment environment = .error e ∧ e ≠ .config .wrongType := by
  rcases limitOf_cases environment with ⟨hinOrder, limit, h⟩ | ⟨hnot, e, h, hne⟩
  · exact .inl ⟨hinOrder, _, by rw [ofEnvironment, h]; rfl⟩
  · exact .inr ⟨hnot, e, by rw [ofEnvironment, h]; rfl, hne⟩

end SessionConfig

theorem SourceFile.decode?_eq_none_iff {bytes : ByteArray} :
    decode? bytes = none ↔ ¬bytes.IsValidUTF8 := by
  simp [decode?, String.fromUTF8?]

namespace CommandLine

variable {options : Options} {environment : Environment}

/-- **The settings of a run.** They can be made of options and an environment in order. Otherwise
there is a report, and a report on the type of the limit only if it is no integer. -/
theorem configure_cases (options : Options) (environment : Environment) :
    (environment.InOrder ∧ options.InOrder ∧ ∃ config, configure options environment = .ok config) ∨
      ¬(environment.InOrder ∧ options.InOrder) ∧ ∃ e, configure options environment = .error e ∧
        (e = .config .wrongType → options.maxDepth = .other) := by
  rcases SessionConfig.ofEnvironment_cases environment with ⟨hinOrder, base, h⟩ | ⟨hnot, e, h, hne⟩
  · cases hlimit : options.maxDepth with
    | null =>
      refine .inl ⟨hinOrder, .inl hlimit, ?_⟩
      simp only [configure, h, hlimit]
      exact ⟨_, rfl⟩
    | count c =>
      by_cases hpos : 0 < c.value
      · refine .inl ⟨hinOrder, .inr ⟨c, hlimit, hpos⟩, ?_⟩
        simp only [configure, h, hlimit, ReaderConfig.limitOf, Limit.ofCount_of_pos hpos]
        exact ⟨_, rfl⟩
      · refine .inr ⟨?_, .config (.notPositive c), ?_, nofun⟩
        · rintro ⟨-, hnull | ⟨c', hc', hpos'⟩⟩
          · exact absurd (hlimit.symm.trans hnull) nofun
          · cases hlimit.symm.trans hc'
            exact hpos hpos'
        · simp only [configure, h, hlimit, ReaderConfig.limitOf, Limit.ofCount_of_not_pos hpos]
          rfl
    | other =>
      refine .inr ⟨?_, .config .wrongType, ?_, fun _ => rfl⟩
      · rintro ⟨-, hnull | ⟨c, hc, -⟩⟩
        · exact absurd (hlimit.symm.trans hnull) nofun
        · exact absurd (hlimit.symm.trans hc) nofun
      · simp only [configure, h, hlimit]
        rfl
  · exact .inr ⟨fun hboth => hnot hboth.1, e, by rw [configure, h]; rfl, fun he => absurd he hne⟩

/-! ## The block of a file -/

/-- What was found under a name is a file, and its content is not UTF-8. -/
def Undecodable (found : Except FileFault ByteArray) : Prop :=
  ∃ bytes, found = .ok bytes ∧ ¬bytes.IsValidUTF8

/-- The block of a file, by what was found under its name: the banner and the tree, with what the
reader has to report in between, or the banner alone and one report on what cannot be opened. -/
inductive Block (config : SessionConfig) (name : String) :
    Except FileFault ByteArray → List Action → Prop where
  | skipped (fault : FileFault) :
    Block config name (.error fault)
      [.write (banner name),
        .log ⟨.error, .session, "can't open " ++ name ++ ", ignoring: " ++ fault.reason⟩]
  | read {bytes : ByteArray} {text : List Char} (htext : SourceFile.decode? bytes = some text) :
    Block config name (.ok bytes)
      (.write (banner name) :: (SourceFile.load name config.reader text).2.map .log ++
        [.write ((SourceFile.load name config.reader text).1.render config.style ++ "\n")])

variable {config : SessionConfig} {name : String} {found : Except FileFault ByteArray}
  {find : String → Except FileFault ByteArray}

section File

variable (hname : '\x00' ∉ name.toList)
include hname

/-- A file that is decoded, or cannot be opened, has its block, and the run goes on. -/
theorem block_of_decodable (h : ¬Undecodable found) :
    (block config name found).2 = none ∧ Block config name found (block config name found).1 := by
  have hcontains : ¬name.toList.contains '\x00' = true := by simpa using hname
  cases found with
  | error fault =>
    rw [block, if_neg hcontains]
    exact ⟨rfl, .skipped fault⟩
  | ok bytes =>
    rw [block, if_neg hcontains]
    cases hdecode : SourceFile.decode? bytes with
    | none => exact absurd ⟨bytes, rfl, SourceFile.decode?_eq_none_iff.1 hdecode⟩ h
    | some text => exact ⟨rfl, .read hdecode⟩

/-- A file that is not UTF-8 breaks the run off at its banner. -/
theorem block_of_undecodable (h : Undecodable found) :
    block config name found = ([.write (banner name)], some .undecodable) := by
  have hcontains : ¬name.toList.contains '\x00' = true := by simpa using hname
  obtain ⟨bytes, rfl, hinvalid⟩ := h
  rw [block, if_neg hcontains]
  simp only [SourceFile.decode?_eq_none_iff.2 hinvalid]

end File

/-! ## The blocks of all files -/

/-- The blocks of some files, one after the other. -/
def shown (config : SessionConfig) (find : String → Except FileFault ByteArray)
    (names : List String) : List Action :=
  names.flatMap fun name => (block config name (find name)).1

/-- **Files that do not break the run off** have their blocks in front of all others. -/
theorem blocks_append {front : List String} (back : List String)
    (h : ∀ name ∈ front, (block config name (find name)).2 = none) :
    blocks config find (front ++ back) =
      (shown config find front ++ (blocks config find back).1, (blocks config find back).2) := by
  induction front with
  | nil => rfl
  | cons name front ih =>
    have hblock : block config name (find name) = ((block config name (find name)).1, none) :=
      Prod.ext rfl (h name List.mem_cons_self)
    rw [List.cons_append, blocks, hblock]
    simp only [ih fun name hmem => h name (List.mem_cons_of_mem _ hmem)]
    rw [shown, shown, List.flatMap_cons, List.append_assoc]

theorem prompts_of_block {actions : List Action} (h : Block config name found actions) :
    Action.prompts actions = [] := by
  cases h <;> simp [Action.prompts, List.filterMap_map]

theorem prompts_shown {names : List String}
    (h : ∀ name ∈ names, Block config name (find name) (block config name (find name)).1) :
    Action.prompts (shown config find names) = [] := by
  rw [Action.prompts, shown, List.filterMap_flatMap]
  exact List.flatMap_eq_nil_iff.2 fun name hmem => prompts_of_block (h name hmem)

section Files

variable {files : List String} (hnames : ∀ name ∈ files, '\x00' ∉ name.toList)
include hnames

/-- Files that are decoded, or cannot be opened, all have their blocks. -/
theorem blocks_of_decodable (h : ∀ name ∈ files, ¬Undecodable (find name)) :
    blocks config find files = (shown config find files, none) := by
  have hnone : ∀ name ∈ files, (block config name (find name)).2 = none :=
    fun name hmem => (block_of_decodable (hnames name hmem) (h name hmem)).1
  have hblocks := blocks_append [] hnone
  rwa [List.append_nil, blocks, List.append_nil] at hblocks

/-- The first file that is not UTF-8 has its banner behind the blocks of those in front of it, and
nothing comes behind it. -/
theorem blocks_of_undecodable {front back : List String} (hsplit : files = front ++ name :: back)
    (hfront : ∀ name ∈ front, ¬Undecodable (find name)) (h : Undecodable (find name)) :
    blocks config find files =
      (shown config find front ++ [.write (banner name)], some .undecodable) := by
  subst hsplit
  have hname : '\x00' ∉ name.toList := hnames name (by simp)
  rw [blocks_append, blocks, block_of_undecodable hname h]
  intro name hmem
  exact (block_of_decodable (hnames name (List.mem_append_left _ hmem)) (hfront name hmem)).1

end Files

/-! ## A whole run -/

/-- The arguments or the environment are not in order. -/
def Faulty (args : List String) (environment : Environment) : Prop :=
  (∃ e, Options.ofArgs args = .error (.error e)) ∨
    ∃ options, Options.ofArgs args = .ok options ∧ ¬(environment.InOrder ∧ options.InOrder)

theorem status_ofError {e : EnvironmentError} (h : e ≠ .config .wrongType) :
    (Ending.ofError e).status = 2 := by
  cases e with
  | unreadable text why => rfl
  | config e =>
    cases e with
    | wrongType => exact absurd rfl h
    | notPositive c => rfl

/-- **A run out of order** does nothing, and neither the files nor the lines matter to its end. -/
theorem run_of_faulty {args : List String} (h : Faulty args environment) :
    ∃ ending verbose, (∀ find input, run args environment find input = ⟨ending, verbose, []⟩) ∧
      (ending.status = 2 ∨ ending = .wrongType ∧
        ∃ arg ∈ args, Arg.Attaches arg.toList .maxDepth ['-', '-']) := by
  rcases h with ⟨e, hargs⟩ | ⟨options, hargs, hnot⟩
  · refine ⟨.refused e.message, false, ?_, .inl rfl⟩
    intro find input
    simp only [run, hargs]
  · rcases configure_cases options environment with ⟨hinOrder, hinOrder', -⟩ | ⟨-, e, he, hother⟩
    · exact absurd ⟨hinOrder, hinOrder'⟩ hnot
    · refine ⟨.ofError e, options.verbose, ?_, ?_⟩
      · intro find input
        simp only [run, hargs, he]
      · by_cases hwrong : e = .config .wrongType
        · subst hwrong
          exact .inr ⟨rfl, Options.exists_attaches_of_ofArgs hargs (hother rfl)⟩
        · exact .inl (status_ofError hwrong)

/-- How a run goes whose options and environment are in order. -/
structure Course (options : Options) (config : SessionConfig)
    (find : String → Except FileFault ByteArray) (input : List String) (r : Run) : Prop where
  /-- A file that is decoded, or cannot be opened, has its block. -/
  block : ∀ name ∈ options.files, ¬Undecodable (find name) →
    Block config name (find name) (block config name (find name)).1
  /-- The session follows the blocks of all files, if there is to be one. -/
  whole : (∀ name ∈ options.files, ¬Undecodable (find name)) →
    r = ⟨.done, options.verbose, shown config find options.files ++
      if options.batch then [] else Session.run config input⟩
  /-- The first file that is not UTF-8 ends the run at its banner, without a prompt. -/
  brokenOff : ∀ front name back, options.files = front ++ name :: back →
    (∀ name ∈ front, ¬Undecodable (find name)) → Undecodable (find name) →
    r = ⟨.failed .undecodable, options.verbose,
        shown config find front ++ [.write (banner name)]⟩ ∧
      Action.prompts r.actions = []

theorem course_runWith {options : Options} (hnames : ∀ name ∈ options.files, '\x00' ∉ name.toList)
    (config : SessionConfig) (find : String → Except FileFault ByteArray) (input : List String) :
    Course options config find input (runWith options config find input) := by
  have hblock : ∀ name ∈ options.files, ¬Undecodable (find name) →
      Block config name (find name) (block config name (find name)).1 :=
    fun name hmem hfound => (block_of_decodable (hnames name hmem) hfound).2
  refine ⟨hblock, ?_, ?_⟩
  · intro hdecodable
    simp only [runWith, blocks_of_decodable hnames hdecodable]
    split_ifs <;> simp
  · intro front name back hsplit hfront hundecodable
    have hr : runWith options config find input = ⟨.failed .undecodable, options.verbose,
        shown config find front ++ [.write (banner name)]⟩ := by
      simp only [runWith, blocks_of_undecodable hnames hsplit hfront hundecodable]
    have hprompts : Action.prompts (shown config find front) = [] := by
      refine prompts_shown fun name hmem => hblock name ?_ (hfront name hmem)
      exact hsplit ▸ List.mem_append_left _ hmem
    refine ⟨hr, ?_⟩
    rw [hr, Action.prompts, List.filterMap_append]
    simpa [Action.prompts] using hprompts

/-- **A run.** If the arguments or the environment are not in order, nothing is written, prompted
for or logged, no file makes a difference, and the status is two, unless the separator is attached
to the option for the limit: then the run ends with an error of its own. A call for help is the end
as well. Otherwise the blocks of the files come one after the other, each made of nothing but the
settings, the name and what was found under it, and behind them the session, as long as there is to
be one; only the first file that is not UTF-8 ends the run at its banner. -/
theorem run_outcome (args : List String) (environment : Environment) :
    (Faulty args environment →
      ∃ ending verbose, (∀ find input, run args environment find input = ⟨ending, verbose, []⟩) ∧
        (ending.status = 2 ∨ ending = .wrongType ∧
          ∃ arg ∈ args, Arg.Attaches arg.toList .maxDepth ['-', '-'])) ∧
      (Options.ofArgs args = .error .help →
        ∀ find input, run args environment find input = ⟨.help, false, []⟩) ∧
      ∀ options, Options.ofArgs args = .ok options → environment.InOrder → options.InOrder →
        (∀ name ∈ options.files, '\x00' ∉ name.toList) →
        options.files.Sublist args ∧ ∃ config, configure options environment = .ok config ∧
          ∀ find input, Course options config find input (run args environment find input) := by
  refine ⟨run_of_faulty, fun hargs find input => by simp only [run, hargs], ?_⟩
  intro options hargs hinOrder hinOrder' hnames
  refine ⟨Options.files_sublist_of_ofArgs hargs, ?_⟩
  rcases configure_cases options environment with ⟨-, -, config, hconfig⟩ | ⟨hnot, -⟩
  · refine ⟨config, hconfig, fun find input => ?_⟩
    simp only [run, hargs, hconfig]
    exact course_runWith hnames config find input
  · exact absurd ⟨hinOrder, hinOrder'⟩ hnot

/-- Of four files the first one is missing, the second one is read, and the third one is not UTF-8:
it ends the run, and the fourth one and the session are not reached. -/
theorem run_missing_read_undecodable :
    let args := ["missing.scm", "a.scm", "b.scm", "c.scm", "--style=plain"]
    let find : String → Except FileFault ByteArray := fun name =>
      if name = "a.scm" then .ok "(a)".toUTF8
      else if name = "b.scm" then .ok ⟨#[0xff]⟩
      else .error .missing
    (∀ name ∈ ["missing.scm", "a.scm"], ¬Undecodable (find name)) ∧ Undecodable (find "b.scm") ∧
      run args {} find ["x"] = ⟨.failed .undecodable, false,
        [.write "----- missing.scm -----\n",
          .log ⟨.error, .session, "can't open missing.scm, ignoring: No such file or directory"⟩,
          .write "----- a.scm -----\n", .write "(a)\n", .write "----- b.scm -----\n"]⟩ := by
  intro args find
  have hargs : Options.ofArgs args =
      .ok { files := ["missing.scm", "a.scm", "b.scm", "c.scm"], style := some .plain } := by decide
  have hfront : ∀ name ∈ ["missing.scm", "a.scm"], ¬Undecodable (find name) := by
    intro name hmem
    rcases List.mem_pair.1 hmem with rfl | rfl
    · exact nofun
    · rintro ⟨_, ⟨⟩, hinvalid⟩
      exact hinvalid (by decide)
  have hundecodable : Undecodable (find "b.scm") := ⟨_, rfl, by decide⟩
  have hshown : shown { style := .plain } find ["missing.scm", "a.scm"] =
      [.write "----- missing.scm -----\n",
        .log ⟨.error, .session, "can't open missing.scm, ignoring: No such file or directory"⟩,
        .write "----- a.scm -----\n", .write "(a)\n"] := by decide +kernel
  obtain ⟨-, -, hrun⟩ := run_outcome args {}
  obtain ⟨-, config, hconfig, hrun⟩ := hrun _ hargs nofun (.inl rfl) (by decide)
  obtain rfl : { style := .plain } = config := Except.ok.inj hconfig
  obtain ⟨h, -⟩ := (hrun find ["x"]).brokenOff _ _ _ rfl hfront hundecodable
  refine ⟨hfront, hundecodable, ?_⟩
  rw [h, hshown]
  rfl

/-- The separator as the limit is none, and the run ends with an error of its own, not with the
status of a refusal. -/
theorem run_separator_as_limit :
    let args := ["--max-depth=--", "--batch", "a.scm"]
    let find : String → Except FileFault ByteArray := fun _ => .ok "(((x)))".toUTF8
    Faulty args {} ∧ run args {} find [] = ⟨.wrongType, false, []⟩ ∧
      (run args {} find []).ending.status = 1 := by
  intro args find
  have hargs : Options.ofArgs args =
      .ok { files := ["a.scm"], maxDepth := .other, batch := true } := by decide
  refine ⟨.inr ⟨_, hargs, ?_⟩, rfl, rfl⟩
  rintro ⟨-, hnull | ⟨c, hc, -⟩⟩
  · exact absurd hnull nofun
  · exact absurd hc nofun

end CommandLine

end Sexpr
