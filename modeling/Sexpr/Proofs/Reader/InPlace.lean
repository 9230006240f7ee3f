import Sexpr.Proofs.Reader.Levels
import Sexpr.Proofs.Tree.Linked

/-!
# Filling nodes in place

The levels of the reader over a table of nodes. A level does not collect forms: it knows the place
of the first node of its chain and that of its slot, a fresh node at the end of the chain. A form
goes into the slot, in place, and another fresh node behind it becomes the slot.

* `InPlace.scan` runs such a level up to its next inner list or to its end, and `InPlace.system`
  is the system of these coroutines. What a character does to a level is `Level.step`; the forms
  that it adds are moved to the table at once.
* `Represents` says that the chain of a level is laid out from its first node to its slot.
* `alike_scan` is the simulation of one stretch: a level over a table and one that collects its
  forms do the same, and nodes in front of the first one of the level are not touched.
-/

namespace Sexpr

open Coroutine Linked

namespace Level

/-! ## Earlier forms -/

/-- A level with some forms in front of its own. -/
def behind (l : Level) (earlier : List Form) : Level := { l with forms := l.forms ++ earlier }

/-- A level that has no forms yet. -/
def bare (l : Level) : Level := { l with forms := [] }

def Step.behind (earlier : List Form) : Step → Step
  | .stay l report => .stay (l.behind earlier) report
  | .descend l => .descend (l.behind earlier)
  | .leave l => .leave (l.behind earlier)

theorem behind_bare (l : Level) : l.bare.behind l.forms = l := rfl

theorem flushPending_behind (l : Level) (earlier : List Form) :
    (l.behind earlier).flushPending = l.flushPending.behind earlier := by
  unfold flushPending behind
  split <;> rfl

/-- What a character does to a level does not depend on its earlier forms. -/
theorem step_behind (l : Level) (earlier : List Form) (c : Char) :
    (l.behind earlier).step c = (l.step c).behind earlier := by
  have hmode : (l.behind earlier).mode = l.mode := rfl
  have htoken : (l.behind earlier).token = l.token := rfl
  have hescaped : (l.behind earlier).escaped = l.escaped := rfl
  unfold step
  rw [hmode]
  cases l.mode with
  | plain =>
    simp only [plainStep, flushPending_behind, htoken]
    split_ifs <;> rfl
  | comment =>
    simp only [commentStep]
    split_ifs <;> rfl
  | string =>
    simp only [stringStep, hescaped]
    split_ifs <;> rfl

theorem finishToken_behind (config : ReaderConfig) (l : Level) (earlier : List Form)
    (position : Nat) : (l.behind earlier).finishToken config position =
      ((l.finishToken config position).1.behind earlier, (l.finishToken config position).2) := by
  have hmode : (l.behind earlier).mode = l.mode := rfl
  unfold finishToken
  rw [hmode]
  cases l.mode with
  | plain => simp only [flushPending_behind]
  | comment => rfl
  | string =>
    simp only
    split_ifs <;> rfl

theorem finishList_behind (config : ReaderConfig) (l : Level) (earlier : List Form)
    (position : Nat) : (l.behind earlier).finishList config position =
      ((l.finishList config position).1.behind earlier, (l.finishList config position).2) := by
  have hdepth : (l.behind earlier).depth = l.depth := rfl
  unfold finishList
  rw [hdepth]
  split_ifs <;> rfl

/-- The end of the text, for a level without forms and with them. -/
theorem finish_eq (config : ReaderConfig) (l : Level) (position : Nat) :
    l.finish config position =
      ((((l.bare.finishToken config position).1.finishList config position).1.behind l.forms).chain,
        ((l.bare.finishToken config position).1.finishList config position).2 ++
          (l.bare.finishToken config position).2) := by
  calc l.finish config position = (l.bare.behind l.forms).finish config position := rfl
    _ = _ := by simp only [finish, finishToken_behind, finishList_behind]

/-- None of the forms of a level owns a chain. -/
def Childless (l : Level) : Prop := ∀ form ∈ l.forms, form.child = .absent

theorem childless_bare (l : Level) : l.bare.Childless := by simp [Childless, bare]

theorem Childless.push {l : Level} (h : l.Childless) (a : Atom) : (l.push a).Childless :=
  List.forall_mem_cons.2 ⟨rfl, h⟩

theorem Childless.flushPending {l : Level} (h : l.Childless) : l.flushPending.Childless := by
  unfold Level.flushPending
  split
  · exact h
  · exact h.push _

/-- The level behind a character. -/
def Step.level : Step → Level
  | .stay l _ => l
  | .descend l => l
  | .leave l => l

theorem Childless.step {l : Level} (h : l.Childless) (c : Char) : (l.step c).level.Childless := by
  unfold Level.step
  cases l.mode with
  | plain =>
    simp only [plainStep]
    split_ifs
    any_goals exact h.flushPending
    any_goals exact h
    exact h.push _
  | comment =>
    simp only [commentStep]
    split_ifs <;> exact h
  | string =>
    simp only [stringStep]
    split_ifs
    · exact h
    · exact h.push _
    · exact h

theorem Childless.finishToken {l : Level} (h : l.Childless) (config : ReaderConfig)
    (position : Nat) : (l.finishToken config position).1.Childless := by
  unfold Level.finishToken
  cases l.mode with
  | plain => exact h.flushPending
  | comment => exact h
  | string =>
    simp only
    split
    · exact h.push _
    · exact h

theorem Childless.finishList {l : Level} (h : l.Childless) (config : ReaderConfig)
    (position : Nat) : (l.finishList config position).1.Childless := by
  unfold Level.finishList
  split
  · exact h
  · simp only
    split
    · exact h.push _
    · exact h

end Level

namespace InPlace

variable (config : ReaderConfig)

/-! ## Levels over a table -/

/-- A node that holds nothing yet, at the end of its chain. -/
def fresh : Entry := ⟨.nil, none, none⟩

/-- A level with its chain in a table. -/
structure Filler where
  /-- The level, which collects no forms. -/
  level : Level
  /-- The place of the first node of the chain. -/
  start : Nat
  /-- The place of the last node, which is fresh. -/
  slot : Nat

/-- Fills the slot, and puts a fresh node behind it. -/
def fill (f : Filler) (table : Array Entry) (atom : Atom) (child : Option Nat) :
    Filler × Array Entry :=
  ({ f with slot := table.size },
    (table.setIfInBounds f.slot ⟨atom, child, some table.size⟩).push fresh)

/-- Fills the slot with one form after the other, the last one of the list first. None of them owns
a chain. -/
def settle (forms : List Form) (f : Filler) (table : Array Entry) : Filler × Array Entry :=
  forms.foldr (fun form s => fill s.1 s.2 form.atom none) (f, table)

/-- Goes on with a level, whose forms are moved to the table. -/
def goOn (f : Filler) (level : Level) (table : Array Entry) : Filler × Array Entry :=
  settle level.forms { f with level := { level with forms := [] } } table

/-- Takes the chain of the inner list that was opened at an offset: the slot becomes a list, or an
error if the list lies deeper than the limit. -/
def takeList (f : Filler) (table : Array Entry) (offset root : Nat) :
    (Filler × Array Entry) × List Diagnostic :=
  match config.maxDepth with
  | none => (fill f table .branch (some root), [])
  | some limit =>
    if limit.count.value < f.level.depth + 1 then
      let cause := Cause.nestingTooDeep limit.text
      (fill f table (.error cause.message) none, [⟨cause, offset⟩])
    else (fill f table .branch (some root), [])

/-- A level that waits for an inner list, with the offset of that list. -/
structure Waiting where
  filler : Filler
  offset : Nat

/-- The cursor with the table. -/
structure Desk where
  cursor : Level.Cursor
  table : Array Entry

/-- Runs a level over the text up to its next inner list, its closing parenthesis or the end. -/
def scan (f : Filler) (position : Nat) (found : List Diagnostic) (table : Array Entry) :
    List Char → Signal Level.Opening Waiting Nat × Desk
  | [] =>
    let (level, inToken) := f.level.finishToken config position
    let (level, inList) := level.finishList config position
    let (f, table) := goOn f level table
    (.finish f.start, ⟨⟨[], position, inList ++ inToken ++ found⟩, table⟩)
  | c :: rest =>
    match f.level.step c with
    | .stay level report =>
      let (f, table) := goOn f level table
      scan f (position + 1) ((report.map (⟨·, position⟩)).toList ++ found) table rest
    | .descend level =>
      let (f, table) := goOn f level table
      (.call ⟨level.depth + 1, position⟩ ⟨f, position⟩, ⟨⟨rest, position + 1, found⟩, table⟩)
    | .leave level =>
      let (f, table) := goOn f level table
      let reports := if level.depth = 0 then [⟨.strayClose, position⟩] else []
      (.finish f.start, ⟨⟨rest, position + 1, reports ++ found⟩, table⟩)

theorem scan_le (rest : List Char) (f : Filler) (position : Nat) (found : List Diagnostic)
    (table : Array Entry) :
    2 * (scan config f position found table rest).2.cursor.rest.length +
        (scan config f position found table rest).1.weight (fun _ => 0) (fun _ => 0)
      ≤ 2 * rest.length := by
  induction rest generalizing f position found table with
  | nil => simp [scan, Signal.weight]
  | cons c rest ih =>
    rw [scan]
    split
    · next level report _ =>
      have := ih (goOn f level table).1 (position + 1)
        ((report.map (⟨·, position⟩)).toList ++ found) (goOn f level table).2
      simp only [List.length_cons]
      omega
    · simp only [Signal.weight, List.length_cons]
      omega
    · simp only [Signal.weight, List.length_cons]
      omega

/-- The levels over a table as coroutines. A level starts with one fresh node. -/
def system : System Level.Opening Waiting Nat Desk where
  start opening desk :=
    scan config ⟨opening.level, desk.table.size, desk.table.size⟩ desk.cursor.position
      desk.cursor.found (desk.table.push fresh) desk.cursor.rest
  resume waiting root desk :=
    let ((f, table), reports) := takeList config waiting.filler desk.table waiting.offset root
    scan config f desk.cursor.position (reports ++ desk.cursor.found) table desk.cursor.rest
  close _ desk := desk
  ahead desk := 2 * desk.cursor.rest.length
  fresh _ := 0
  held _ := 0
  start_le _ _ := scan_le ..
  resume_le _ _ _ := scan_le ..
  close_le _ _ := Nat.le_refl _

/-! ## Chains that end with a slot -/

/-- The chain of some forms, latest first, leads through a table from a first place to a slot, over
the places of a list, which are those in front of the slot and of what its nodes own. -/
inductive Leads (table : Array Entry) (start : Nat) : List Form → Nat → List Nat → Prop
  | nil : Leads table start [] start []
  | push {forms : List Form} {slot behind : Nat} {cells cs : List Nat} {a : Atom} {child : Tree}
    {c : Option Nat} :
    Leads table start forms slot cells → table[slot]? = some ⟨a, c, some behind⟩ →
    Laid table c child cs →
    Leads table start (⟨a, child⟩ :: forms) behind (cells ++ slot :: cs)

variable {table table' : Array Entry} {start slot : Nat} {forms : List Form} {cells : List Nat}

theorem Leads.congr (h : Leads table start forms slot cells)
    (heq : ∀ j ∈ cells, table'[j]? = table[j]?) : Leads table' start forms slot cells := by
  induction h with
  | nil => exact .nil
  | push _ hslot hchild ih =>
    rw [List.forall_mem_append, List.forall_mem_cons] at heq
    obtain ⟨hcells, hself, hcs⟩ := heq
    exact .push (ih hcells) (hself.trans hslot) (hchild.congr hcs)

theorem Leads.lt_size (h : Leads table start forms slot cells) : ∀ j ∈ cells, j < table.size := by
  induction h with
  | nil => simp
  | push _ hslot hchild ih =>
    obtain ⟨hlt, -⟩ := Array.getElem?_eq_some_iff.1 hslot
    rw [List.forall_mem_append, List.forall_mem_cons]
    exact ⟨ih, hlt, hchild.lt_size⟩

/-- A chain up to the slot, and what the slot leads to. -/
theorem Leads.laid (h : Leads table start forms slot cells) {rest : Tree} {rs : List Nat}
    (hrest : Laid table (some slot) rest rs) :
    Laid table (some start) (Tree.unwind forms rest) (cells ++ rs) := by
  induction h generalizing rest rs with
  | nil => exact hrest
  | push _ hslot hchild ih =>
    rw [Tree.unwind_cons, List.append_assoc, List.cons_append]
    exact ih (.node hslot hchild hrest)

/-- A level that collects its forms, and one over a table: their scanning states agree, and the
chain of the forms lies in the table, behind its first node and up to a fresh one. -/
structure Represents (table : Array Entry) (l : Level) (f : Filler) (cells : List Nat) : Prop where
  level : f.level = l.bare
  leads : Leads table f.start l.forms f.slot cells
  slot : table[f.slot]? = some fresh
  nodup : (cells ++ [f.slot]).Nodup
  start_le : ∀ j ∈ cells ++ [f.slot], f.start ≤ j

theorem Represents.congr {l : Level} {f : Filler} (h : Represents table l f cells)
    (heq : ∀ j ∈ cells ++ [f.slot], table'[j]? = table[j]?) : Represents table' l f cells := by
  rw [List.forall_mem_append, List.forall_mem_singleton] at heq
  exact ⟨h.level, h.leads.congr heq.1, heq.2.trans h.slot, h.nodup, h.start_le⟩

theorem Represents.lt_size {l : Level} {f : Filler} (h : Represents table l f cells) :
    ∀ j ∈ cells ++ [f.slot], j < table.size := by
  rw [List.forall_mem_append, List.forall_mem_singleton]
  exact ⟨h.leads.lt_size, (Array.getElem?_eq_some_iff.1 h.slot).1⟩

/-- The chain of a level in a table, as a tree. -/
theorem Represents.laid {l : Level} {f : Filler} (h : Represents table l f cells) :
    Laid table (some f.start) l.chain (cells ++ [f.slot]) := by
  have hend : Laid table (some f.slot) .sentinel [f.slot] := .node h.slot .absent .absent
  exact h.leads.laid hend

/-- What may happen to a table behind a place: it grows, and what stands in front of the place
stays. -/
structure Keeps (bound : Nat) (table table' : Array Entry) : Prop where
  size_le : table.size ≤ table'.size
  old : ∀ j < bound, table'[j]? = table[j]?

theorem Keeps.refl (bound : Nat) (table : Array Entry) : Keeps bound table table :=
  ⟨le_rfl, fun _ _ => rfl⟩

theorem Keeps.trans {bound : Nat} {table'' : Array Entry} (h : Keeps bound table table')
    (h' : Keeps bound table' table'') : Keeps bound table table'' :=
  ⟨h.size_le.trans h'.size_le, fun j hj => (h'.old j hj).trans (h.old j hj)⟩

theorem Keeps.mono {bound bound' : Nat} (h : Keeps bound table table') (hle : bound' ≤ bound) :
    Keeps bound' table table' :=
  ⟨h.size_le, fun j hj => h.old j (hj.trans_le hle)⟩

/-! ## Filling a slot -/

theorem getElem?_fill_of_ne (f : Filler) (table : Array Entry) (a : Atom) (c : Option Nat) {j : Nat}
    (hlt : j < table.size) (hne : j ≠ f.slot) : (fill f table a c).2[j]? = table[j]? := by
  simp only [fill]
  rw [Array.getElem?_push, if_neg (by simpa using hlt.ne), Array.getElem?_setIfInBounds_ne hne.symm]

theorem getElem?_fill_slot (f : Filler) (table : Array Entry) (a : Atom) (c : Option Nat)
    (hlt : f.slot < table.size) :
    (fill f table a c).2[f.slot]? = some ⟨a, c, some table.size⟩ := by
  simp only [fill]
  rw [Array.getElem?_push, if_neg (by simpa using hlt.ne)]
  simp [hlt]

theorem getElem?_fill_size (f : Filler) (table : Array Entry) (a : Atom) (c : Option Nat) :
    (fill f table a c).2[table.size]? = some fresh := by
  simp only [fill]
  rw [Array.getElem?_push, if_pos (by simp)]

theorem size_fill (f : Filler) (table : Array Entry) (a : Atom) (c : Option Nat) :
    (fill f table a c).2.size = table.size + 1 := by
  simp [fill]

theorem keeps_fill {l : Level} {f : Filler} (h : Represents table l f cells) (a : Atom)
    (c : Option Nat) : Keeps f.start table (fill f table a c).2 := by
  refine ⟨by rw [size_fill]; omega, ?_⟩
  intro j hj
  have hslot : f.slot ∈ cells ++ [f.slot] := by simp
  have hle := h.start_le _ hslot
  have hlt := h.lt_size _ hslot
  exact getElem?_fill_of_ne f table a c (by omega) (by omega)

/-- **Filling the slot** adds a form to the level. What the form owns may lie anywhere else behind
the first node of the level. -/
theorem Represents.fill {l : Level} {f : Filler} (h : Represents table l f cells) (a : Atom)
    {child : Tree} {c : Option Nat} {cs : List Nat} (hchild : Laid table c child cs)
    (hnodup : cs.Nodup) (hcs : ∀ j ∈ cs, j ∉ cells ++ [f.slot] ∧ f.start ≤ j) :
    Represents (fill f table a c).2 { l with forms := ⟨a, child⟩ :: l.forms } (fill f table a c).1
      (cells ++ f.slot :: cs) := by
  have hlt := h.lt_size
  have hclt := hchild.lt_size
  have hslot : f.slot ∈ cells ++ [f.slot] := by simp
  have hne : ∀ j ∈ cells, j ≠ f.slot := by
    have hself := h.nodup
    rw [List.nodup_append] at hself
    intro j hj
    exact hself.2.2 j hj f.slot (by simp)
  have hcne : ∀ j ∈ cs, j ≠ f.slot := by
    rintro j hj rfl
    exact (hcs _ hj).1 hslot
  have hslotlt := hlt _ hslot
  have hcells : ∀ j ∈ cells, (InPlace.fill f table a c).2[j]? = table[j]? := by
    intro j hj
    exact getElem?_fill_of_ne f table a c (hlt j (by simp [hj])) (hne j hj)
  have hchild' : Laid (InPlace.fill f table a c).2 c child cs := by
    apply hchild.congr
    intro j hj
    exact getElem?_fill_of_ne f table a c (hclt j hj) (hcne j hj)
  refine ⟨h.level, (h.leads.congr hcells).push (getElem?_fill_slot f table a c hslotlt) hchild',
    getElem?_fill_size f table a c, ?_, ?_⟩
  · have hall : ((cells ++ [f.slot]) ++ cs).Nodup := by
      refine List.nodup_append.2 ⟨h.nodup, hnodup, ?_⟩
      rintro j hj k hk rfl
      exact (hcs j hk).1 hj
    have hshape : cells ++ f.slot :: cs = (cells ++ [f.slot]) ++ cs := by simp
    rw [hshape]
    refine List.nodup_append.2 ⟨hall, by simp, ?_⟩
    rintro j hj k hk rfl
    obtain rfl : j = table.size := List.mem_singleton.1 hk
    rcases List.mem_append.1 hj with hj | hj
    · exact absurd (hlt _ hj) (lt_irrefl _)
    · exact absurd (hclt _ hj) (lt_irrefl _)
  · intro j hj
    rw [List.mem_append, List.mem_append, List.mem_cons, List.mem_singleton] at hj
    rcases hj with (hj | rfl | hj) | rfl
    · exact h.start_le j (by simp [hj])
    · exact h.start_le _ hslot
    · exact (hcs j hj).2
    · exact (h.start_le _ hslot).trans hslotlt.le

/-- Moving forms to the table adds them to the level. -/
theorem represents_settle {l : Level} {f : Filler} (h : Represents table l f cells)
    {forms : List Form} (hforms : ∀ form ∈ forms, form.child = .absent) :
    ∃ cells', Represents (settle forms f table).2 { l with forms := forms ++ l.forms }
        (settle forms f table).1 cells' ∧
      (settle forms f table).1.start = f.start ∧ Keeps f.start table (settle forms f table).2 := by
  induction forms with
  | nil => exact ⟨cells, h, rfl, .refl _ _⟩
  | cons form forms ih =>
    rw [List.forall_mem_cons] at hforms
    obtain ⟨hchild, hforms⟩ := hforms
    obtain ⟨cells', hrep, hstart, hkeeps⟩ := ih hforms
    obtain ⟨a, child⟩ := form
    obtain rfl : child = .absent := hchild
    have hsettle : settle (⟨a, .absent⟩ :: forms) f table =
        fill (settle forms f table).1 (settle forms f table).2 a none := rfl
    rw [hsettle]
    refine ⟨_, hrep.fill a .absent List.nodup_nil (by simp), hstart, ?_⟩
    have hfill := keeps_fill hrep a none
    rw [hstart] at hfill
    exact hkeeps.trans hfill

/-- **Going on with a level** whose forms are moved to the table. -/
theorem represents_goOn {l : Level} {f : Filler} (h : Represents table l f cells) {level : Level}
    (hlevel : level.Childless) : ∃ cells',
      Represents (goOn f level table).2 (level.behind l.forms) (goOn f level table).1 cells' ∧
        (goOn f level table).1.start = f.start ∧ Keeps f.start table (goOn f level table).2 := by
  have hstart : Represents table { level with forms := l.forms }
      { f with level := { level with forms := [] } } cells :=
    ⟨rfl, h.leads, h.slot, h.nodup, h.start_le⟩
  exact represents_settle hstart hlevel

/-! ## One stretch -/

/-- Two signals that say the same, the second of them over a table, by a level whose chain begins at
a place. -/
inductive Related (table : Array Entry) (start : Nat) :
    Signal Level.Opening Level.Waiting Tree → Signal Level.Opening Waiting Nat → Prop
  | call {opening : Level.Opening} {w : Level.Waiting} {w' : Waiting} {cells : List Nat} :
    Represents table w.level w'.filler cells → w'.filler.start = start → w'.offset = w.offset →
    Related table start (.call opening w) (.call opening w')
  | finish {chain : Tree} {cells : List Nat} :
    Laid table (some start) chain cells → cells.Nodup → (∀ j ∈ cells, start ≤ j) →
    Related table start (.finish chain) (.finish start)

/-- What a stretch of a level over a table has in common with one of a level that collects its
forms: the signal, the cursor, and a table that is kept in front of the level's first node. -/
structure Alike (table : Array Entry) (start : Nat)
    (out : Signal Level.Opening Level.Waiting Tree × Level.Cursor)
    (out' : Signal Level.Opening Waiting Nat × Desk) : Prop where
  signal : Related out'.2.table start out.1 out'.1
  cursor : out'.2.cursor = out.2
  keeps : Keeps start table out'.2.table

theorem Alike.trans {out : Signal Level.Opening Level.Waiting Tree × Level.Cursor}
    {out' : Signal Level.Opening Waiting Nat × Desk} (h : Alike table' start out out')
    (hkeeps : Keeps start table table') : Alike table start out out' :=
  ⟨h.signal, h.cursor, hkeeps.trans h.keeps⟩

theorem Alike.desk_eq {out : Signal Level.Opening Level.Waiting Tree × Level.Cursor}
    {out' : Signal Level.Opening Waiting Nat × Desk} (h : Alike table start out out') :
    out'.2 = ⟨out.2, out'.2.table⟩ := by
  rw [← h.cursor]

/-- **One stretch** of a level does the same with and without a table, and touches nothing in front
of the level's first node. -/
theorem alike_scan {l : Level} {f : Filler} (h : Represents table l f cells) (rest : List Char)
    (position : Nat) (found : List Diagnostic) :
    Alike table f.start (l.scan config position found rest)
      (scan config f position found table rest) := by
  induction rest generalizing l f cells table position found with
  | nil =>
    have hchildless :=
      ((Level.childless_bare l).finishToken config position).finishList config position
    obtain ⟨cells', hrep, hstart, hkeeps⟩ := represents_goOn h hchildless
    rw [scan, Level.scan, h.level, Level.finish_eq]
    exact ⟨hstart ▸ .finish hrep.laid hrep.nodup hrep.start_le, rfl, hkeeps⟩
  | cons c rest ih =>
    have hstep := Level.step_behind l.bare l.forms c
    rw [Level.behind_bare] at hstep
    have hchildless := (Level.childless_bare l).step c
    rw [scan, Level.scan, h.level, hstep]
    generalize l.bare.step c = step at hchildless ⊢
    cases step with
    | stay level report =>
      obtain ⟨cells', hrep, hstart, hkeeps⟩ := represents_goOn h hchildless
      have hrest := ih hrep (position + 1) ((report.map (⟨·, position⟩)).toList ++ found)
      rw [hstart] at hrest
      exact hrest.trans hkeeps
    | descend level =>
      obtain ⟨cells', hrep, hstart, hkeeps⟩ := represents_goOn h hchildless
      exact ⟨.call hrep hstart rfl, rfl, hkeeps⟩
    | leave level =>
      obtain ⟨cells', hrep, hstart, hkeeps⟩ := represents_goOn h hchildless
      exact ⟨hstart ▸ .finish hrep.laid hrep.nodup hrep.start_le, rfl, hkeeps⟩

end InPlace

end Sexpr
