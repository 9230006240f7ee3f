import Sexpr.Proofs.Reader.InPlace
import Sexpr.Proofs.Reader.Trees

/-!
# The nodes of the reader

A reader over a table fills one node after the other, in place, also where a list is dropped and
where the text ends in the middle of something. A node that got two owners on the way, or a chain
that lost its sentinel, would be found by the check for the rules of a tree.

* `built_advance` shows that a whole run keeps the chains of all open levels apart, so that its tree
  is laid out in the table at places of its own.
* `Reader.perform` makes any number of calls on one reader, and `InPlace.Scribe.perform` makes them
  over one table.
* `InPlace.Scribe.valid_perform` is the result: every tree that the calls give passes the check, as
  it stands in the table after the last of them.
-/

namespace Sexpr

open Coroutine Linked

namespace InPlace

variable (config : ReaderConfig) {table : Array Entry}

/-! ## Whole runs -/

/-- **The slot takes an inner list**, or the error in its place. -/
theorem represents_takeList {l : Level} {f : Filler} {cells : List Nat}
    (h : Represents table l f cells) {chain : Tree} {root : Nat} {cs : List Nat}
    (hchain : Laid table (some root) chain cs) (hnodup : cs.Nodup)
    (hcs : ∀ j ∈ cs, j ∉ cells ++ [f.slot] ∧ f.start ≤ j) (offset : Nat) : ∃ cells',
      Represents (takeList config f table offset root).1.2 (l.receive config offset chain).1
          (takeList config f table offset root).1.1 cells' ∧
        (takeList config f table offset root).2 = (l.receive config offset chain).2 ∧
        (takeList config f table offset root).1.1.start = f.start ∧
        Keeps f.start table (takeList config f table offset root).1.2 := by
  have hkept := h.fill .branch hchain hnodup hcs
  have hdepth : f.level.depth = l.depth := by rw [h.level]; rfl
  unfold takeList Level.receive
  rw [hdepth]
  cases config.maxDepth with
  | none => exact ⟨_, hkept, rfl, rfl, keeps_fill h _ _⟩
  | some limit =>
    simp only
    split
    · exact ⟨_, h.fill _ .absent List.nodup_nil (by simp), rfl, rfl, keeps_fill h _ _⟩
    · exact ⟨_, hkept, rfl, rfl, keeps_fill h _ _⟩

/-- The levels that wait: the chain of each lies in front of a bound, which is the first node of
the level inside of it, and behind the base. -/
inductive Held (base : Nat) (table : Array Entry) :
    Nat → List Level.Waiting → List Waiting → Prop
  | nil {bound : Nat} : base ≤ bound → Held base table bound [] []
  | cons {bound : Nat} {w : Level.Waiting} {w' : Waiting} {ws : List Level.Waiting}
    {ws' : List Waiting} {cells : List Nat} :
    Represents table w.level w'.filler cells → (∀ j ∈ cells ++ [w'.filler.slot], j < bound) →
    w'.offset = w.offset → Held base table w'.filler.start ws ws' →
    Held base table bound (w :: ws) (w' :: ws')

theorem Represents.start_lt {l : Level} {f : Filler} {cells : List Nat}
    (h : Represents table l f cells) {bound : Nat} (hbound : ∀ j ∈ cells ++ [f.slot], j < bound) :
    f.start < bound := by
  have hslot : f.slot ∈ cells ++ [f.slot] := by simp
  exact (h.start_le _ hslot).trans_lt (hbound _ hslot)

theorem Held.congr {base bound : Nat} {table' : Array Entry} {stack : List Level.Waiting}
    {stack' : List Waiting} (h : Held base table bound stack stack')
    (heq : ∀ j < bound, table'[j]? = table[j]?) : Held base table' bound stack stack' := by
  induction h with
  | nil hle => exact .nil hle
  | cons hrep hbound hoffset _ ih =>
    have hlt := hrep.start_lt hbound
    exact .cons (hrep.congr fun j hj => heq j (hbound j hj)) hbound hoffset
      (ih fun j hj => heq j (hj.trans hlt))

theorem Held.base_le {base bound : Nat} {stack : List Level.Waiting} {stack' : List Waiting}
    (h : Held base table bound stack stack') : base ≤ bound := by
  induction h with
  | nil hle => exact hle
  | cons hrep hbound _ _ ih => exact ih.trans (hrep.start_lt hbound).le

/-- What a run leaves behind: the cursor of the run without a table, and a tree that is laid out
behind the base. -/
structure Built (base : Nat) (table : Array Entry) (out : Tree × Level.Cursor)
    (out' : Nat × Desk) : Prop where
  cursor : out'.2.cursor = out.2
  keeps : Keeps base table out'.2.table
  laid : ∃ cells, Laid out'.2.table (some out'.1) out.1 cells ∧ cells.Nodup ∧
    ∀ j ∈ cells, base ≤ j

theorem Built.trans {base : Nat} {table' : Array Entry} {out : Tree × Level.Cursor}
    {out' : Nat × Desk} (h : Built base table' out out') (hkeeps : Keeps base table table') :
    Built base table out out' :=
  ⟨h.cursor, hkeeps.trans h.keeps, h.laid⟩

/-- A level that starts has a chain of one fresh node. -/
theorem represents_opening (opening : Level.Opening) (table : Array Entry) :
    Represents (table.push fresh) opening.level ⟨opening.level, table.size, table.size⟩ [] :=
  ⟨rfl, .nil, by simp, by simp, by simp⟩

theorem keeps_push (table : Array Entry) (e : Entry) : Keeps table.size table (table.push e) :=
  ⟨by simp, fun _ hj => getElem?_push_of_lt hj⟩

/-- A level that starts. -/
theorem alike_start (opening : Level.Opening) (cursor : Level.Cursor) (table : Array Entry) :
    Alike table table.size ((Level.system config).start opening cursor)
      ((system config).start opening ⟨cursor, table⟩) := by
  have hscan := alike_scan config (represents_opening opening table) cursor.rest cursor.position
    cursor.found
  exact hscan.trans (keeps_push table fresh)

/-- A level that goes on with the chain of its inner list. -/
theorem alike_resume {w : Level.Waiting} {w' : Waiting} {cells : List Nat}
    (h : Represents table w.level w'.filler cells) (hoffset : w'.offset = w.offset) {chain : Tree}
    {root : Nat} {cs : List Nat} (hchain : Laid table (some root) chain cs) (hnodup : cs.Nodup)
    (hcs : ∀ j ∈ cs, j ∉ cells ++ [w'.filler.slot] ∧ w'.filler.start ≤ j)
    (cursor : Level.Cursor) :
    Alike table w'.filler.start ((Level.system config).resume w chain cursor)
      ((system config).resume w' root ⟨cursor, table⟩) := by
  obtain ⟨cells', hrep, hreports, hstart, hkeeps⟩ :=
    represents_takeList config h hchain hnodup hcs w.offset
  have hscan := alike_scan config hrep cursor.rest cursor.position
    ((w.level.receive config w.offset chain).2 ++ cursor.found)
  rw [hstart] at hscan
  simp only [system, Level.system, hoffset, hreports]
  exact hscan.trans hkeeps

/-- **Whole runs** do the same with and without a table. What a level has read lies in front of the
first node of the level inside of it, so the inner one cannot reach it. -/
theorem built_advance {signal : Signal Level.Opening Level.Waiting Tree}
    {signal' : Signal Level.Opening Waiting Nat} (cursor : Level.Cursor)
    {stack : List Level.Waiting} {stack' : List Waiting} {base start : Nat}
    (hsignal : Related table start signal signal') (hstack : Held base table start stack stack') :
    Built base table ((Level.system config).advance signal cursor stack)
      ((system config).advance signal' ⟨cursor, table⟩ stack') := by
  induction signal, cursor, stack using System.advance.induct (S := Level.system config)
    generalizing signal' table stack' start with
  | case1 cursor stack opening w =>
    rename_i ih
    cases hsignal with
    | call hrep hstart hoffset =>
      subst hstart
      have hlt := hrep.lt_size
      have halike := alike_start config opening cursor table
      have hheld := Held.congr (.cons hrep hlt hoffset hstack) halike.keeps.old
      have hbuilt := ih halike.signal hheld
      rw [← halike.desk_eq] at hbuilt
      rw [System.advance_call, System.advance_call]
      exact hbuilt.trans (halike.keeps.mono (hstack.base_le.trans (hrep.start_lt hlt).le))
  | case2 => cases hsignal
  | case3 cursor chain =>
    cases hstack with
    | nil hle =>
      cases hsignal with
      | finish hlaid hnodup hcells =>
        rw [System.advance_finish_nil, System.advance_finish_nil]
        exact ⟨rfl, .refl _ _, _, hlaid, hnodup, fun j hj => hle.trans (hcells j hj)⟩
  | case4 cursor chain w below =>
    rename_i ih
    cases hstack with
    | @cons _ _ w' _ _ cells hrep hbound hoffset hbelow =>
      cases hsignal with
      | @finish _ cs hlaid hnodup hcells =>
        -- the inner chain lies behind the bound, and what its caller has read in front of it
        have hapart : ∀ j ∈ cs, j ∉ cells ++ [w'.filler.slot] ∧ w'.filler.start ≤ j := by
          intro j hj
          refine ⟨?_, (hrep.start_lt hbound).le.trans (hcells j hj)⟩
          intro hmem
          exact absurd (hbound j hmem) (hcells j hj).not_gt
        have halike := alike_resume config hrep hoffset hlaid hnodup hapart cursor
        have hbuilt := ih halike.signal (hbelow.congr halike.keeps.old)
        rw [← halike.desk_eq] at hbuilt
        rw [System.advance_finish_cons, System.advance_finish_cons]
        exact hbuilt.trans (halike.keeps.mono hbelow.base_le)

/-- **One run** from its start builds its tree behind all earlier nodes. -/
theorem built_run (opening : Level.Opening) (cursor : Level.Cursor) (table : Array Entry) :
    Built table.size table ((Level.system config).run opening cursor)
      ((system config).run opening ⟨cursor, table⟩) := by
  have halike := alike_start config opening cursor table
  have hbuilt := built_advance config ((Level.system config).start opening cursor).2
    halike.signal (.nil le_rfl)
  rw [← halike.desk_eq] at hbuilt
  rw [System.run_eq, System.run_eq]
  exact hbuilt.trans halike.keeps

/-! ## Trees in the table -/

/-- A well-formed tree is laid out behind a place, and no node occurs twice in it. -/
structure Stands (table : Array Entry) (root : Nat) (t : Tree) : Prop where
  wellFormed : t.WellFormed
  laid : ∃ cells, Laid table (some root) t cells ∧ cells.Nodup

/-- Later nodes do not change the trees that stand. -/
theorem Stands.keep {root : Nat} {t : Tree} {table' : Array Entry} (h : Stands table root t)
    (hkeeps : Keeps table.size table table') : Stands table' root t := by
  obtain ⟨hwf, cells, hlaid, hnodup⟩ := h
  exact ⟨hwf, cells, hlaid.congr fun j hj => hkeeps.old j (hlaid.lt_size j hj), hnodup⟩

/-- The tree behind a place of a table passes the check for the rules of a tree, as it stands in the
table and also when it is laid out anew. -/
structure Valid (table : Array Entry) (root : Nat) (t : Tree) : Prop where
  wellFormed : t.WellFormed
  lt_size : root < table.size
  unfold_eq : (ofEntries table).unfold ⟨root, lt_size⟩ = t
  validate_eq : (ofEntries table).validate ⟨root, lt_size⟩ = .ok ⟨root, lt_size⟩
  validateTree_eq : validateTree t = .ok ()

theorem Stands.valid {root : Nat} {t : Tree} (h : Stands table root t) : Valid table root t := by
  obtain ⟨hwf, cells, hlaid, hnodup⟩ := h
  exact ⟨hwf, hlaid.lt, unfold_of_laid hlaid hnodup, validate_of_laid hlaid hwf hnodup,
    validateTree_of_wellFormed hwf⟩

end InPlace

namespace Reader

open InPlace

/-! ## Calls -/

/-- What can be done with a reader. -/
inductive Call where
  /-- Reading on. -/
  | parse
  /-- Going to another position, also past the end. -/
  | seek (position : Nat)

/-- The trees that some calls on a reader give, and the reader behind them. -/
def perform (r : Reader) : List Call → List Tree × Reader
  | [] => ([], r)
  | .parse :: calls =>
    let rest := r.parse.2.perform calls
    (r.parse.1 :: rest.1, rest.2)
  | .seek position :: calls => (r.seek position).perform calls

end Reader

namespace InPlace

open Reader (Call)

/-- A reader with the table of its nodes. -/
structure Scribe where
  reader : Reader
  table : Array Entry

namespace Scribe

/-- Reads on from the position and gives the place of the first node of the tree. -/
def parse (s : Scribe) : Nat × Scribe :=
  let (root, desk) :=
    (system s.reader.config).run ⟨0, s.reader.position⟩ ⟨s.reader.cursor, s.table⟩
  (root, ⟨{ s.reader with
    position := desk.cursor.position
    diagnostics := s.reader.diagnostics ++ desk.cursor.found.reverse }, desk.table⟩)

/-- The places of the trees that some calls give. -/
def perform (s : Scribe) : List Call → List Nat × Scribe
  | [] => ([], s)
  | .parse :: calls =>
    let rest := s.parse.2.perform calls
    (s.parse.1 :: rest.1, rest.2)
  | .seek position :: calls => perform { s with reader := s.reader.seek position } calls

/-- One call builds its tree behind all earlier nodes. -/
theorem stands_parse (s : Scribe) :
    s.parse.2.reader = s.reader.parse.2 ∧ Keeps s.table.size s.table s.parse.2.table ∧
      Stands s.parse.2.table s.parse.1 s.reader.parse.1 := by
  obtain ⟨hcursor, hkeeps, cells, hlaid, hnodup, -⟩ :=
    built_run s.reader.config ⟨0, s.reader.position⟩ s.reader.cursor s.table
  refine ⟨?_, hkeeps, s.reader.madeOf_parse.wellFormed, cells, hlaid, hnodup⟩
  simp only [parse, Reader.parse, Reader.parseLogged, hcursor]

/-- Any number of calls builds the trees one behind the other. -/
theorem stands_perform (s : Scribe) (calls : List Call) :
    (s.perform calls).2.reader = (s.reader.perform calls).2 ∧
      Keeps s.table.size s.table (s.perform calls).2.table ∧
      List.Forall₂ (Stands (s.perform calls).2.table) (s.perform calls).1
        (s.reader.perform calls).1 := by
  induction calls generalizing s with
  | nil => exact ⟨rfl, .refl _ _, .nil⟩
  | cons call calls ih =>
    cases call with
    | seek position => exact ih { s with reader := s.reader.seek position }
    | parse =>
      obtain ⟨hafter, hkeeps, hstands⟩ := s.stands_parse
      obtain ⟨hafter', hkeeps', hstands'⟩ := ih s.parse.2
      rw [hafter] at hafter' hstands'
      exact ⟨hafter', hkeeps.trans (hkeeps'.mono hkeeps.size_le),
        .cons (hstands.keep hkeeps') hstands'⟩

-- four forms and three sentinels stand in front of the second tree
example : ((Scribe.mk (.ofText "(a (b".toList {}) #[]).perform [.parse, .seek 1, .parse]).1 =
    [0, 7] := by cbv

/-- **Every tree is valid**: however often and from wherever a reader reads on, each tree that it
gives passes the check, with the nodes of all of them in one table and behind those of the table
it began with. -/
theorem valid_perform (s : Scribe) (calls : List Call) :
    (s.perform calls).2.reader = (s.reader.perform calls).2 ∧
      List.Forall₂ (Valid (s.perform calls).2.table) (s.perform calls).1
        (s.reader.perform calls).1 := by
  obtain ⟨hafter, -, hstands⟩ := s.stands_perform calls
  exact ⟨hafter, hstands.imp fun _ _ h => h.valid⟩

end Scribe

end InPlace

end Sexpr
