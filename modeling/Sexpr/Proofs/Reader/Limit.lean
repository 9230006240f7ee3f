import Sexpr.Proofs.Lexeme.Parallel
import Sexpr.Proofs.Lexeme.Reports
import Sexpr.Proofs.Lexeme.Splitting
import Sexpr.Proofs.Reader.Trees

/-!
# Reading under a limit

A list that lies too deep is read like any other, and only then is it replaced by an error. So a
limit changes the tree and adds reports, and nothing else (`Reader.parse_limited`):

* `Tree.prune` puts an atom in place of each list that lies inside a number of others, and the tree
  under a limit is the pruned tree of the reading without one (`Lexeme.kept_prunes`);
* the reports that the limit adds are one for each list beyond it, in the order in which the lists
  end (`Lexeme.filter_timeline_tooDeep`), and the others are as they were
  (`Lexeme.filter_timeline_others`).
-/

namespace Sexpr

namespace Tree

/-- The tree with `a`, which owns nothing, in place of each list that lies inside `depth` others. -/
def prune (a : Atom) : Nat → Tree → Tree
  | _, absent => absent
  | 0, node .branch _ next => node a absent (next.prune a 0)
  | depth + 1, node .branch child next =>
    node .branch (child.prune a depth) (next.prune a (depth + 1))
  | depth, node b child next => node b child (next.prune a depth)

variable (a : Atom) (depth : Nat)

theorem prune_node {b : Atom} (h : b ≠ .branch) (child next : Tree) :
    (node b child next).prune a depth = node b child (next.prune a depth) := by
  rw [prune]
  · intro hzero hbranch
    exact absurd hbranch h
  · intro depth' hdepth hbranch
    exact absurd hbranch h

theorem prune_sentinel : sentinel.prune a depth = sentinel :=
  prune_node a depth Atom.noConfusion absent absent

/-- The chains of some levels, the innermost first, each pruned as its own depth asks for. -/
def pruneLevels : List Tree → List Tree
  | [] => []
  | t :: around => t.prune a (depth - around.length) :: pruneLevels around

end Tree

/-- The number of lists that a list may lie inside of without being too deep. -/
def Limit.depth (limit : Limit) : Nat := limit.count.value.toNat

theorem Limit.lt_iff (limit : Limit) (n : Nat) :
    limit.count.value < n + 1 ↔ limit.depth ≤ n := by
  unfold Limit.depth
  omega

theorem Limit.depth_ne_zero (limit : Limit) : limit.depth ≠ 0 := by
  have := limit.pos
  unfold Limit.depth
  omega

namespace Lexeme

variable (limit : Limit) (strict : Bool)

/-- The atom in place of a list that lies too deep. -/
def tooDeep : Atom := .error ("Nesting too deep: " ++ limit.text)

/-! ## The tree -/

/-- The second reading has the pruned chains of the first one, and ends where that ends. -/
structure Prunes (r r' : Reading) : Prop where
  position : r'.position = r.position
  chains : r'.chains = Tree.pruneLevels (tooDeep limit) limit.depth r.chains

theorem enclose_free (depth offset : Nat) (inner outer : Stretch) :
    (enclose ⟨none, strict⟩ depth offset inner outer).chain =
      .node .branch inner.chain outer.chain := rfl

theorem enclose_limited (depth offset : Nat) (inner outer : Stretch) :
    (enclose ⟨some limit, strict⟩ depth offset inner outer).chain =
      if limit.depth ≤ depth then .node (tooDeep limit) .absent outer.chain
      else .node .branch inner.chain outer.chain := by
  rw [enclose]
  simp only [limit.lt_iff]
  split <;> rfl

/-- Every lexeme keeps it: a list is replaced at the depth of the limit, and what it has inside of
it does not matter then. -/
theorem kept_prunes : Kept ⟨none, strict⟩ ⟨some limit, strict⟩ id (Prunes limit) where
  form {r r'} cs h := by
    refine ⟨h.position, ?_⟩
    have hchains := h.chains
    simp only [Reading.chains, List.map_cons, Tree.pruneLevels, List.cons.injEq] at hchains
    obtain ⟨hhere, haround⟩ := hchains
    simp only [Reading.chains, Reading.mapHere, Stretch.precede, List.map_cons, Tree.pruneLevels,
      Tree.prune_node _ _ (Atom.ofToken_form cs).2, hhere, haround]
  droppedQuote cs offset h := ⟨h.position, h.chains⟩
  closing {r r'} h := by
    refine ⟨h.position, ?_⟩
    show Tree.sentinel :: r'.chains = Tree.pruneLevels _ _ (Tree.sentinel :: r.chains)
    rw [h.chains, Tree.pruneLevels, Tree.prune_sentinel]
  opening {inner outer inner' outer' around around' position position'} offset hlength h := by
    refine ⟨h.position, ?_⟩
    have hchains := h.chains
    simp only [Reading.chains, List.map_cons, Tree.pruneLevels, List.length_cons, List.length_map,
      List.cons.injEq] at hchains
    obtain ⟨hinner, houter, haround⟩ := hchains
    simp only [Reading.chains, List.map_cons, Tree.pruneLevels, enclose_free, enclose_limited,
      List.length_map, hinner, houter, haround, List.cons.injEq, and_true]
    -- the list is replaced exactly if no level below the limit is left
    split
    · next hdeep =>
      have hzero : limit.depth - around.length = 0 := by omega
      rw [hzero, Tree.prune]
    · next hdeep =>
      obtain ⟨left, hleft⟩ : ∃ left, limit.depth - around.length = left + 1 :=
        ⟨limit.depth - around.length - 1, by omega⟩
      have hinside : limit.depth - (around.length + 1) = left := by omega
      rw [hleft, hinside, Tree.prune]

theorem prunes_breakOff (last : Nat) (cs : List Char) {r r' : Reading} (h : Prunes limit r r') :
    Prunes limit (r.breakOff ⟨none, strict⟩ last cs)
      (r'.breakOff ⟨some limit, strict⟩ last cs) := by
  unfold Reading.breakOff
  cases strict with
  | false => exact ⟨h.position, h.chains⟩
  | true =>
    refine ⟨h.position, ?_⟩
    have hchains := h.chains
    simp only [Reading.chains, List.map_cons, Tree.pruneLevels, List.cons.injEq] at hchains
    obtain ⟨hhere, haround⟩ := hchains
    simp only [Reading.chains, Reading.mapHere, Stretch.precede, Stretch.report, List.map_cons,
      Tree.pruneLevels, ↓reduceIte, Tree.prune_node _ _ (b := .error _) Atom.noConfusion, hhere,
      haround]

theorem prunes_ending (last : Nat) (left : List Nat) :
    Prunes limit (ending ⟨none, strict⟩ last left) (ending ⟨some limit, strict⟩ last left) := by
  refine ⟨by rw [ending_position, ending_position], ?_⟩
  have htruncated : truncated ⟨some limit, strict⟩ last = truncated ⟨none, strict⟩ last := rfl
  have hprune : ∀ depth openedAt, (truncated ⟨none, strict⟩ last openedAt).chain.prune
      (tooDeep limit) depth = (truncated ⟨none, strict⟩ last openedAt).chain := by
    intro depth openedAt
    cases strict with
    | false => exact Tree.prune_sentinel _ _
    | true =>
      show Tree.prune _ _ (.node (.error _) .absent .sentinel) = _
      rw [Tree.prune_node _ _ Atom.noConfusion, Tree.prune_sentinel]
      rfl
  rw [Reading.chains, Reading.chains, ending_levels, ending_levels, htruncated]
  induction left with
  | nil => rfl
  | cons openedAt left ih =>
    simp only [List.map_cons, List.cons_append, Tree.pruneLevels, hprune] at ih ⊢
    rw [← ih]

/-- **The tree under a limit** is the pruned one, and both readings end at the same offset. -/
theorem prunes_read (last : Nat) (xs : List Lexeme) :
    Prunes limit (read ⟨none, strict⟩ last [] xs) (read ⟨some limit, strict⟩ last [] xs) := by
  apply (kept_prunes limit strict).read_same
  · exact fun cs _ _ _ _ => prunes_breakOff limit strict last cs
  · exact fun _ => ⟨rfl, rfl⟩
  · exact prunes_ending limit strict last

variable {limit} in
/-- Outside of all lists there is one level. -/
theorem Prunes.chain_here {r r' : Reading} (h : Prunes limit r r') (haround : r.around = []) :
    r'.here.chain = r.here.chain.prune (tooDeep limit) limit.depth := by
  have hchains := h.chains
  simp only [Reading.chains, haround, List.map_cons, List.map_nil, Tree.pruneLevels,
    List.length_nil, Nat.sub_zero] at hchains
  exact (List.cons.inj hchains).1

/-! ## The reports -/

/-- Whether a report is of a list that lies too deep. -/
def ofDepth (d : Diagnostic) : Bool := d.cause.anomaly = .nestingTooDeep

/-- The report of a list that lies too deep. -/
def deepReport (x : Place) : Diagnostic := ⟨.nestingTooDeep limit.text, x.offset⟩

theorem beyond_limited (x : Place) : beyond ⟨some limit, strict⟩ x =
    if limit.depth ≤ x.around.length then [deepReport limit x] else [] := by
  rw [beyond]
  simp only [limit.lt_iff]
  rfl

theorem filter_timeline (config : ReaderConfig) (last : Nat) (p : Diagnostic → Bool)
    (opened : List Nat) (xs : List Lexeme) :
    (timeline config last opened xs).filter p =
      collect (fun opened x => (reported config last opened x).filter p) opened xs ++
        (openBehind opened xs).elim [] fun left => (cutOff config last left).filter p := by
  rw [timeline, List.filter_append, filter_collect]
  cases openBehind opened xs <;> rfl

/-- **The reports that a limit does not add** are those of the reading without one. -/
theorem filter_timeline_others (last : Nat) (opened : List Nat) (xs : List Lexeme) :
    (timeline ⟨some limit, strict⟩ last opened xs).filter (!ofDepth ·) =
      timeline ⟨none, strict⟩ last opened xs := by
  have hbeyond : ∀ x, (beyond ⟨some limit, strict⟩ x).filter (!ofDepth ·) = [] := by
    intro x
    rw [beyond_limited]
    split <;> rfl
  have hcut : ∀ left, (cutOff ⟨some limit, strict⟩ last left).filter (!ofDepth ·) =
      cutOff ⟨none, strict⟩ last left := by
    intro left
    rw [cutOff_eq_flatMap, cutOff_eq_flatMap, List.filter_flatMap]
    congr 1
    funext x
    exact congrArg _ (hbeyond x)
  have hreported : ∀ x ∈ xs, ∀ opened,
      (reported ⟨some limit, strict⟩ last opened x).filter (!ofDepth ·) =
        reported ⟨none, strict⟩ last opened x := by
    intro x _ opened
    cases x with
    | closing offset =>
      cases opened with
      | nil => rfl
      | cons o around => exact hbeyond ⟨o, around⟩
    | opening offset => rfl
    | token cs offset => rfl
    | string cs offset => rfl
    | droppedQuote cs offset => rfl
    | openString cs offset => rfl
  rw [filter_timeline, timeline, collect_congr hreported]
  congr 2
  funext left
  exact hcut left

/-- **The reports that a limit adds** are those of the lists beyond it, in the order in which they
end. -/
theorem filter_timeline_tooDeep (last : Nat) (opened : List Nat) (xs : List Lexeme) :
    (timeline ⟨some limit, strict⟩ last opened xs).filter ofDepth =
      (placesByEnd opened xs).flatMap (beyond ⟨some limit, strict⟩) := by
  have hbeyond : ∀ x, (beyond ⟨some limit, strict⟩ x).filter ofDepth =
      beyond ⟨some limit, strict⟩ x := by
    intro x
    rw [beyond_limited]
    split <;> rfl
  have hcut : ∀ left, (cutOff ⟨some limit, strict⟩ last left).filter ofDepth =
      (openPlaces left).flatMap (beyond ⟨some limit, strict⟩) := by
    intro left
    rw [cutOff_eq_flatMap, List.filter_flatMap]
    congr 1
    funext x
    exact hbeyond x
  have hreported : ∀ x ∈ xs, ∀ opened,
      (reported ⟨some limit, strict⟩ last opened x).filter ofDepth =
        (ends opened x).flatMap (beyond ⟨some limit, strict⟩) := by
    intro x _ opened
    cases x with
    | closing offset =>
      cases opened with
      | nil => rfl
      | cons o around =>
        show (beyond ⟨some limit, strict⟩ ⟨o, around⟩).filter ofDepth = _ ++ []
        rw [hbeyond, List.append_nil]
    | opening offset => rfl
    | token cs offset => rfl
    | string cs offset => rfl
    | droppedQuote cs offset => rfl
    | openString cs offset => rfl
  rw [filter_timeline, placesByEnd, List.flatMap_append, flatMap_collect, collect_congr hreported]
  congr 1
  cases openBehind opened xs with
  | none => rfl
  | some left => exact hcut left

theorem flatMap_beyond (xs : List Place) :
    xs.flatMap (beyond ⟨some limit, strict⟩) =
      (xs.filter fun x => limit.depth ≤ x.around.length).map (deepReport limit) := by
  induction xs with
  | nil => rfl
  | cons x xs ih =>
    rw [List.flatMap_cons, ih, beyond_limited]
    by_cases h : limit.depth ≤ x.around.length <;> simp [h]

end Lexeme

namespace Reader

open Lexeme

/-- **Reading under a limit.** The tree is that of the reading without a limit, with an error in
place of each list that lies inside as many lists as the limit allows. Both readings end at the same
position. The limit adds one report for each list that lies deeper, at its opening parenthesis, and
none comes before the report of a list inside of its own; the other reports are as they were. -/
theorem parse_limited (text : List Char) (position : Nat) (strict : Bool) (limit : Limit) :
    let free := ((ofText text ⟨none, strict⟩).seek position).parse
    let limited := ((ofText text ⟨some limit, strict⟩).seek position).parse
    let lists := places [] (Lexeme.ofText position (text.drop position))
    limited.1 = free.1.prune (.error ("Nesting too deep: " ++ limit.text)) limit.depth ∧
      limited.2.position = free.2.position ∧
      limited.2.diagnostics.filter (·.cause.anomaly ≠ .nestingTooDeep) = free.2.diagnostics ∧
      ∃ deep : List Place, deep.Perm (lists.filter fun x => limit.depth ≤ x.around.length) ∧
        (deep.Pairwise fun x y => x.offset ∉ y.around) ∧
        limited.2.diagnostics.filter (·.cause.anomaly = .nestingTooDeep) =
          deep.map fun x => ⟨.nestingTooDeep limit.text, x.offset⟩ := by
  intro free limited lists
  let xs := Lexeme.ofText position (text.drop position)
  let last := position + (text.drop position).length
  have hprunes := prunes_read limit strict last xs
  have hfree : free.2.diagnostics = timeline ⟨none, strict⟩ last [] xs := by
    rw [← reports_read]
    exact diagnostics_parse _
  have hlimited : limited.2.diagnostics = timeline ⟨some limit, strict⟩ last [] xs := by
    rw [← reports_read]
    exact diagnostics_parse _
  refine ⟨?_, ?_, ?_, (placesByEnd [] xs).filter fun x => limit.depth ≤ x.around.length,
    ?_, ?_, ?_⟩
  · show limited.1 = free.1.prune (tooDeep limit) limit.depth
    rw [fst_parse, fst_parse]
    exact hprunes.chain_here (around_read_outermost _ _ _)
  · rw [position_parse, position_parse]
    exact hprunes.position
  · have hothers : (fun d : Diagnostic => decide (d.cause.anomaly ≠ .nestingTooDeep)) =
        (!ofDepth ·) := by
      funext d
      exact decide_not
    rw [hlimited, hfree, hothers]
    exact filter_timeline_others limit strict last [] xs
  · exact (placesByEnd_perm [] xs).filter _
  · have hnodup : ([] ++ openings xs).Nodup := (nodup_openings_cut _ _ _).1
    exact (pairwise_placesByEnd hnodup).filter _
  · rw [hlimited]
    exact (filter_timeline_tooDeep limit strict last [] xs).trans (flatMap_beyond limit strict _)

end Reader

end Sexpr
