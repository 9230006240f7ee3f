import Mathlib.Data.List.Nodup
import Mathlib.Data.List.Pairwise
import Mathlib.Data.List.Perm.Basic
import Sexpr.Tree.Linked

/-!
# The check of a table

A table of nodes may hold anything: shared nodes, cycles, chains without an end. The check accepts
it exactly if what can be reached from the root is a tree (`Linked.IsTree`), and otherwise it names
a violation that is there (`Linked.Present`), as long as the report of it can be written:
`Linked.validate_exact`. The report shows an atom, and a long integer cannot be shown.

The walk marks a node when it comes to it, and looks at each link of a marked node once. So at any
time the ways that are known to lead to some node lead to the marked nodes and to those that wait,
to each as often as it is there (`Linked.Course`). One account settles both directions: a marked
node that comes up again has two ways to it, and when no node waits, every node has one.
-/

namespace Sexpr

namespace Linked

variable {n : Nat}

/-! ## What a tree is, and what can be wrong -/

/-- The two links that a node can have. -/
inductive Side where
  | child
  | next
  deriving DecidableEq

/-- A link of a table: the node that has it, and which of the two it is. -/
structure Link (n : Nat) where
  owner : Fin n
  side : Side
  deriving DecidableEq

/-- The node that a link leads to. -/
def target? (g : Linked n) (l : Link n) : Option (Fin n) :=
  match l.side with
  | .child => (g.cell l.owner).child
  | .next => (g.cell l.owner).next

/-- The nodes that links lead to from the root. -/
inductive Reachable (g : Linked n) (root : Fin n) : Fin n → Prop
  | root : Reachable g root root
  | step {l : Link n} {j : Fin n} :
    Reachable g root l.owner → g.target? l = some j → Reachable g root j

/-- What can be reached from the root is a tree. -/
structure IsTree (g : Linked n) (root : Fin n) : Prop where
  /-- Sentinels end their chains, and all other nodes go on. -/
  next_iff : ∀ i, g.Reachable root i → ((g.cell i).next = none ↔ (g.cell i).atom = .nil)
  /-- Lists own a chain, and no other node does. -/
  child_iff : ∀ i, g.Reachable root i → ((g.cell i).child ≠ none ↔ (g.cell i).atom = .branch)
  /-- No two links lead to the same node. -/
  owner_unique : ∀ l l' : Link n, g.Reachable root l.owner → g.Reachable root l'.owner →
    ∀ j, g.target? l = some j → g.target? l' = some j → l = l'
  /-- No link leads to the root. -/
  root_free : ∀ l : Link n, g.Reachable root l.owner → g.target? l ≠ some root

/-- A violation that is there among the nodes that can be reached from the root. -/
inductive Present (g : Linked n) (root : Fin n) : Violation → Prop
  | shared {l l' : Link n} {j : Fin n} : g.Reachable root l.owner → g.Reachable root l'.owner →
    l ≠ l' → g.target? l = some j → g.target? l' = some j → Present g root (.shared (g.cell j).atom)
  | rootOwned {l : Link n} : g.Reachable root l.owner → g.target? l = some root →
    Present g root (.shared (g.cell root).atom)
  | branchWithoutChild {i : Fin n} : g.Reachable root i → (g.cell i).atom = .branch →
    (g.cell i).child = none → Present g root .branchWithoutChild
  | ownsChild {i : Fin n} : g.Reachable root i → (g.cell i).atom ≠ .branch →
    (g.cell i).child ≠ none → Present g root (.ownsChild (g.cell i).atom.kind)
  | sentinelLinks {i j : Fin n} : g.Reachable root i → (g.cell i).atom = .nil →
    (g.cell i).next = some j → Present g root (.sentinelLinks (g.cell j).atom)
  | endsAt {i : Fin n} : g.Reachable root i → (g.cell i).atom ≠ .nil →
    (g.cell i).next = none → Present g root (.endsAt (g.cell i).atom)

variable {g : Linked n} {root : Fin n}

/-- Nothing is wrong with a tree. -/
theorem IsTree.not_present (h : g.IsTree root) (v : Violation) : ¬g.Present root v := by
  intro hv
  cases hv with
  | shared hl hl' hne hj hj' => exact hne (h.owner_unique _ _ hl hl' _ hj hj')
  | rootOwned hl hroot => exact h.root_free _ hl hroot
  | branchWithoutChild hi hbranch hchild => exact (h.child_iff _ hi).2 hbranch hchild
  | ownsChild hi hbranch hchild => exact hbranch ((h.child_iff _ hi).1 hchild)
  | sentinelLinks hi hnil hnext =>
    exact Option.some_ne_none _ (hnext.symm.trans ((h.next_iff _ hi).2 hnil))
  | endsAt hi hnil hnext => exact hnil ((h.next_iff _ hi).1 hnext)

/-! ## One node -/

theorem violation?_eq_none {i : Fin n} (h : g.violation? i = none) :
    ((g.cell i).next = none ↔ (g.cell i).atom = .nil) ∧
      ((g.cell i).child ≠ none ↔ (g.cell i).atom = .branch) := by
  simp only [violation?] at h
  split_ifs at h with hchild hbranch hnil hnext
  · rw [Option.map_eq_none_iff] at h
    exact ⟨iff_of_true h hnil, by tauto⟩
  · exact ⟨iff_of_false hnext hnil, by tauto⟩

/-- What is found wrong with a node is there. -/
theorem present_of_violation? {i : Fin n} (hi : g.Reachable root i) {v : Violation}
    (h : g.violation? i = some v) : g.Present root v := by
  simp only [violation?] at h
  split_ifs at h with hchild hbranch hnil hnext
  · obtain rfl := Option.some.inj h
    exact .branchWithoutChild hi hchild.1 hchild.2
  · obtain rfl := Option.some.inj h
    exact .ownsChild hi hbranch.1 hbranch.2
  · obtain ⟨j, hj, rfl⟩ := Option.map_eq_some_iff.1 h
    exact .sentinelLinks hi hnil hj
  · obtain rfl := Option.some.inj h
    exact .endsAt hi hnil hnext

/-! ## Ways -/

/-- Two of the elements that are counted, if there are two. -/
theorem exists_two {α : Type} {xs : List α} (hxs : xs.Nodup) {p : α → Bool} (h : 2 ≤ xs.countP p) :
    ∃ a ∈ xs, ∃ b ∈ xs, a ≠ b ∧ p a = true ∧ p b = true := by
  have hnodup := hxs.filter p
  rw [List.countP_eq_length_filter] at h
  rcases hfilter : xs.filter p with _ | ⟨a, _ | ⟨b, rest⟩⟩
  · simp [hfilter] at h
  · simp [hfilter] at h
  · have ha := List.mem_filter.1 (hfilter ▸ List.mem_cons_self : a ∈ xs.filter p)
    have hb := List.mem_filter.1
      (hfilter ▸ List.mem_cons_of_mem a List.mem_cons_self : b ∈ xs.filter p)
    rw [hfilter] at hnodup
    have hne : a ≠ b := fun heq => (List.nodup_cons.1 hnodup).1 (heq ▸ List.mem_cons_self)
    exact ⟨a, ha.1, b, hb.1, hne, ha.2, hb.2⟩

/-- Where a way leads: to the root without a link, or to the target of a link. -/
def leads (g : Linked n) (root : Fin n) : Option (Link n) → Option (Fin n)
  | none => some root
  | some l => g.target? l

/-- The ways that some nodes have to offer: the root, and the links of the nodes. -/
def ways (nodes : List (Fin n)) : List (Option (Link n)) :=
  none :: nodes.flatMap fun i => [some ⟨i, .child⟩, some ⟨i, .next⟩]

theorem mem_ways {nodes : List (Fin n)} {w : Option (Link n)} :
    w ∈ ways nodes ↔ ∀ l, w = some l → l.owner ∈ nodes := by
  rw [ways, List.mem_cons, List.mem_flatMap]
  constructor
  · rintro (rfl | ⟨i, hi, hw⟩) l hl
    · exact absurd hl.symm (Option.some_ne_none l)
    · simp only [List.mem_cons, List.not_mem_nil, or_false] at hw
      rcases hw with rfl | rfl <;> exact Option.some.inj hl ▸ hi
  · intro h
    cases w with
    | none => exact .inl rfl
    | some l =>
      refine .inr ⟨l.owner, h l rfl, ?_⟩
      obtain ⟨owner, side⟩ := l
      cases side <;> simp

theorem nodup_ways {nodes : List (Fin n)} (h : nodes.Nodup) : (ways nodes).Nodup := by
  rw [ways, List.nodup_cons, List.nodup_flatMap]
  refine ⟨by simp, fun i _ => by simp, h.imp ?_⟩
  intro i j hne
  simp [Function.onFun, Ne.symm hne]

/-- The nodes that one more node leads to. -/
theorem filterMap_leads_cons (i : Fin n) (nodes : List (Fin n)) :
    (ways (i :: nodes)).filterMap (g.leads root) =
      root :: ((g.cell i).child.toList ++ ((g.cell i).next.toList ++
        (ways nodes).tail.filterMap (g.leads root))) := by
  have hlinks : [some ⟨i, .child⟩, some ⟨i, .next⟩].filterMap (g.leads root) =
      (g.cell i).child.toList ++ (g.cell i).next.toList := by
    simp only [List.filterMap_cons, List.filterMap_nil, leads, target?]
    cases (g.cell i).child <;> cases (g.cell i).next <;> rfl
  rw [ways, List.flatMap_cons, List.filterMap_cons, List.filterMap_append, hlinks,
    List.append_assoc]
  rfl

/-! ## The walk -/

/-- The walk has marked the nodes `visited`, and found nothing wrong with each of them alone. The
nodes `waiting` come next. -/
structure Course (g : Linked n) (root : Fin n) (seen : Vector Bool n)
    (visited waiting : List (Fin n)) : Prop where
  nodup : visited.Nodup
  seen_iff : ∀ j (hj : j < n), seen[j] = true ↔ ⟨j, hj⟩ ∈ visited
  reachable : ∀ j ∈ visited, g.Reachable root j
  clean : ∀ j ∈ visited, g.violation? j = none
  account : ((ways visited).filterMap (g.leads root)).Perm (visited ++ waiting)

/-- The walk begins with the root. -/
theorem course_start (g : Linked n) (root : Fin n) :
    g.Course root (Vector.replicate n false) [] [root] where
  nodup := .nil
  seen_iff j hj := by simp
  reachable j hj := absurd hj List.not_mem_nil
  clean j hj := absurd hj List.not_mem_nil
  account := .refl _

variable {seen : Vector Bool n} {visited waiting pending : List (Fin n)} {i : Fin n}

/-- The order of those that wait does not matter. -/
theorem Course.perm (h : g.Course root seen visited waiting) {waiting' : List (Fin n)}
    (hperm : waiting.Perm waiting') : g.Course root seen visited waiting' :=
  { h with account := h.account.trans (hperm.append_left visited) }

/-- The owner of a known way can be reached. -/
theorem Course.reachable_owner (h : g.Course root seen visited waiting) {l : Link n}
    (hl : some l ∈ ways visited) : g.Reachable root l.owner :=
  h.reachable l.owner (mem_ways.1 hl l rfl)

/-- What waits can be reached. -/
theorem Course.reachable_waiting (h : g.Course root seen visited waiting) :
    ∀ j ∈ waiting, g.Reachable root j := by
  intro j hj
  have hmem : j ∈ (ways visited).filterMap (g.leads root) :=
    h.account.mem_iff.2 (List.mem_append_right visited hj)
  obtain ⟨w, hw, hlead⟩ := List.mem_filterMap.1 hmem
  cases w with
  | none =>
    obtain rfl := Option.some.inj hlead
    exact .root
  | some l => exact .step (h.reachable_owner hw) hlead

/-- **One step**: a new node is marked, and its links lead to two more that wait. -/
theorem Course.step (h : g.Course root seen visited (i :: pending)) (hnew : i ∉ visited)
    (hi : g.violation? i = none) :
    g.Course root (seen.set i true i.isLt) (i :: visited)
      ((g.cell i).child.toList ++ ((g.cell i).next.toList ++ pending)) where
  nodup := List.nodup_cons.2 ⟨hnew, h.nodup⟩
  seen_iff j hj := by
    by_cases hij : i.val = j
    · subst hij
      simp
    · have hne : ⟨j, hj⟩ ≠ i := fun heq => hij (congrArg Fin.val heq).symm
      rw [Vector.getElem_set_ne _ _ hij, h.seen_iff, List.mem_cons, or_iff_right hne]
  reachable := by
    rw [List.forall_mem_cons]
    exact ⟨h.reachable_waiting i List.mem_cons_self, h.reachable⟩
  clean := by
    rw [List.forall_mem_cons]
    exact ⟨hi, h.clean⟩
  account := by
    have haccount : (root :: (ways visited).tail.filterMap (g.leads root)).Perm
        (visited ++ i :: pending) := h.account
    rw [filterMap_leads_cons, List.perm_iff_count]
    intro j
    have hcount := haccount.count_eq j
    simp only [List.count_append, List.count_cons] at hcount ⊢
    omega

/-- **A marked node that comes up again** has two ways to it. -/
theorem Course.present_shared (h : g.Course root seen visited (i :: pending))
    (hvisited : i ∈ visited) : g.Present root (.shared (g.cell i).atom) := by
  have htwo : 2 ≤ (ways visited).countP (g.leads root · == some i) := by
    have hcount := h.account.count_eq i
    have hpos := List.count_pos_iff.2 hvisited
    rw [List.count_filterMap, List.count_append, List.count_cons_self] at hcount
    omega
  obtain ⟨w, hw, w', hw', hne, hlead, hlead'⟩ := exists_two (nodup_ways h.nodup) htwo
  rw [beq_iff_eq] at hlead hlead'
  cases w with
  | none =>
    obtain rfl := Option.some.inj hlead
    cases w' with
    | none => exact absurd rfl hne
    | some l' => exact .rootOwned (h.reachable_owner hw') hlead'
  | some l =>
    cases w' with
    | none =>
      obtain rfl := Option.some.inj hlead'
      exact .rootOwned (h.reachable_owner hw) hlead
    | some l' =>
      have hlinks : l ≠ l' := fun heq => hne (congrArg some heq)
      exact .shared (h.reachable_owner hw) (h.reachable_owner hw') hlinks hlead hlead'

section Done

variable (h : g.Course root seen visited [])

include h

/-- When no node waits, the ways lead to the marked nodes, to each as often as it is there. -/
theorem Course.account_done : ((ways visited).filterMap (g.leads root)).Perm visited := by
  simpa using h.account

theorem Course.mem_of_leads {w : Option (Link n)} {j : Fin n} (hw : w ∈ ways visited)
    (hlead : g.leads root w = some j) : j ∈ visited :=
  h.account_done.mem_iff.1 (List.mem_filterMap.2 ⟨w, hw, hlead⟩)

/-- All that can be reached is marked. -/
theorem Course.mem_of_reachable {j : Fin n} (hj : g.Reachable root j) : j ∈ visited := by
  induction hj with
  | root => exact h.mem_of_leads (w := none) List.mem_cons_self rfl
  | @step l j _ hlead hl =>
    have hway : some l ∈ ways visited := mem_ways.2 fun l' hl' => Option.some.inj hl' ▸ hl
    exact h.mem_of_leads hway hlead

theorem Course.mem_ways_of_reachable {l : Link n} (hl : g.Reachable root l.owner) :
    some l ∈ ways visited :=
  mem_ways.2 fun _ hl' => Option.some.inj hl' ▸ h.mem_of_reachable hl

/-- Each node has one way to it. -/
theorem Course.way_unique {w w' : Option (Link n)} (hw : w ∈ ways visited)
    (hw' : w' ∈ ways visited) {j : Fin n} (hj : g.leads root w = some j)
    (hj' : g.leads root w' = some j) : w = w' := by
  by_contra hne
  have hapart := List.pairwise_filterMap.1 (h.account_done.nodup_iff.2 h.nodup)
  have hsymm : Std.Symm fun w w' => ∀ j, g.leads root w = some j →
      ∀ j', g.leads root w' = some j' → j ≠ j' :=
    ⟨fun _ _ hapart j hj j' hj' => (hapart j' hj' j hj).symm⟩
  exact hapart.forall hw hw' hne j hj j hj' rfl

/-- **When no node waits**, what can be reached is a tree. -/
theorem Course.isTree : g.IsTree root where
  next_iff i hi := (violation?_eq_none (h.clean i (h.mem_of_reachable hi))).1
  child_iff i hi := (violation?_eq_none (h.clean i (h.mem_of_reachable hi))).2
  owner_unique l l' hl hl' j hj hj' := by
    have hway := h.mem_ways_of_reachable hl
    have hway' := h.mem_ways_of_reachable hl'
    exact Option.some.inj (h.way_unique hway hway' hj hj')
  root_free l hl hroot := by
    have hnone : none ∈ ways visited := List.mem_cons_self
    exact Option.some_ne_none l (h.way_unique (h.mem_ways_of_reachable hl) hnone hroot rfl)

end Done

/-- What the outcome of the walk says of the table. -/
def Tells (g : Linked n) (root : Fin n) : Except Violation Unit → Prop
  | .ok () => g.IsTree root
  | .error v => g.Present root v

/-- **The walk** tells the truth. -/
theorem Course.tells_walk (h : g.Course root seen visited (i :: pending)) :
    g.Tells root (g.walk seen pending i) := by
  fun_induction walk g seen pending i generalizing visited with
  | case1 seen pending i hseen => exact h.present_shared ((h.seen_iff i i.isLt).1 hseen)
  | case2 seen pending i hseen v hv =>
    exact present_of_violation? (h.reachable_waiting i List.mem_cons_self) hv
  | case3 seen pending i hseen hclean behind j hnext =>
    rename_i ih
    have hstep := h.step (fun hvisited => hseen ((h.seen_iff i i.isLt).2 hvisited)) hclean
    rw [hnext] at hstep
    exact ih (hstep.perm List.perm_middle)
  | case4 seen pending i hseen hclean behind j rest hbehind hnext =>
    rename_i ih
    have hstep := h.step (fun hvisited => hseen ((h.seen_iff i i.isLt).2 hvisited)) hclean
    have hwaiting : (g.cell i).child.toList ++ pending = j :: rest := hbehind
    rw [hnext, Option.toList_none, List.nil_append, hwaiting] at hstep
    exact ih hstep
  | case5 seen pending i hseen hclean behind hbehind =>
    rename_i hnext
    have hstep := h.step (fun hvisited => hseen ((h.seen_iff i i.isLt).2 hvisited)) hclean
    have hwaiting : (g.cell i).child.toList ++ pending = [] := hbehind
    rw [hnext, Option.toList_none, List.nil_append, hwaiting] at hstep
    exact hstep.isTree

/-! ## The report of a violation -/

/-- The atom that the report of a violation shows. -/
def Violation.shown? : Violation → Option Atom
  | shared a => some a
  | sentinelLinks a => some a
  | endsAt a => some a
  | _ => none

/-- The atom that is shown can be reached. -/
theorem Present.exists_reachable {v : Violation} (h : g.Present root v) {a : Atom}
    (ha : v.shown? = some a) : ∃ i, g.Reachable root i ∧ (g.cell i).atom = a := by
  cases h with
  | @shared l l' j hl hl' hne hj hj' => exact ⟨j, .step hl hj, Option.some.inj ha⟩
  | rootOwned hl hroot => exact ⟨root, .root, Option.some.inj ha⟩
  | branchWithoutChild hi hbranch hchild => exact absurd ha nofun
  | ownsChild hi hbranch hchild => exact absurd ha nofun
  | @sentinelLinks i j hi hnil hnext =>
    exact ⟨j, .step (l := ⟨i, .next⟩) hi hnext, Option.some.inj ha⟩
  | @endsAt i hi hnil hnext => exact ⟨i, hi, Option.some.inj ha⟩

/-- Only a violation that shows a long integer has no report. -/
theorem Violation.exists_of_message?_eq_none {v : Violation} (h : v.message? = none) :
    ∃ m, v.shown? = some (.int m) ∧ Numeral.isShort m = false := by
  have hshown : ∃ a, v.shown? = some a ∧ a.describe? = none := by
    cases v with
    | shared a => exact ⟨a, rfl, Option.map_eq_none_iff.1 h⟩
    | branchWithoutChild => exact absurd h (Option.some_ne_none _)
    | ownsChild kind => exact absurd h (Option.some_ne_none _)
    | sentinelLinks a => exact ⟨a, rfl, Option.map_eq_none_iff.1 h⟩
    | endsAt a => exact ⟨a, rfl, Option.map_eq_none_iff.1 h⟩
  obtain ⟨a, ha, hnone⟩ := hshown
  obtain ⟨m, rfl, hlong⟩ := Atom.exists_of_describe?_eq_none hnone
  exact ⟨m, ha, hlong⟩

theorem Violation.rejection_eq_named {v w : Violation} {message : String}
    (h : v.rejection = .named w message) : w = v ∧ v.message? = some message := by
  unfold rejection at h
  split at h
  · next text htext =>
    obtain ⟨rfl, rfl⟩ := Rejection.named.inj h
    exact ⟨rfl, htext⟩
  · exact absurd h Rejection.noConfusion

theorem Violation.rejection_eq_unwritable {v : Violation} :
    v.rejection = .unwritable ↔ v.message? = none := by
  unfold rejection
  cases v.message? <;> simp

/-! ## The check -/

/-- The check gives the root of a tree, or fails at a violation that is there. -/
theorem validate_cases (g : Linked n) (root : Fin n) :
    g.validate root = .ok root ∧ g.IsTree root ∨
      ∃ v, g.validate root = .error v.rejection ∧ g.Present root v := by
  have htells := (g.course_start root).tells_walk
  cases hwalk : g.walk (Vector.replicate n false) [] root with
  | ok =>
    rw [hwalk] at htells
    exact .inl ⟨by rw [validate, hwalk]; rfl, htells⟩
  | error v =>
    rw [hwalk] at htells
    exact .inr ⟨v, by rw [validate, hwalk]; rfl, htells⟩

theorem isTree_of_validate (h : g.validate root = .ok root) : g.IsTree root := by
  rcases g.validate_cases root with ⟨-, htree⟩ | ⟨v, hv, -⟩
  · exact htree
  · exact absurd (h.symm.trans hv) nofun

/-- **The check of a table** comes to an end, whatever links there are. It gives the root exactly if
what can be reached from the root is a tree. If it does not, then the violation that it names is
there, and the report is the one of this violation; only if a violation is there that shows a long
integer, the check may fail without naming any. -/
theorem validate_exact (g : Linked n) (root : Fin n) :
    (g.validate root = .ok root ↔ g.IsTree root) ∧
      (g.validate root = .ok root ∨ ∃ e, g.validate root = .error e) ∧
      (∀ v message, g.validate root = .error (.named v message) →
        g.Present root v ∧ v.message? = some message) ∧
      (g.validate root = .error .unwritable →
        ∃ v m, g.Present root v ∧ v.shown? = some (.int m) ∧ Numeral.isShort m = false ∧
          ∃ i, g.Reachable root i ∧ (g.cell i).atom = .int m) := by
  rcases g.validate_cases root with ⟨hvalid, htree⟩ | ⟨v, hv, hpresent⟩
  · rw [hvalid]
    exact ⟨iff_of_true rfl htree, .inl rfl, nofun, nofun⟩
  · rw [hv]
    refine ⟨iff_of_false nofun fun htree => htree.not_present v hpresent, .inr ⟨_, rfl⟩, ?_, ?_⟩
    · intro w message hw
      obtain ⟨rfl, hmessage⟩ := Violation.rejection_eq_named (Except.error.inj hw)
      exact ⟨hpresent, hmessage⟩
    · intro hw
      have hnone := Violation.rejection_eq_unwritable.1 (Except.error.inj hw)
      obtain ⟨m, hshown, hlong⟩ := Violation.exists_of_message?_eq_none hnone
      exact ⟨v, m, hpresent, hshown, hlong, hpresent.exists_reachable hshown⟩

/-- A table of one integer, at which the chain ends. -/
def loneInteger (m : Int) : Linked 1 := ⟨#v[⟨.int m, none, none⟩]⟩

theorem present_loneInteger (m : Int) : (loneInteger m).Present 0 (.endsAt (.int m)) :=
  .endsAt (g := loneInteger m) (i := 0) .root Atom.noConfusion rfl

theorem validate_loneInteger (m : Int) :
    (loneInteger m).validate 0 = .error (Violation.endsAt (.int m)).rejection := by
  have hviolation : (loneInteger m).violation? 0 = some (.endsAt (.int m)) := rfl
  rw [validate, walk, dif_neg (by simp)]
  simp only [hviolation]
  rfl

theorem validate_loneInteger_of_long {m : Int} (h : Numeral.isShort m = false) :
    (loneInteger m).validate 0 = .error .unwritable := by
  have hreport : (Violation.endsAt (.int m)).message? = none := by
    simp [Violation.message?, Atom.describe?, Numeral.shortText?, h]
  rw [validate_loneInteger, Violation.rejection_eq_unwritable.2 hreport]

/-- **A long integer at the end of a chain.** The violation is there, and the check fails without
naming it, for there is no report of it. -/
theorem validate_loneInteger_long :
    (loneInteger (Nat.pow 10 Numeral.maxDigits)).Present 0
        (.endsAt (.int (Nat.pow 10 Numeral.maxDigits))) ∧
      (loneInteger (Nat.pow 10 Numeral.maxDigits)).validate 0 = .error .unwritable ∧
      ∀ v message, (loneInteger (Nat.pow 10 Numeral.maxDigits)).validate 0 ≠
        .error (.named v message) := by
  have hvalidate := validate_loneInteger_of_long Numeral.isShort_pow
  exact ⟨present_loneInteger _, hvalidate, by rw [hvalidate]; exact nofun⟩

end Linked

end Sexpr
