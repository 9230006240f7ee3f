import Mathlib.Data.List.Range
import Sexpr.Proofs.Tree.Unfolding

/-!
# Trees in a table

`Linked.Laid` says that a tree is laid out in a table of nodes, and at which places: a chain of
links leads through each of its nodes. When no place occurs twice, the walk that checks the table
meets nothing wrong (`validate_of_laid`), and the tree is what is seen by following the links
(`unfold_of_laid`).

The table that is made of a tree has it laid out like that (`laid_layOut`), so checking a tree
comes down to its shape (`validateTree_of_wellFormed`).
-/

namespace Sexpr

namespace Linked

/-- A tree is laid out in some entries behind a link, at some places: those of the first node, of
its child, of its next. -/
inductive Laid (entries : Array Entry) : Option Nat → Tree → List Nat → Prop
  | absent : Laid entries none .absent []
  | node {i : Nat} {a : Atom} {child next : Tree} {c n : Option Nat} {cs ns : List Nat} :
    entries[i]? = some ⟨a, c, n⟩ → Laid entries c child cs → Laid entries n next ns →
    Laid entries (some i) (.node a child next) (i :: (cs ++ ns))

variable {entries : Array Entry}

/-- Only the entries at the places of a tree count. -/
theorem Laid.congr {link : Option Nat} {t : Tree} {cells : List Nat} (h : Laid entries link t cells)
    {entries' : Array Entry} (heq : ∀ j ∈ cells, entries'[j]? = entries[j]?) :
    Laid entries' link t cells := by
  induction h with
  | absent => exact .absent
  | node hi _ _ hchild hnext =>
    rw [List.forall_mem_cons, List.forall_mem_append] at heq
    obtain ⟨hself, hcs, hns⟩ := heq
    exact .node (hself.trans hi) (hchild hcs) (hnext hns)

theorem Laid.lt_size {link : Option Nat} {t : Tree} {cells : List Nat}
    (h : Laid entries link t cells) : ∀ j ∈ cells, j < entries.size := by
  induction h with
  | absent => simp
  | node hi _ _ hchild hnext =>
    obtain ⟨hlt, -⟩ := Array.getElem?_eq_some_iff.1 hi
    rw [List.forall_mem_cons, List.forall_mem_append]
    exact ⟨hlt, hchild, hnext⟩

theorem Laid.root_mem {i : Nat} {t : Tree} {cells : List Nat}
    (h : Laid entries (some i) t cells) : i ∈ cells := by
  cases h with
  | node => exact List.mem_cons_self

theorem Laid.eq_none {link : Option Nat} {cells : List Nat} (h : Laid entries link .absent cells) :
    link = none ∧ cells = [] := by
  cases h with
  | absent => exact ⟨rfl, rfl⟩

/-- A tree with nodes lies behind a link to one. -/
theorem Laid.exists_link {link : Option Nat} {t : Tree} {cells : List Nat}
    (h : Laid entries link t cells) (ht : t.WellFormed) : ∃ i, link = some i := by
  cases h with
  | absent => cases ht
  | node => exact ⟨_, rfl⟩

/-! ## Cells -/

theorem link_some {n j : Nat} (h : j < n) : link n (some j) = some ⟨j, h⟩ := by
  simp [link, h]

theorem cell_ofEntries {i : Nat} (hi : i < entries.size) {e : Entry} (h : entries[i]? = some e) :
    (ofEntries entries).cell ⟨i, hi⟩ =
      ⟨e.atom, link entries.size e.child, link entries.size e.next⟩ := by
  have he : entries[i] = e := (Array.getElem?_eq_some_iff.1 h).2
  simp [cell, ofEntries, he]

/-! ## The walk -/

section

variable {g : Linked entries.size} {seen : Vector Bool entries.size} {i : Fin entries.size}

/-- The walk at the end of a chain. -/
theorem walk_sentinel (hseen : seen[i] = false) (hcell : g.cell i = ⟨.nil, none, none⟩)
    (pending : List (Fin entries.size)) :
    g.walk seen pending i =
      match pending with
      | [] => .ok ()
      | j :: pending => g.walk (seen.set i true) pending j := by
  have hviolation : g.violation? i = none := by simp [violation?, hcell]
  rw [walk, dif_neg (by simp [hseen])]
  simp only [hviolation, hcell, Option.toList_none, List.nil_append]
  cases pending <;> rfl

/-- The walk at a node that goes on, and owns a chain if it is a list. -/
theorem walk_node (hseen : seen[i] = false) {a : Atom} {child : Option (Fin entries.size)}
    {j : Fin entries.size} (hcell : g.cell i = ⟨a, child, some j⟩) (hnil : a ≠ .nil)
    (hchild : a = .branch ↔ child ≠ none) (pending : List (Fin entries.size)) :
    g.walk seen pending i = g.walk (seen.set i true) (child.toList ++ pending) j := by
  have hviolation : g.violation? i = none := by
    simp only [violation?, hcell, hnil, ↓reduceIte]
    by_cases hbranch : a = .branch
    · simp [hbranch, hchild.1 hbranch]
    · have hnone : child = none := by simpa using mt hchild.2 hbranch
      simp [hbranch, hnone]
  rw [walk, dif_neg (by simp [hseen])]
  simp only [hviolation, hcell]

end

/-- The chains at some places are well formed, and laid out at the places of a list, one chain
after the other. -/
inductive Pending (entries : Array Entry) : List (Fin entries.size) → List Nat → Prop
  | nil : Pending entries [] []
  | cons {j : Fin entries.size} {js : List (Fin entries.size)} {t : Tree} {cs rest : List Nat} :
    t.WellFormed → Laid entries (some j) t cs → Pending entries js rest →
    Pending entries (j :: js) (cs ++ rest)

/-- The places that are still to be walked are new, and no marked one is among them. -/
structure Unseen (seen : Vector Bool entries.size) (cells : List Nat) : Prop where
  nodup : cells.Nodup
  unseen : ∀ j : Fin entries.size, j.val ∈ cells → seen[j] = false

theorem Unseen.set {seen : Vector Bool entries.size} {i : Fin entries.size} {cells : List Nat}
    (h : Unseen seen (i.val :: cells)) {cells' : List Nat} (hperm : cells'.Perm cells) :
    Unseen (seen.set i true) cells' := by
  obtain ⟨hnodup, hunseen⟩ := h
  rw [List.nodup_cons] at hnodup
  refine ⟨hperm.nodup_iff.2 hnodup.2, ?_⟩
  intro j hj
  have hmem : j.val ∈ cells := hperm.mem_iff.1 hj
  have hne : i.val ≠ j.val := fun heq => hnodup.1 (heq ▸ hmem)
  have hj := hunseen j (List.mem_cons_of_mem _ hmem)
  simpa [Vector.getElem_set, hne] using hj

theorem Laid.lt {i : Nat} {t : Tree} {cells : List Nat} (h : Laid entries (some i) t cells) :
    i < entries.size := h.lt_size i h.root_mem

/-- **The walk** meets nothing wrong in well-formed chains that share no place. -/
theorem walk_of_laid {seen : Vector Bool entries.size} {pending : List (Fin entries.size)}
    {i : Fin entries.size} {cells : List Nat} (hpending : Pending entries (i :: pending) cells)
    (hunseen : Unseen seen cells) : (ofEntries entries).walk seen pending i = .ok () := by
  -- each step marks one place, and the places of a child are put off behind those of the next
  induction hn : cells.length using Nat.strongRecOn generalizing seen pending i cells with
  | ind count ih =>
    rcases hpending with _ | ⟨ht, hlaid, hrest⟩
    rcases hlaid with _ | ⟨hi, hchild, hnext⟩
    have hseen := hunseen.unseen i List.mem_cons_self
    have hcell := cell_ofEntries i.isLt hi
    cases ht with
    | sentinel =>
      obtain ⟨rfl, rfl⟩ := hchild.eq_none
      obtain ⟨rfl, rfl⟩ := hnext.eq_none
      rw [walk_sentinel hseen hcell]
      cases hrest with
      | nil => rfl
      | cons ht' hlaid' hrest' =>
        refine ih _ ?_ (.cons ht' hlaid' hrest') (hunseen.set (.refl _)) rfl
        rw [← hn]
        simp
    | branch hwchild hwnext =>
      obtain ⟨j, rfl⟩ := hchild.exists_link hwchild
      obtain ⟨k, rfl⟩ := hnext.exists_link hwnext
      rw [link_some hchild.lt, link_some hnext.lt] at hcell
      rw [walk_node hseen hcell Atom.noConfusion (by simp)]
      refine ih _ ?_ (.cons hwnext hnext (.cons hwchild hchild hrest)) (hunseen.set ?_) rfl
      · rw [← hn]
        simp only [List.length_append, List.length_cons]
        omega
      · rw [← List.append_assoc]
        exact List.perm_append_comm.append_right _
    | leaf hnil hbranch hwnext =>
      obtain ⟨rfl, rfl⟩ := hchild.eq_none
      obtain ⟨k, rfl⟩ := hnext.exists_link hwnext
      rw [link_some hnext.lt] at hcell
      rw [walk_node hseen hcell hnil (by simp [hbranch, link])]
      refine ih _ ?_ (.cons hwnext hnext hrest) (hunseen.set (.refl _)) rfl
      rw [← hn]
      simp

/-- **A tree that is laid out passes the check** if it is well formed and no place occurs twice. -/
theorem validate_of_laid {i : Fin entries.size} {t : Tree} {cells : List Nat}
    (h : Laid entries (some i) t cells) (ht : t.WellFormed) (hnodup : cells.Nodup) :
    (ofEntries entries).validate i = .ok i := by
  have hpending : Pending entries [i] (cells ++ []) := .cons ht h .nil
  rw [List.append_nil] at hpending
  have hunseen : Unseen (Vector.replicate entries.size false) cells :=
    ⟨hnodup, fun j _ => by simp⟩
  rw [validate, walk_of_laid hpending hunseen]
  rfl

/-! ## Following the links -/

/-- What is laid out is what is seen. -/
theorem Laid.unfolds {target : Option Nat} {t : Tree} {cells : List Nat}
    (h : Laid entries target t cells) :
    ∃ places, (ofEntries entries).Unfolds (link entries.size target) t places ∧
      places.length = cells.length := by
  induction h with
  | absent => exact ⟨[], .absent, rfl⟩
  | @node i a child next c n cs ns hi hchild hnext ihchild ihnext =>
    have hlt : i < entries.size := (Laid.node hi hchild hnext).lt
    have hcell := cell_ofEntries hlt hi
    obtain ⟨ps, hps, hlength⟩ := ihchild
    obtain ⟨qs, hqs, hlength'⟩ := ihnext
    rw [link_some hlt]
    exact ⟨⟨i, hlt⟩ :: (ps ++ qs), unfolds_of_cell hcell hps hqs, by simp [hlength, hlength']⟩

/-- A list of different places is no longer than the table. -/
theorem length_le_of_nodup {n : Nat} {cells : List Nat} (hnodup : cells.Nodup)
    (hlt : ∀ j ∈ cells, j < n) : cells.length ≤ n := by
  have hsubset : cells ⊆ List.range n := fun j hj => List.mem_range.2 (hlt j hj)
  have hle := hnodup.length_le_of_subset hsubset
  rwa [List.length_range] at hle

/-- **A tree that is laid out is what is seen** from its root. -/
theorem unfold_of_laid {i : Fin entries.size} {t : Tree} {cells : List Nat}
    (h : Laid entries (some i) t cells) (hnodup : cells.Nodup) :
    (ofEntries entries).unfold i = t := by
  obtain ⟨places, hunfolds, hlength⟩ := h.unfolds
  have hle : t.height ≤ entries.size :=
    hunfolds.height_le.trans (hlength.trans_le (length_le_of_nodup hnodup h.lt_size))
  rw [link_some i.isLt] at hunfolds
  exact hunfolds.look_unfoldings hle

/-! ## The table of a tree -/

/-- The nodes of a tree, each before its child and its next. -/
def slots : Tree → List Slot
  | .absent => []
  | .node a child next => ⟨a, !child.isAbsent, !next.isAbsent⟩ :: (slots child ++ slots next)

theorem slotsOnto_eq (work : List Tree) (found : List Slot) :
    slotsOnto work found = (work.flatMap slots).reverse ++ found := by
  induction work, found using slotsOnto.induct with
  | case1 found => rw [slotsOnto]; rfl
  | case2 work found ih => rw [slotsOnto, ih, List.flatMap_cons, slots, List.nil_append]
  | case3 a child next work found ih =>
    rw [slotsOnto, ih]
    simp [slots]

theorem Laid.isAbsent_eq {head : Option Nat} {t : Tree} {cells : List Nat}
    (h : Laid entries head t cells) : (!t.isAbsent) = head.isSome := by
  cases h <;> rfl

theorem claim_toList (head : Option Nat) (heads : List Nat) :
    claim head.isSome (head.toList ++ heads) = (head, heads) := by
  cases head <;> rfl

/-- An entry behind the others changes none of them. -/
theorem getElem?_push_of_lt {e : Entry} {j : Nat} (h : j < entries.size) :
    (entries.push e)[j]? = entries[j]? := by
  rw [Array.getElem?_push, if_neg h.ne]

/-- What laying out a tree does to a table and to the heads that wait for an owner: the tree is
laid out behind the old entries, and its head, if it has one, waits in front of the others. -/
structure Placed (before after : Array Entry × List Nat) (t : Tree) : Prop where
  size_le : before.1.size ≤ after.1.size
  old : ∀ j < before.1.size, after.1[j]? = before.1[j]?
  laid : ∃ head cells, Laid after.1 head t cells ∧ cells.Nodup ∧
    (∀ j ∈ cells, before.1.size ≤ j) ∧ after.2 = head.toList ++ before.2 ∧
    ∀ i, head = some i → after.1.size = i + 1

theorem placed_slots (t : Tree) (laid : Array Entry × List Nat) :
    Placed laid ((slots t).reverse.foldl place laid) t := by
  induction t generalizing laid with
  | absent => exact ⟨le_rfl, fun _ _ => rfl, none, [], .absent, by simp, by simp, rfl, by simp⟩
  | node a child next ihchild ihnext =>
    -- first the next is laid out, then the child, and then the node itself takes both heads
    have hnext := ihnext laid
    have hchild := ihchild ((slots next).reverse.foldl place laid)
    rw [slots, List.reverse_cons, List.reverse_append, List.append_assoc, List.foldl_append,
      List.foldl_append, List.foldl_cons, List.foldl_nil]
    generalize (slots next).reverse.foldl place laid = behind at hnext hchild ⊢
    generalize (slots child).reverse.foldl place behind = below at hchild ⊢
    obtain ⟨hsize, hold, nhead, ns, hlaid, hnodup, hns, hheads, -⟩ := hnext
    obtain ⟨hsize', hold', chead, cs, hlaid', hnodup', hcs, hheads', -⟩ := hchild
    obtain ⟨entries, heads⟩ := below
    simp only at hsize' hold' hlaid' hheads'
    have hplace : place (entries, heads) ⟨a, !child.isAbsent, !next.isAbsent⟩ =
        (entries.push ⟨a, chead, nhead⟩, entries.size :: laid.2) := by
      rw [place, hheads', hheads, hlaid'.isAbsent_eq, hlaid.isAbsent_eq, claim_toList]
      simp only [claim_toList]
    have hns' : ∀ j ∈ ns, j < behind.1.size := hlaid.lt_size
    have hcs' : ∀ j ∈ cs, j < entries.size := hlaid'.lt_size
    rw [hplace]
    refine ⟨?_, ?_, some entries.size, entries.size :: (cs ++ ns), ?_, ?_, ?_, rfl, ?_⟩
    · simp only [Array.size_push]
      omega
    · intro j hj
      rw [getElem?_push_of_lt (by omega), hold' j (by omega), hold j hj]
    · have hself : (entries.push ⟨a, chead, nhead⟩)[entries.size]? = some ⟨a, chead, nhead⟩ := by
        simp
      refine .node hself (hlaid'.congr fun j hj => getElem?_push_of_lt (hcs' j hj)) ?_
      apply hlaid.congr
      intro j hj
      have hlt := hns' j hj
      rw [getElem?_push_of_lt (by omega), hold' j hlt]
    · rw [List.nodup_cons, List.mem_append, not_or, List.nodup_append]
      refine ⟨⟨fun h => absurd (hcs' _ h) (lt_irrefl _), ?_⟩, hnodup', hnodup, ?_⟩
      · intro h
        have := hns' _ h
        omega
      · intro j hj k hk
        have := hcs j hj
        have := hns' k hk
        omega
    · intro j hj
      rw [List.mem_cons, List.mem_append] at hj
      rcases hj with rfl | hj | hj
      · omega
      · have := hcs j hj
        omega
      · exact hns j hj
    · intro i hi
      rw [← Option.some.inj hi, Array.size_push]

/-- **The table of a tree** has it laid out, with the root behind all other nodes. -/
theorem laid_layOut (t : Tree) : ∃ head cells, Laid (layOut t) head t cells ∧ cells.Nodup ∧
    ∀ i, head = some i → (layOut t).size = i + 1 := by
  obtain ⟨-, -, head, cells, hlaid, hnodup, -, -, hsize⟩ := placed_slots t (#[], [])
  have hslots : slotsOnto [t] [] = (slots t).reverse := by
    rw [slotsOnto_eq, List.append_nil, List.flatMap_singleton]
  rw [← hslots] at hlaid hsize
  exact ⟨head, cells, hlaid, hnodup, hsize⟩

/-- **A well-formed tree passes the check.** -/
theorem validateTree_of_wellFormed {t : Tree} (h : t.WellFormed) : validateTree t = .ok () := by
  obtain ⟨head, cells, hlaid, hnodup, hsize⟩ := laid_layOut t
  obtain ⟨i, rfl⟩ := hlaid.exists_link h
  have hlast : i = (layOut t).size - 1 := by rw [hsize i rfl]; rfl
  have hpos : 0 < (layOut t).size := by rw [hsize i rfl]; exact Nat.succ_pos i
  subst hlast
  have hvalid := validate_of_laid (i := ⟨(layOut t).size - 1, Nat.sub_one_lt_of_lt hpos⟩) hlaid h
    hnodup
  rw [validateTree, dif_pos hpos, ofTree, hvalid]
  rfl

end Linked

end Sexpr
