import Mathlib.Data.Set.Card
import Sexpr.Proofs.Tree.Ownership
import Sexpr.Proofs.Tree.Recursion
import Sexpr.Proofs.Tree.Unfolding

/-!
# Tables without cycles

If no link leads back to its owner (`Linked.Acyclic`), then there is an unfolding, and
`Linked.unfold` finds it (`Acyclic.unfolds`): along a link fewer nodes can be reached, so no way is
longer than the table. The places of an unfolding are the nodes that can be reached
(`Unfolds.mem_places`).

A tree has no cycle, and no two of its nodes have a node below both unless one is below the other.
So its unfolding is well formed and meets each node once (`IsTree.unfolds`).
-/

namespace Sexpr

namespace Linked

variable {n : Nat} {g : Linked n} {root i j k : Fin n}

/-! ## Ways -/

theorem Reachable.trans (h : g.Reachable i j) (h' : g.Reachable j k) : g.Reachable i k := by
  induction h' with
  | root => exact h
  | step _ hl ih => exact .step ih hl

/-- A link in front of a way. -/
theorem Reachable.head {l : Link n} (hl : g.target? l = some j) (h : g.Reachable j k) :
    g.Reachable l.owner k :=
  .trans (.step .root hl) h

/-- What comes behind one of the links of a node. -/
theorem Reachable.behind (h : g.Reachable root i) (side : Side)
    (hj : g.target? ⟨i, side⟩ = some j) : g.Reachable root j :=
  .step (l := ⟨i, side⟩) h hj

/-- On a cycle a link leads back to each node. -/
theorem Reachable.exists_back {l : Link n} (h : g.Reachable j l.owner) (hl : g.target? l = some j) :
    ∃ l' : Link n, g.Reachable l.owner l'.owner ∧ g.target? l' = some l.owner := by
  cases h with
  | root => exact ⟨l, .root, hl⟩
  | @step l' _ howner hl' => exact ⟨l', .head hl howner, hl'⟩

/-! ## The places of an unfolding -/

section Places

variable {target : Option (Fin n)} {t : Tree} {places : List (Fin n)}

/-- The atoms of an unfolding are those at its places. -/
theorem Unfolds.preorder_eq (h : g.Unfolds target t places) :
    t.preorder = places.map fun j => (g.cell j).atom := by
  induction h with
  | absent => rw [Tree.preorder_absent, List.map_nil]
  | node _ _ ihchild ihnext =>
    rw [Tree.preorder_node, ihchild, ihnext, List.map_cons, List.map_append]

theorem Unfolds.root_mem (h : g.Unfolds (some i) t places) : i ∈ places := by
  cases h with
  | node => exact List.mem_cons_self

/-- An unfolding is closed under links. -/
theorem Unfolds.mem_of_link (h : g.Unfolds target t places) {l : Link n} (howner : l.owner ∈ places)
    (hl : g.target? l = some j) : j ∈ places := by
  induction h with
  | absent => exact absurd howner List.not_mem_nil
  | @node i child next cs ns hchild hnext ihchild ihnext =>
    rw [List.mem_cons, List.mem_append] at howner ⊢
    rcases howner with rfl | howner | howner
    · obtain ⟨i, side⟩ := l
      cases side with
      | child =>
        replace hchild : g.Unfolds (g.target? ⟨i, .child⟩) child cs := hchild
        rw [hl] at hchild
        exact .inr (.inl hchild.root_mem)
      | next =>
        replace hnext : g.Unfolds (g.target? ⟨i, .next⟩) next ns := hnext
        rw [hl] at hnext
        exact .inr (.inr hnext.root_mem)
    · exact .inr (.inl (ihchild howner))
    · exact .inr (.inr (ihnext howner))

theorem Unfolds.reachable (h : g.Unfolds target t places) (hj : j ∈ places) :
    ∃ i, target = some i ∧ g.Reachable i j := by
  induction h with
  | absent => exact absurd hj List.not_mem_nil
  | @node i child next cs ns _ _ ihchild ihnext =>
    refine ⟨i, rfl, ?_⟩
    rw [List.mem_cons, List.mem_append] at hj
    rcases hj with rfl | hj | hj
    · exact .root
    · obtain ⟨k, hk, hreach⟩ := ihchild hj
      exact hreach.head (l := ⟨i, .child⟩) hk
    · obtain ⟨k, hk, hreach⟩ := ihnext hj
      exact hreach.head (l := ⟨i, .next⟩) hk

/-- **The places of an unfolding** are the nodes that can be reached. -/
theorem Unfolds.mem_places (h : g.Unfolds target t places) :
    j ∈ places ↔ ∃ i, target = some i ∧ g.Reachable i j := by
  constructor
  · exact h.reachable
  · rintro ⟨i, rfl, hj⟩
    induction hj with
    | root => exact h.root_mem
    | step _ hl ih => exact h.mem_of_link ih hl

end Places

/-! ## Without cycles -/

/-- No link that can be reached leads to a node from which its owner can be reached. -/
def Acyclic (g : Linked n) (root : Fin n) : Prop :=
  ∀ (l : Link n) (j : Fin n), g.Reachable root l.owner → g.target? l = some j →
    ¬g.Reachable j l.owner

/-- There is no cycle if every link leads further on in the table. -/
theorem acyclic_of_lt
    (h : ∀ i, (∀ j ∈ (g.cell i).child, i < j) ∧ ∀ j ∈ (g.cell i).next, i < j) (root : Fin n) :
    g.Acyclic root := by
  have hlink {l : Link n} {j : Fin n} (hl : g.target? l = some j) : l.owner < j := by
    obtain ⟨i, side⟩ := l
    cases side with
    | child => exact (h i).1 j hl
    | next => exact (h i).2 j hl
  have hle {j k : Fin n} (hreach : g.Reachable j k) : j ≤ k := by
    induction hreach with
    | root => exact le_rfl
    | step _ hl ih => exact ih.trans (hlink hl).le
  intro l j _ hl hback
  exact absurd (hlink hl) (hle hback).not_gt

theorem Acyclic.mono (h : g.Acyclic root) (hi : g.Reachable root i) : g.Acyclic i :=
  fun l j howner hl => h l j (hi.trans howner) hl

/-- Along a link fewer nodes can be reached. -/
theorem Acyclic.ncard_lt (h : g.Acyclic root) {l : Link n} (howner : l.owner = root)
    (hl : g.target? l = some j) :
    {k | g.Reachable j k}.ncard < {k | g.Reachable root k}.ncard := by
  apply Set.ncard_lt_ncard _ (Set.toFinite _)
  subst howner
  refine ⟨fun k hk => Reachable.head hl hk, fun hsubset => ?_⟩
  exact h l j .root hl (hsubset Reachable.root)

theorem Acyclic.exists_unfolding (h : g.Acyclic root) :
    ∃ t places, g.Unfolds (some root) t places ∧ t.height ≤ {k | g.Reachable root k}.ncard := by
  -- the induction is on how many nodes can be reached
  induction hcount : {k | g.Reachable root k}.ncard using Nat.strongRecOn generalizing root with
  | ind count ih =>
    have hside (side : Side) : ∃ t places, g.Unfolds (g.target? ⟨root, side⟩) t places ∧
        t.height + 1 ≤ count := by
      cases htarget : g.target? ⟨root, side⟩ with
      | none =>
        have hpos : 0 < {k | g.Reachable root k}.ncard :=
          (Set.ncard_pos (Set.toFinite _)).2 ⟨root, .root⟩
        exact ⟨.absent, [], .absent, hcount ▸ hpos⟩
      | some j =>
        have hlt := h.ncard_lt rfl htarget
        rw [hcount] at hlt
        have hacyclic : g.Acyclic j := h.mono (Reachable.root.behind side htarget)
        obtain ⟨t, places, hunfolds, hheight⟩ := ih _ hlt hacyclic rfl
        exact ⟨t, places, hunfolds, by omega⟩
    obtain ⟨child, cs, hchild, hheight⟩ := hside .child
    obtain ⟨next, ns, hnext, hheight'⟩ := hside .next
    refine ⟨_, _, .node hchild hnext, ?_⟩
    rw [Tree.height]
    omega

/-- **What is seen** from the root of a table without cycles is its unfolding. -/
theorem Acyclic.unfolds (h : g.Acyclic root) :
    ∃ places, g.Unfolds (some root) (g.unfold root) places := by
  obtain ⟨t, places, hunfolds, hheight⟩ := h.exists_unfolding
  have hcount : {k | g.Reachable root k}.ncard ≤ n := by
    have := Set.ncard_le_ncard (Set.subset_univ {k | g.Reachable root k}) Set.finite_univ
    rwa [Set.ncard_univ, Nat.card_fin] at this
  have hseen : g.unfold root = t := hunfolds.look_unfoldings (hheight.trans hcount)
  exact ⟨places, hseen ▸ hunfolds⟩

/-! ## Trees -/

/-- No node of a tree comes behind itself. -/
theorem IsTree.not_back (h : g.IsTree root) (hk : g.Reachable root k) {l : Link n}
    (howner : g.Reachable k l.owner) : g.target? l ≠ some k := by
  -- going back from a node on a cycle to its owner stays on the cycle, and ends at the root
  induction hk generalizing l with
  | root => exact h.root_free l howner
  | @step m j hreach hm ih =>
    intro hl
    have hroot : g.Reachable root l.owner := (Reachable.step hreach hm).trans howner
    obtain rfl := h.owner_unique m l hreach hroot j hm hl
    obtain ⟨l', howner', hl'⟩ := howner.exists_back hm
    exact ih howner' hl'

/-- A tree has no cycle. -/
theorem IsTree.acyclic (h : g.IsTree root) : g.Acyclic root := by
  intro l j howner hl hcycle
  obtain ⟨l', howner', hl'⟩ := hcycle.exists_back hl
  exact h.not_back howner howner' hl'

/-- A way to a node other than its start comes through the owner of the node. -/
theorem IsTree.reachable_owner (h : g.IsTree root) (hi : g.Reachable root i) {l : Link n}
    (howner : g.Reachable root l.owner) (hl : g.target? l = some j) (hj : g.Reachable i j) :
    i = j ∨ g.Reachable i l.owner := by
  cases hj with
  | root => exact .inl rfl
  | @step l' _ howner' hl' =>
    obtain rfl := h.owner_unique l l' howner (hi.trans howner') j hl hl'
    exact .inr howner'

/-- Of two nodes with a node below both, one is below the other. -/
theorem IsTree.comparable (h : g.IsTree root) (hi : g.Reachable root i) (hj : g.Reachable root j)
    (hik : g.Reachable i k) (hjk : g.Reachable j k) : g.Reachable i j ∨ g.Reachable j i := by
  induction hik with
  | root => exact .inr hjk
  | @step l k howner hl ih =>
    rcases h.reachable_owner hj (hi.trans howner) hl hjk with rfl | howner'
    · exact .inl (.step howner hl)
    · exact ih howner'

/-- What comes behind one link of a node does not come behind the other one. -/
theorem IsTree.disjoint (h : g.IsTree root) (hi : g.Reachable root i) {side side' : Side}
    (hne : side ≠ side') (hj : g.target? ⟨i, side⟩ = some j) (hk : g.target? ⟨i, side'⟩ = some k) :
    ¬g.Reachable j k := by
  intro hjk
  have hreach : g.Reachable root j := hi.behind side hj
  rcases h.reachable_owner hreach (l := ⟨i, side'⟩) hi hk hjk with rfl | hback
  · exact hne (Link.mk.inj (h.owner_unique ⟨i, side⟩ ⟨i, side'⟩ hi hi j hj hk)).2
  · exact h.acyclic ⟨i, side⟩ j hi hj hback

/-- Each node of a tree is seen once. -/
theorem Unfolds.nodup {target : Option (Fin n)} {t : Tree} {places : List (Fin n)}
    (hunfolds : g.Unfolds target t places) (h : g.IsTree root)
    (htarget : ∀ i, target = some i → g.Reachable root i) : places.Nodup := by
  induction hunfolds with
  | absent => exact .nil
  | @node i child next cs ns hchild hnext ihchild ihnext =>
    have hi : g.Reachable root i := htarget i rfl
    rw [List.nodup_cons, List.mem_append, not_or, List.nodup_append]
    refine ⟨⟨?_, ?_⟩, ihchild fun j => hi.behind .child, ihnext fun j => hi.behind .next, ?_⟩
    · intro hmem
      obtain ⟨j, hj, hback⟩ := hchild.reachable hmem
      exact h.acyclic ⟨i, .child⟩ j hi hj hback
    · intro hmem
      obtain ⟨j, hj, hback⟩ := hnext.reachable hmem
      exact h.acyclic ⟨i, .next⟩ j hi hj hback
    · have hsides : Side.child ≠ Side.next := Side.noConfusion
      rintro a ha b hb rfl
      obtain ⟨j, hj, hja⟩ := hchild.reachable ha
      obtain ⟨k, hk, hka⟩ := hnext.reachable hb
      rcases h.comparable (hi.behind .child hj) (hi.behind .next hk) hja hka with hjk | hkj
      · exact h.disjoint hi hsides hj hk hjk
      · exact h.disjoint hi hsides.symm hk hj hkj

/-- A node of a tree is a sentinel, a list with a chain of its own, or another one without. -/
theorem IsTree.cell_cases (h : g.IsTree root) (hi : g.Reachable root i) :
    g.cell i = ⟨.nil, none, none⟩ ∨ (∃ j k, g.cell i = ⟨.branch, some j, some k⟩) ∨
      ∃ a k, a ≠ .nil ∧ a ≠ .branch ∧ g.cell i = ⟨a, none, some k⟩ := by
  have hnone := h.next_iff i hi
  have hsome := h.child_iff i hi
  generalize g.cell i = c at hnone hsome ⊢
  obtain ⟨a, child, next⟩ := c
  cases child with
  | none =>
    have hbranch : a ≠ .branch := fun hbranch => hsome.2 hbranch rfl
    cases next with
    | none =>
      obtain rfl := hnone.1 rfl
      exact .inl rfl
    | some k =>
      have hnil : a ≠ .nil := fun hnil => Option.some_ne_none k (hnone.2 hnil)
      exact .inr (.inr ⟨a, k, hnil, hbranch, rfl⟩)
  | some j =>
    obtain rfl := hsome.1 (Option.some_ne_none j)
    cases next with
    | none => exact absurd (hnone.1 rfl) Atom.noConfusion
    | some k => exact .inr (.inl ⟨j, k, rfl⟩)

/-- A tree is seen as one. -/
theorem Unfolds.wellFormed {t : Tree} {places : List (Fin n)}
    (hunfolds : g.Unfolds (some i) t places) (h : g.IsTree root) (hi : g.Reachable root i) :
    t.WellFormed := by
  generalize htarget : some i = target at hunfolds
  induction hunfolds generalizing i with
  | absent => exact absurd htarget (Option.some_ne_none i)
  | @node i' child next cs ns hchild hnext ihchild ihnext =>
    obtain rfl := Option.some.inj htarget
    have hchildOf : g.target? ⟨i, .child⟩ = (g.cell i).child := rfl
    have hnextOf : g.target? ⟨i, .next⟩ = (g.cell i).next := rfl
    rcases h.cell_cases hi with hcell | ⟨j, k, hcell⟩ | ⟨a, k, hnil, hbranch, hcell⟩
    · rw [hcell] at hchild hnext ⊢
      cases hchild
      cases hnext
      exact .sentinel
    · rw [hcell] at ihchild ihnext hchildOf hnextOf ⊢
      exact .branch (ihchild (hi.behind .child hchildOf) rfl) (ihnext (hi.behind .next hnextOf) rfl)
    · rw [hcell] at hchild ihnext hnextOf ⊢
      cases hchild
      exact .leaf hnil hbranch (ihnext (hi.behind .next hnextOf) rfl)

/-- **What is seen of a tree** is well formed, and each node that can be reached is seen once. -/
theorem IsTree.unfolds (h : g.IsTree root) :
    ∃ places, g.Unfolds (some root) (g.unfold root) places ∧ (g.unfold root).WellFormed ∧
      places.Nodup ∧ ∀ j, j ∈ places ↔ g.Reachable root j := by
  obtain ⟨places, hunfolds⟩ := h.acyclic.unfolds
  refine ⟨places, hunfolds, hunfolds.wellFormed h .root, ?_, fun j => ?_⟩
  · apply hunfolds.nodup h
    intro i hi
    obtain rfl := Option.some.inj hi
    exact .root
  · simp [hunfolds.mem_places]

end Linked

end Sexpr
