/-!
# Loops that need not end

A loop that follows links may come back to where it was. So a loop is given by its body, which does
one round. `Loop.run` does a number of rounds. `Loop.Reaches` and `Loop.EndsWith` say to which
states a loop comes, and with which result it ends, however many rounds it takes. `Loop.Reaches`
also keeps what is seen on the way.
-/

namespace Sexpr

namespace Loop

variable {State Result Sight : Type}

/-- Does at most `rounds` rounds of a loop. The body gives the next state, or the result. -/
def run (body : State → State ⊕ Result) : Nat → State → Option Result
  | 0, _ => none
  | rounds + 1, state =>
    match body state with
    | .inl next => run body rounds next
    | .inr result => some result

/-- The loop comes to an end, and to a result. -/
def EndsWith (body : State → State ⊕ Result) (state : State) (result : Result) : Prop :=
  ∃ rounds, run body rounds state = some result

/-- The loop comes from one state to another one. The list is what is seen of the states in front of
the last one. -/
inductive Reaches (body : State → State ⊕ Result) (see : State → Option Sight) :
    State → List Sight → State → Prop
  | refl (state : State) : Reaches body see state [] state
  | head {state next last : State} {seen : List Sight} :
    body state = .inl next → Reaches body see next seen last →
    Reaches body see state ((see state).toList ++ seen) last

variable {body : State → State ⊕ Result} {see : State → Option Sight}
  {state next last last' : State} {seen seen' : List Sight} {result result' : Result}

theorem Reaches.trans (h : Reaches body see state seen next)
    (h' : Reaches body see next seen' last) : Reaches body see state (seen ++ seen') last := by
  induction h with
  | refl => exact h'
  | head hround _ ih =>
    rw [List.append_assoc]
    exact .head hround (ih h')

/-- **A loop has one way** to its end. -/
theorem Reaches.unique (h : Reaches body see state seen last) (hend : body last = .inr result)
    (h' : Reaches body see state seen' last') (hend' : body last' = .inr result') :
    seen = seen' := by
  induction h generalizing seen' with
  | refl =>
    cases h' with
    | refl => rfl
    | head hround _ => exact absurd (hend.symm.trans hround) Sum.inr_ne_inl
  | head hround _ ih =>
    cases h' with
    | refl => exact absurd (hend'.symm.trans hround) Sum.inr_ne_inl
    | head hround' hrest =>
      obtain rfl := Sum.inl.inj (hround.symm.trans hround')
      rw [ih hend hrest]

theorem EndsWith.now (h : body state = .inr result) : EndsWith body state result := by
  refine ⟨1, ?_⟩
  rw [run, h]

theorem EndsWith.later (h : body state = .inl next) (hnext : EndsWith body next result) :
    EndsWith body state result := by
  obtain ⟨rounds, hrun⟩ := hnext
  refine ⟨rounds + 1, ?_⟩
  rw [run, h]
  exact hrun

/-- What a loop ends with does not change on the way. -/
theorem Reaches.endsWith (h : Reaches body see state seen next)
    (hnext : EndsWith body next result) : EndsWith body state result := by
  induction h with
  | refl => exact hnext
  | head hround _ ih => exact .later hround (ih hnext)

/-- **A loop has one result.** -/
theorem EndsWith.unique (h : EndsWith body state result) (h' : EndsWith body state result') :
    result = result' := by
  obtain ⟨rounds, hrun⟩ := h
  obtain ⟨rounds', hrun'⟩ := h'
  induction rounds generalizing rounds' state with
  | zero => exact absurd hrun (by simp [run])
  | succ rounds ih =>
    cases rounds' with
    | zero => exact absurd hrun' (by simp [run])
    | succ rounds' =>
      rw [run] at hrun hrun'
      cases hbody : body state with
      | inl next =>
        rw [hbody] at hrun hrun'
        exact ih hrun rounds' hrun'
      | inr value =>
        rw [hbody] at hrun hrun'
        exact Option.some.inj (hrun.symm.trans hrun')

/-- What is made of the result of a loop is made of that one. -/
theorem EndsWith.exists_map_iff (h : EndsWith body state result) {Value : Type}
    (f : Result → Value) {value : Value} :
    (∃ rounds, (run body rounds state).map f = some value) ↔ value = f result := by
  constructor
  · rintro ⟨rounds, hvalue⟩
    obtain ⟨result', hrun, rfl⟩ := Option.map_eq_some_iff.1 hvalue
    rw [EndsWith.unique h ⟨rounds, hrun⟩]
  · rintro rfl
    obtain ⟨rounds, hrun⟩ := h
    exact ⟨rounds, by rw [hrun, Option.map_some]⟩

end Loop

end Sexpr
