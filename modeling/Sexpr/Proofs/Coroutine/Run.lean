import Mathlib.Logic.Relation
import Sexpr.Coroutine

/-!
# The steps of a run

One equation for each signal that `System.advance` can meet, and one for the start of a run. What
a run does is shown with these, and the measure that makes it end stays out of sight.

* `Moment` is what a run is at between two answers, and `System.next?` the next moment.
* `System.Reaches` relates a moment to all later ones. A run that reaches a value for which nobody
  waits has that value for its result (`System.run_of_reaches`).
-/

namespace Sexpr

namespace Coroutine

namespace System

variable {Callee Waiting Result World : Type} (S : System Callee Waiting Result World)

theorem advance_call (callee : Callee) (caller : Waiting) (world : World) (stack : List Waiting) :
    S.advance (.call callee caller) world stack =
      S.advance (S.start callee world).1 (S.start callee world).2 (caller :: stack) := by
  rw [advance]

theorem advance_yield (value : Result) (self : Waiting) (world : World) (stack : List Waiting) :
    S.advance (.yield value self) world stack =
      S.advance (.finish value) (S.close self world) stack := by
  rw [advance]

theorem advance_finish_nil (value : Result) (world : World) :
    S.advance (.finish value) world [] = (value, world) := by
  rw [advance]

theorem advance_finish_cons (value : Result) (world : World) (caller : Waiting)
    (below : List Waiting) :
    S.advance (.finish value) world (caller :: below) =
      S.advance (S.resume caller value world).1 (S.resume caller value world).2 below := by
  rw [advance]

theorem run_eq (callee : Callee) (world : World) :
    S.run callee world = S.advance (S.start callee world).1 (S.start callee world).2 [] := rfl

end System

/-! ## Moments -/

/-- A moment of a run: the signal that is to be answered, the world, and those who wait, the latest
first. -/
structure Moment (Callee Waiting Result World : Type) where
  signal : Signal Callee Waiting Result
  world : World
  stack : List Waiting

namespace System

variable {Callee Waiting Result World : Type} (S : System Callee Waiting Result World)

/-- The first moment of a run. -/
def first (callee : Callee) (world : World) : Moment Callee Waiting Result World :=
  ⟨(S.start callee world).1, (S.start callee world).2, []⟩

/-- The moment behind the answer to the signal. A value for which nobody waits has no answer. -/
def next? : Moment Callee Waiting Result World → Option (Moment Callee Waiting Result World)
  | ⟨.call callee caller, world, stack⟩ =>
    some ⟨(S.start callee world).1, (S.start callee world).2, caller :: stack⟩
  | ⟨.yield value self, world, stack⟩ => some ⟨.finish value, S.close self world, stack⟩
  | ⟨.finish value, world, caller :: below⟩ =>
    some ⟨(S.resume caller value world).1, (S.resume caller value world).2, below⟩
  | ⟨.finish _, _, []⟩ => none

/-- One moment comes to another one in finitely many answers. -/
def Reaches : Moment Callee Waiting Result World → Moment Callee Waiting Result World → Prop :=
  Relation.ReflTransGen fun m m' => S.next? m = some m'

variable {S}

theorem Reaches.head {m m' m'' : Moment Callee Waiting Result World} (h : S.next? m = some m')
    (h' : S.Reaches m' m'') : S.Reaches m m'' :=
  Relation.ReflTransGen.head h h'

theorem Reaches.trans {m m' m'' : Moment Callee Waiting Result World} (h : S.Reaches m m')
    (h' : S.Reaches m' m'') : S.Reaches m m'' :=
  Relation.ReflTransGen.trans h h'

/-- An answer does not change what the run comes to. -/
theorem advance_next {m m' : Moment Callee Waiting Result World} (h : S.next? m = some m') :
    S.advance m.signal m.world m.stack = S.advance m'.signal m'.world m'.stack := by
  obtain ⟨signal, world, stack⟩ := m
  cases signal with
  | call callee caller =>
    obtain rfl := Option.some.inj h
    exact S.advance_call callee caller world stack
  | yield value self =>
    obtain rfl := Option.some.inj h
    exact S.advance_yield value self world stack
  | finish value =>
    cases stack with
    | nil => exact absurd h (by simp [next?])
    | cons caller below =>
      obtain rfl := Option.some.inj h
      exact S.advance_finish_cons value world caller below

/-- **The end of a run.** A value for which nobody waits is the result. -/
theorem run_of_reaches {callee : Callee} {world world' : World} {value : Result}
    (h : S.Reaches (S.first callee world) ⟨.finish value, world', []⟩) :
    S.run callee world = (value, world') := by
  have hadvance : ∀ m, S.Reaches (S.first callee world) m →
      S.run callee world = S.advance m.signal m.world m.stack := by
    intro m hm
    induction hm with
    | refl => exact S.run_eq callee world
    | tail _ hnext ih => rw [ih, advance_next hnext]
  rw [hadvance _ h]
  exact S.advance_finish_nil value world'

end System

end Coroutine

end Sexpr
