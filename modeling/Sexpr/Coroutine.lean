/-!
# Coroutines on an explicit stack

A coroutine runs until it either calls another coroutine, and then waits for the result, or
hands over a value. A `System` says how the coroutines of one kind start and go on; the stack of
the waiting ones is a list, so the depth of the calls costs heap and not machine stack.

* `Signal` is what a coroutine tells the runner when it stops running.
* `System` holds the behaviour of a kind of coroutine over a shared `World`, and measures the
  work that is left, which every stretch of running must lower.
* `System.advance` answers one signal after the other until the outermost coroutine has a
  result; `System.run` starts it.
-/

namespace Sexpr

namespace Coroutine

/-- What a coroutine tells the runner: `Callee` is a coroutine that has not started, `Waiting`
one that is suspended, `Result` what it hands over. -/
inductive Signal (Callee Waiting Result : Type) where
  /-- Run `callee`, then give its result to `caller`. -/
  | call (callee : Callee) (caller : Waiting)
  /-- A plain value, which ends the coroutine `self` early. -/
  | yield (value : Result) (self : Waiting)
  /-- The coroutine is done. -/
  | finish (value : Result)

/-- The work that a signal announces: both sides of a call, and one unit for closing a coroutine
that hands over a plain value. -/
def Signal.weight {Callee Waiting Result : Type} (fresh : Callee → Nat) (held : Waiting → Nat) :
    Signal Callee Waiting Result → Nat
  | .call callee caller => fresh callee + held caller + 2
  | .yield _ _ => 1
  | .finish _ => 0

/-- A kind of coroutine over a shared world. -/
structure System (Callee Waiting Result World : Type) where
  /-- The first stretch of a coroutine. -/
  start : Callee → World → Signal Callee Waiting Result × World
  /-- The stretch after a call, with the callee's result. -/
  resume : Waiting → Result → World → Signal Callee Waiting Result × World
  /-- What a suspended coroutine does when it is closed instead. -/
  close : Waiting → World → World
  /-- The work that the world still holds. -/
  ahead : World → Nat
  /-- The work of a coroutine that has not started. -/
  fresh : Callee → Nat
  /-- The work of a suspended coroutine. -/
  held : Waiting → Nat
  start_le (callee : Callee) (world : World) :
    ahead (start callee world).2 + (start callee world).1.weight fresh held
      ≤ ahead world + fresh callee
  resume_le (waiting : Waiting) (value : Result) (world : World) :
    ahead (resume waiting value world).2 + (resume waiting value world).1.weight fresh held
      ≤ ahead world + held waiting
  close_le (waiting : Waiting) (world : World) : ahead (close waiting world) ≤ ahead world

namespace System

variable {Callee Waiting Result World : Type}

/-- The work of the coroutines on a stack, and one unit for resuming each. -/
def stacked (S : System Callee Waiting Result World) : List Waiting → Nat
  | [] => 0
  | caller :: below => S.held caller + 1 + S.stacked below

/-- Answers a signal: a call puts the caller on the stack and starts the callee, a value goes to
the caller on top of the stack, and with no caller left it is the result of the run. A coroutine
that hands over a plain value is closed first and never resumed. -/
def advance (S : System Callee Waiting Result World) (signal : Signal Callee Waiting Result)
    (world : World) (stack : List Waiting) : Result × World :=
  match signal with
  | .call callee caller =>
    let next := S.start callee world
    S.advance next.1 next.2 (caller :: stack)
  | .yield value self => S.advance (.finish value) (S.close self world) stack
  | .finish value =>
    match stack with
    | [] => (value, world)
    | caller :: below =>
      let next := S.resume caller value world
      S.advance next.1 next.2 below
termination_by S.ahead world + signal.weight S.fresh S.held + S.stacked stack
decreasing_by
  · have := S.start_le callee world
    simp only [Signal.weight, stacked] at *
    omega
  · have := S.close_le self world
    simp only [Signal.weight] at *
    omega
  · have := S.resume_le caller value world
    simp only [Signal.weight, stacked] at *
    omega

/-- Runs a coroutine, and all that it calls, to its result. -/
def run (S : System Callee Waiting Result World) (callee : Callee) (world : World) :
    Result × World :=
  let first := S.start callee world
  S.advance first.1 first.2 []

end System

end Coroutine

end Sexpr
