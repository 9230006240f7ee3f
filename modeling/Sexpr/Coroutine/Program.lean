import Sexpr.Coroutine

/-!
# Programs of nested coroutines

A node is a coroutine with a name, a running total and a list of steps. Each step calls another
node or hands over a plain integer, and every arrival and departure is traced.

* `Script` is the list of steps, `Node` a named script with its first total.
* `programs` is the system of these coroutines, over the trace (latest event first), and
  `Node.run` runs one on the explicit stack.
* `Node.eval` is the same meaning by plain recursion on the steps.
* `descent` is a smaller system: a coroutine that calls itself `n` levels down and counts them on
  the way back.
-/

namespace Sexpr

namespace Coroutine

/-- The steps of a node, in order. -/
inductive Script where
  /-- No step is left. -/
  | done
  /-- Call the node with this name, first total and steps, then go on with `rest`. -/
  | call (name : String) (start : Int) (body rest : Script)
  /-- Hand over a plain value; what comes behind it is never reached. -/
  | value (n : Int) (rest : Script)
  deriving DecidableEq, Inhabited

/-- A coroutine that has not started. -/
structure Node where
  name : String
  start : Int
  script : Script
  deriving DecidableEq

/-- What happens to a node. -/
inductive Event where
  | enter (name : String)
  | got (name : String) (result : Int)
  | resumed (name : String)
  | leave (name : String)
  deriving DecidableEq

/-- The line that reports an event. -/
def Event.text : Event → String
  | .enter name => "enter " ++ name
  | .got name result => name ++ " got " ++ toString result
  | .resumed name => name ++ " resumed"
  | .leave name => "leave " ++ name

/-- Why a node is suspended. -/
inductive Pause where
  /-- It called another node. -/
  | called
  /-- It handed over a plain value. -/
  | yielded
  deriving DecidableEq

/-- A suspended node. -/
structure Frame where
  name : String
  total : Int
  rest : Script
  pause : Pause
  deriving DecidableEq

/-- Two units for a call, one for a plain value, and the work of all that is nested. -/
def Script.work : Script → Nat
  | .done => 0
  | .call _ _ body rest => body.work + rest.work + 2
  | .value _ rest => rest.work + 1

/-- The next stretch of a node: up to its next call, its first plain value or its end. -/
def Script.proceed (name : String) (total : Int) (trace : List Event) :
    Script → Signal Node Frame Int × List Event
  | .done => (.finish total, .leave name :: trace)
  | .call callee start body rest =>
    (.call ⟨callee, start, body⟩ ⟨name, total, rest, .called⟩, trace)
  | .value n rest => (.yield n ⟨name, total, rest, .yielded⟩, trace)

theorem Script.proceed_le (name : String) (total : Int) (trace : List Event) (script : Script) :
    (script.proceed name total trace).1.weight (·.script.work) (·.rest.work) ≤ script.work := by
  cases script <;> simp [proceed, work, Signal.weight]

/-- Nodes as coroutines. A call's result `r` turns the total `t` into `2 * t + r`. -/
def programs : System Node Frame Int (List Event) where
  start node trace := node.script.proceed node.name node.start (.enter node.name :: trace)
  resume frame result trace :=
    match frame.pause with
    | .called =>
      frame.rest.proceed frame.name (2 * frame.total + result) (.got frame.name result :: trace)
    | .yielded => frame.rest.proceed frame.name frame.total (.resumed frame.name :: trace)
  close frame trace := .leave frame.name :: trace
  ahead _ := 0
  fresh node := node.script.work
  held frame := frame.rest.work
  start_le node trace := by
    simpa using Script.proceed_le node.name node.start (.enter node.name :: trace) node.script
  resume_le frame result trace := by
    cases frame.pause <;> simpa using Script.proceed_le _ _ _ _
  close_le _ _ := Nat.le_refl _

/-- Runs a node on the explicit stack: its result, and the events in order. -/
def Node.run (node : Node) : Int × List Event :=
  let (result, trace) := programs.run node []
  (result, trace.reverse)

/-- The rest of a node by recursion on its steps: the result, and the events in order. -/
def Script.eval (name : String) (total : Int) : Script → Int × List Event
  | .done => (total, [.leave name])
  | .value n _ => (n, [.leave name])
  | .call callee start body rest =>
    let inner := body.eval callee start
    let after := rest.eval name (2 * total + inner.1)
    (after.1, .enter callee :: inner.2 ++ .got name inner.1 :: after.2)

/-- The result of a node by recursion, and the events in order. -/
def Node.eval (node : Node) : Int × List Event :=
  let after := node.script.eval node.name node.start
  (after.1, .enter node.name :: after.2)

/-! ## Counting levels -/

/-- Called with `n + 1` it calls itself with `n` and adds one to the result; with zero it returns
zero. -/
def descent : System Nat Unit Nat Unit where
  start n _ :=
    match n with
    | 0 => (.finish 0, ())
    | n + 1 => (.call n (), ())
  resume _ below _ := (.finish (below + 1), ())
  close _ _ := ()
  ahead _ := 0
  fresh n := 2 * n
  held _ := 0
  start_le n _ := by
    cases n with
    | zero => simp [Signal.weight]
    | succ n => simp only [Signal.weight]; omega
  resume_le _ _ _ := by simp [Signal.weight]
  close_le _ _ := Nat.le_refl _

end Coroutine

end Sexpr
