import Sexpr.Coroutine.Program
import Sexpr.Proofs.Coroutine.Run

/-!
# Programs against recursion

A node that runs on the explicit stack does what recursion on its steps does: `Node.run_eq_eval`.
The run comes to its end in finitely many answers, and its trace is well nested.

* `Script.reaches_eval` is the simulation: a node's steps run to their end on top of any stack.
* `Calls` is the shape of what happens between the arrival at a node and the departure from it.
* `Suspended` is what holds of every moment of a run: those who wait have called somebody. So
  nobody goes on who has handed over a plain value.
-/

namespace Sexpr

namespace Coroutine

/-! ## The simulation -/

/-- **The rest of a node** runs to its end on top of any stack: it hands over the result of its
evaluation, and adds the events of it to the trace. -/
theorem Script.reaches_eval (script : Script) (name : String) (total : Int) (trace : List Event)
    (stack : List Frame) :
    programs.Reaches
      ⟨(script.proceed name total trace).1, (script.proceed name total trace).2, stack⟩
      ⟨.finish (script.eval name total).1, (script.eval name total).2.reverse ++ trace, stack⟩ := by
  induction script generalizing name total trace stack with
  | done => exact .refl
  | value n rest => exact .single rfl
  | call callee start body rest ihbody ihrest =>
    -- the callee runs with this node on the stack, and hands its result over to it
    have hcallee := ihbody callee start (.enter callee :: trace)
      (⟨name, total, rest, .called⟩ :: stack)
    let inner := body.eval callee start
    have hbehind := ihrest name (2 * total + inner.1)
      (.got name inner.1 :: (inner.2.reverse ++ .enter callee :: trace)) stack
    have htrace : ((Script.call callee start body rest).eval name total).2.reverse ++ trace =
        (rest.eval name (2 * total + inner.1)).2.reverse ++
          .got name inner.1 :: (inner.2.reverse ++ .enter callee :: trace) := by
      simp [eval, inner]
    rw [htrace]
    exact System.Reaches.head rfl (hcallee.trans (System.Reaches.head rfl hbehind))

/-- The run of a node comes to the end of its evaluation. -/
theorem Node.reaches_eval (node : Node) :
    programs.Reaches (programs.first node []) ⟨.finish node.eval.1, node.eval.2.reverse, []⟩ := by
  have h := node.script.reaches_eval node.name node.start [.enter node.name] []
  have htrace : node.eval.2.reverse =
      (node.script.eval node.name node.start).2.reverse ++ [.enter node.name] := by
    simp [eval]
  rw [htrace]
  exact h

/-! ## The trace -/

/-- What happens to a node between its arrival and its departure: calls, one after the other. The
callee arrives, does what it does, and departs, and then the node gets the result. -/
inductive Calls : String → List Event → Prop
  | nothing {name : String} : Calls name []
  | call {name callee : String} {result : Int} {inner rest : List Event} :
    Calls callee inner → Calls name rest →
    Calls name (.enter callee :: inner ++ .leave callee :: .got name result :: rest)

theorem Script.calls_eval (script : Script) (name : String) (total : Int) :
    ∃ inner, (script.eval name total).2 = inner ++ [.leave name] ∧ Calls name inner := by
  induction script generalizing name total with
  | done => exact ⟨[], rfl, .nothing⟩
  | value n rest => exact ⟨[], rfl, .nothing⟩
  | call callee start body rest ihbody ihrest =>
    obtain ⟨inner, hinner, hcalls⟩ := ihbody callee start
    obtain ⟨behind, hbehind, hrest⟩ := ihrest name (2 * total + (body.eval callee start).1)
    refine ⟨.enter callee :: inner ++
      .leave callee :: .got name (body.eval callee start).1 :: behind, ?_, .call hcalls hrest⟩
    simp [eval, hinner, hbehind]

theorem Calls.resumed_notMem {name : String} {events : List Event} (h : Calls name events)
    (other : String) : .resumed other ∉ events := by
  induction h with
  | nothing => simp
  | call _ _ ihinner ihrest => simp [ihinner, ihrest]

/-! ## Those who wait -/

/-- Whoever waits, or is about to, has called somebody. -/
structure Suspended (m : Moment Node Frame Int (List Event)) : Prop where
  caller : ∀ callee caller, m.signal = .call callee caller → caller.pause = .called
  stack : ∀ frame ∈ m.stack, frame.pause = .called

theorem Script.pause_proceed {script : Script} {name : String} {total : Int} {trace : List Event}
    {callee : Node} {caller : Frame}
    (h : (script.proceed name total trace).1 = .call callee caller) :
    caller.pause = .called := by
  cases script with
  | done => exact absurd h (by simp [proceed])
  | value n rest => exact absurd h (by simp [proceed])
  | call callee' start body rest =>
    simp only [proceed, Signal.call.injEq] at h
    rw [← h.2]

/-- One answer keeps it so. -/
theorem Suspended.next {m m' : Moment Node Frame Int (List Event)} (h : Suspended m)
    (hnext : programs.next? m = some m') : Suspended m' := by
  obtain ⟨hcaller, hstack⟩ := h
  obtain ⟨signal, world, stack⟩ := m
  cases signal with
  | call callee caller =>
    obtain rfl := Option.some.inj hnext
    exact ⟨fun _ _ hsignal => Script.pause_proceed hsignal,
      List.forall_mem_cons.2 ⟨hcaller callee caller rfl, hstack⟩⟩
  | yield value self =>
    obtain rfl := Option.some.inj hnext
    exact ⟨fun _ _ hsignal => absurd hsignal (by simp), hstack⟩
  | finish value =>
    cases stack with
    | nil => exact absurd hnext (by simp [System.next?])
    | cons caller below =>
      obtain rfl := Option.some.inj hnext
      rw [List.forall_mem_cons] at hstack
      obtain ⟨hcalled, hbelow⟩ := hstack
      refine ⟨?_, hbelow⟩
      intro callee' caller' hsignal
      simp only [programs, hcalled] at hsignal
      exact Script.pause_proceed hsignal

/-- It is so at every moment of a run. -/
theorem Node.suspended_of_reaches (node : Node) {m : Moment Node Frame Int (List Event)}
    (h : programs.Reaches (programs.first node []) m) : Suspended m := by
  induction h with
  | refl => exact ⟨fun _ _ hsignal => Script.pause_proceed hsignal, by simp [System.first]⟩
  | tail _ hnext ih => exact ih.next hnext

/-- **A node on the explicit stack against recursion.** The run comes, in finitely many answers, to
a value for which nobody waits. Its result and its trace are those of the evaluation. Each arrival
in the trace has its departure, and what happens between the two is nested in the same way. At no
moment does anybody wait who has handed over a plain value, and nobody is resumed behind one. -/
theorem Node.run_eq_eval (node : Node) :
    node.run = node.eval ∧
      programs.Reaches (programs.first node [])
        ⟨.finish node.eval.1, node.eval.2.reverse, []⟩ ∧
      (∃ inner, node.run.2 = .enter node.name :: inner ++ [.leave node.name] ∧
        Calls node.name inner) ∧
      (∀ m, programs.Reaches (programs.first node []) m →
        ∀ frame ∈ m.stack, frame.pause = .called) ∧
      ∀ name, .resumed name ∉ node.run.2 := by
  have hend := node.reaches_eval
  have hrun : node.run = node.eval := by
    simp [run, System.run_of_reaches hend]
  obtain ⟨inner, hinner, hcalls⟩ := node.script.calls_eval node.name node.start
  have htrace : node.run.2 = .enter node.name :: inner ++ [.leave node.name] := by
    rw [hrun, eval, hinner, List.cons_append]
  refine ⟨hrun, hend, ⟨inner, htrace, hcalls⟩, ?_, ?_⟩
  · intro m hm
    exact (node.suspended_of_reaches hm).stack
  · intro name
    rw [htrace]
    simp [hcalls.resumed_notMem]

end Coroutine

end Sexpr
