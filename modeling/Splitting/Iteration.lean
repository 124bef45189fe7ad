import Splitting.Outcome
import Splitting.Vec.Basic

/-!
# `Splitting.Iteration` — running an iterative method

A method advances one update at a time. A run owns the loop: it exchanges the iterates after every update,
records the objective at regular intervals, shows each iterate to a watcher that may end the run, and leaves a
trace of all that happened.

* `Iterative` — the interface of a method;
* `Watcher` — what looks at the iterates;
* `Event` — one entry of the trace;
* `Run`, `run` — the state of a run, and the run itself.
-/

namespace Splitting

/-- An iterative method, with a state of type `A`. -/
class Iterative (A : Type) (S : outParam Type) where
  /-- One iteration. -/
  update : A → Outcome A Unit
  /-- Adds the objective at the current solution to the records. -/
  recordObjective : A → Outcome A Unit
  /-- Makes the iterate just computed the current solution. -/
  exchange : A → A
  /-- The current solution. -/
  solution : A → Vec S
  /-- The number of completed iterations. -/
  iteration : A → Nat

/-- Looks at a solution and the number of its iteration, and says whether to stop. `κ` is what it remembers. -/
abbrev Watcher (κ S : Type) := κ → Vec S → Nat → Bool × κ

/-- One thing that happens in a run. A call that fails has happened too. -/
inductive Event (S : Type) where
  | update
  | exchange
  | objective
  /-- The watcher was shown this solution. -/
  | watch (solution : Vec S) (iteration : Nat)
deriving DecidableEq, Repr

/-- The state of a run: the method, what the watcher remembers, and the trace so far. -/
structure Run (A κ S : Type) where
  method : A
  memory : κ
  trace : Array (Event S)

namespace Run

variable {A κ S : Type} [Iterative A S]

/-- One update. -/
def update : Run A κ S → Outcome (Run A κ S) Unit
  | ⟨method, memory, trace⟩ => (Iterative.update method).mapState fun m => ⟨m, memory, trace.push .update⟩

/-- The exchange of iterates. -/
def exchange : Run A κ S → Run A κ S
  | ⟨method, memory, trace⟩ => ⟨Iterative.exchange method, memory, trace.push .exchange⟩

/-- One record of the objective. -/
def recordObjective : Run A κ S → Outcome (Run A κ S) Unit
  | ⟨method, memory, trace⟩ =>
    (Iterative.recordObjective method).mapState fun m => ⟨m, memory, trace.push .objective⟩

/-- Shows the current solution to the watcher: whether to stop. -/
def watch (watcher : Watcher κ S) (number : Nat) : Run A κ S → Bool × Run A κ S
  | ⟨method, memory, trace⟩ =>
    let x := Iterative.solution method
    let (stop, memory) := watcher memory x number
    (stop, ⟨method, memory, trace.push (.watch x number)⟩)

/-- Records the objective if the interval is not zero and divides the number of completed iterations. -/
def recordIfDue (interval : Nat) (r : Run A κ S) : Outcome (Run A κ S) Unit :=
  if 0 < interval ∧ Iterative.iteration r.method % interval = 0 then r.recordObjective else .ok () r

/-- Up to `budget` iterations; ends with the number of completed ones. -/
def iterate (interval : Nat) (watcher : Watcher κ S) : Nat → Run A κ S → Outcome (Run A κ S) Nat
  | 0, r => .ok (Iterative.iteration r.method) r
  | budget + 1, r =>
    r.update.bind fun _ r =>
      (r.exchange.recordIfDue interval).bind fun _ r =>
        let number := Iterative.iteration r.method
        let (stop, r) := r.watch watcher number
        if stop then .ok (Iterative.iteration r.method) r else iterate interval watcher budget r

end Run

variable {A κ S : Type} [Iterative A S]

/-- **A run** of up to `budget` further iterations. A method that has not moved yet is looked at first: its
    objective is recorded unless the interval is zero, and the watcher sees the starting point. The value is
    the number of completed iterations. -/
def run (method : A) (budget interval : Nat) (watcher : Watcher κ S) (memory : κ) : Outcome (Run A κ S) Nat :=
  let r : Run A κ S := ⟨method, memory, #[]⟩
  if Iterative.iteration method = 0 then
    (if 0 < interval then r.recordObjective else .ok () r).bind fun _ r =>
      let (stop, r) := r.watch watcher 0
      if stop then .ok 0 r else r.iterate interval watcher budget
  else r.iterate interval watcher budget

/-- The watcher that never stops a run. -/
def Watcher.never : Watcher Unit S := fun _ _ _ => (false, ())

end Splitting
