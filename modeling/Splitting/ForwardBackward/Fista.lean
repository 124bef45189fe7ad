import Splitting.ForwardBackward.Setup
import Splitting.Iteration

/-!
# `Splitting.ForwardBackward.Fista` — the accelerated method

Proximal gradient descent with momentum: the step starts from a point `y` beyond the current solution,

  `x (k+1) = prox (a g) (y k - a ∇f (y k))`,
  `t (k+1) = (1 + √(1 + 4 t k²)) / 2`,
  `y (k+1) = x (k+1) + (t k - 1) / t (k+1) · (x (k+1) - x k)`,

with `t 0 = 1` and `y 0 = x 0`. The default step is `1 / L`, and a constant step is provably convergent as long
as it does not exceed that.
-/

namespace Splitting

/-- Accelerated proximal gradient descent: the shared state, the point from which the next step starts, and
    the momentum. -/
structure Fista (S ρ π : Type) where
  state : Composite S ρ π
  ahead : Vec S
  momentum : S

namespace Fista

variable {S ρ π : Type} [Scalar S]

/-- The default step is this over the Lipschitz constant; so is the largest provably convergent one. -/
def stepFactor : S := 1

/-- The method that belongs to a setup. -/
def build (setup : Setup S ρ π) : Except Error (Fista S ρ π) := do
  let c ← setup.build stepFactor
  return ⟨c, c.solution, 1⟩

/-- The momentum after `t`. -/
def nextMomentum (t : S) : S := (1 + Scalar.sqrt (1 + ((4 : Nat) : S) * t * t)) / ((2 : Nat) : S)

/-- The second half of an iteration: the new momentum, and the point beyond the new iterate on the line from
    the current solution. -/
def extrapolate (m : Fista S ρ π) : Outcome (Fista S ρ π) Unit :=
  let t := nextMomentum m.momentum
  let weight := (m.momentum - 1) / t
  let c := m.state
  .put ((Vec.zip? (fun x old => x + weight * (x - old)) c.next c.solution).bind m.ahead.write? |>.map fun y =>
    ⟨{ c with iteration := c.iteration + 1 }, y, t⟩)

/-- One iteration. The new iterate is in the buffer that an exchange brings forward. -/
def update [StepRule ρ S] [Preconditioner π S] (m : Fista S ρ π) : Outcome (Fista S ρ π) Unit :=
  let c := m.state
  (Stepping.step c.iteration ⟨c.terms, m.ahead, c.gradient, c.next⟩ |>.mapState fun s =>
    { m with
      state := { c with terms := s.terms, gradient := s.gradient, next := s.out }
      ahead := s.point }).bind fun _ m => m.extrapolate

instance [StepRule ρ S] [Preconditioner π S] : Iterative (Fista S ρ π) S where
  update := update
  recordObjective := fun ⟨c, ahead, momentum⟩ => c.recordObjective.mapState fun c => ⟨c, ahead, momentum⟩
  exchange m := { m with state := m.state.exchange }
  solution m := m.state.solution
  iteration m := m.state.iteration

/-- The constant step; an error if a rule chooses it. -/
def stepSize [StepRule ρ S] (m : Fista S ρ π) : Except Error S := m.state.terms.stepSize

/-- Whether the step is at most `1 / L`. -/
def isProvablyConvergent [StepRule ρ S] (m : Fista S ρ π) : Except Error Bool :=
  m.state.terms.isProvablyConvergent stepFactor

end Fista

end Splitting
