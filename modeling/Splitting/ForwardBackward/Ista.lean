import Splitting.ForwardBackward.Setup
import Splitting.Iteration

/-!
# `Splitting.ForwardBackward.Ista` — iterative shrinkage-thresholding

Proximal gradient descent on `f + g`:

  `x (k+1) = prox (a g) (x k - a ∇f (x k))`.

The default step is `1.98 / L`, and a constant step is provably convergent as long as it does not exceed that.
-/

namespace Splitting

/-- Proximal gradient descent. -/
structure Ista (S ρ π : Type) where
  state : Composite S ρ π

namespace Ista

variable {S ρ π : Type} [Scalar S]

/-- The default step is this over the Lipschitz constant; so is the largest provably convergent one. -/
def stepFactor : S := 1.98

/-- The method that belongs to a setup. -/
def build (setup : Setup S ρ π) : Except Error (Ista S ρ π) := Ista.mk <$> setup.build stepFactor

/-- One iteration. It leaves the forward point in place of the current solution, and the new iterate in the
    buffer that an exchange brings forward. -/
def update [StepRule ρ S] [Preconditioner π S] (m : Ista S ρ π) : Outcome (Ista S ρ π) Unit :=
  let c := m.state
  (Stepping.step c.iteration ⟨c.terms, c.solution, c.gradient, c.next⟩ |>.mapState fun s =>
    Ista.mk { c with terms := s.terms, solution := s.point, gradient := s.gradient, next := s.out }).bind
      fun _ m => .ok () ⟨{ m.state with iteration := m.state.iteration + 1 }⟩

instance [StepRule ρ S] [Preconditioner π S] : Iterative (Ista S ρ π) S where
  update := update
  recordObjective m := m.state.recordObjective.mapState Ista.mk
  exchange m := ⟨m.state.exchange⟩
  solution m := m.state.solution
  iteration m := m.state.iteration

/-- The constant step; an error if a rule chooses it. -/
def stepSize [StepRule ρ S] (m : Ista S ρ π) : Except Error S := m.state.terms.stepSize

/-- Whether the step is at most `1.98 / L`. -/
def isProvablyConvergent [StepRule ρ S] (m : Ista S ρ π) : Except Error Bool :=
  m.state.terms.isProvablyConvergent stepFactor

end Ista

end Splitting
