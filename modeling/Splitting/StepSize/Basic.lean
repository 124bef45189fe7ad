import Splitting.Functional.Basic

/-!
# `Splitting.StepSize.Basic` — rules for the step of a gradient method

A rule is asked once per iteration, when the gradient is known and before the step is taken. It may keep a
state of its own.

* `StepContext` — what a rule may look at;
* `StepRule` — the interface;
* `ConstantStep` — one step for ever, positive and finite;
* `StepChoice` — the step of a method: a constant, or a rule that was given.
-/

namespace Splitting

/-- What a rule may look at when it chooses the step of an iteration. -/
structure StepContext (S : Type) where
  /-- The number of completed iterations. -/
  iteration : Nat
  /-- The smooth term, if there is one. -/
  smooth : Option (Functional S)
  /-- The point at which the gradient was taken. -/
  point : Vec S
  /-- The gradient, after preconditioning; the search direction is its opposite. -/
  gradient : Vec S

/-- A rule for the step, with a state of type `ρ`. -/
class StepRule (ρ : Type) (S : outParam Type) where
  query : ρ → StepContext S → Outcome ρ S
  /-- The step, if it never changes. -/
  constant? : ρ → Option S

/-- A step that never changes. -/
structure ConstantStep (S : Type) where
  step : S

namespace ConstantStep

variable {S : Type}

/-- A constant step, which has to be positive and finite. -/
def of [Scalar S] (step : S) : Except Error (ConstantStep S) :=
  if 0 < step ∧ Scalar.isFinite step = true then .ok ⟨step⟩
  else .error (.invalidParameter (.stepNotPositive (Scalar.text step)))

instance : StepRule (ConstantStep S) S where
  query rule _ := .ok rule.step rule
  constant? rule := some rule.step

end ConstantStep

/-- The step of a method: a constant one, or one that a rule chooses. -/
inductive StepChoice (S ρ : Type) where
  | fixed (step : ConstantStep S)
  | adaptive (rule : ρ)

namespace StepChoice

variable {S ρ : Type} [StepRule ρ S]

instance : StepRule (StepChoice S ρ) S where
  query choice ctx :=
    match choice with
    | .fixed step => (StepRule.query step ctx).mapState .fixed
    | .adaptive rule => (StepRule.query rule ctx).mapState .adaptive
  constant? choice :=
    match choice with
    | .fixed step => StepRule.constant? step
    | .adaptive rule => StepRule.constant? rule

end StepChoice

end Splitting
