import Splitting.ForwardBackward.Step

/-!
# `Splitting.ForwardBackward.Setup` — configuring a proximal gradient method

* `Setup` — what a user gives: a starting point, the terms, and at most one of a constant step and a rule;
* `Composite` — the state that the proximal gradient methods share;
* `Setup.build` — the state that belongs to a setup, or the first thing that is wrong with it.

Without a step or a rule, the step is `factor / L` for the Lipschitz constant `L` of the smooth term, with a
factor of the method's own, or one when there is no smooth term.
-/

namespace Splitting

/-- A configuration of a proximal gradient method. -/
structure Setup (S ρ π : Type) where
  initial : Vec S
  smooth : Option (Functional S)
  proximable : Option (Functional S)
  stepSize : Option S
  rule : Option ρ
  preconditioner : Option π

/-- The state of a proximal gradient method: the current solution, a buffer for the next one, a buffer for the
    gradient, and the objectives recorded so far. -/
structure Composite (S ρ π : Type) where
  terms : Terms S ρ π
  solution : Vec S
  next : Vec S
  gradient : Vec S
  losses : Array S
  iteration : Nat

namespace Composite

variable {S ρ π : Type}

/-- Makes the next solution the current one; the current one becomes the buffer. -/
def exchange (c : Composite S ρ π) : Composite S ρ π := { c with solution := c.next, next := c.solution }

/-- Adds the objective at the current solution to the records. -/
def recordObjective [Scalar S] (c : Composite S ρ π) : Outcome (Composite S ρ π) Unit :=
  .put ((c.terms.objective c.solution).map fun v => { c with losses := c.losses.push v })

end Composite

namespace Setup

variable {S ρ π : Type} [Scalar S]

/-- The step where none is given. -/
def defaultStep (factor : S) (smooth : Option (Functional S)) : Except Error S :=
  match smooth with
  | none => .ok 1
  | some f =>
    match f.lipschitz with
    | none => .error .unknownLipschitz
    | some l => .ok (factor / l)

/-- The step of the method: the rule that was given, or else the constant step that was given or is the
    default. -/
def choice (factor : S) (setup : Setup S ρ π) : Except Error (StepChoice S ρ) :=
  match setup.rule, setup.stepSize with
  | some _, some _ => .error .conflictingStepSize
  | some r, none => .ok (.adaptive r)
  | none, some a => StepChoice.fixed <$> ConstantStep.of a
  | none, none => do
    let a ← defaultStep factor setup.smooth
    StepChoice.fixed <$> ConstantStep.of a

/-- The state of a method whose default step is `factor / L`, before its first iteration. -/
def build (factor : S) (setup : Setup S ρ π) : Except Error (Composite S ρ π) :=
  if setup.smooth.isNone ∧ setup.proximable.isNone then .error .bothTermsAbsent
  else do
    let rule ← setup.choice factor
    return {
      terms := ⟨setup.smooth, setup.proximable, rule, setup.preconditioner⟩
      solution := setup.initial
      next := setup.initial
      gradient := setup.initial
      losses := #[]
      iteration := 0 }

end Setup

end Splitting
