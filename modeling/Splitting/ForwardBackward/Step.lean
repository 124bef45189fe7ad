import Splitting.Preconditioner
import Splitting.StepSize.Basic

/-!
# `Splitting.ForwardBackward.Step` — one forward-backward step

To minimise `f + g` with a smooth `f` and a proximable `g`, a step goes forward along the gradient of `f` and
back with the proximal map of `g`:

  `out = prox (a g) (point - a · gradient)`.

The step works in buffers. It leaves the preconditioned gradient in one and the forward point in place of the
point, also when a later part of it fails.

* `Terms` — the two terms, the rule for the step and the preconditioner;
* `Stepping` — the terms together with the buffers of a step;
* `Stepping.step` — the step, in five phases; its value is the step size.
-/

namespace Splitting

/-- A problem `f + g`, and how to step on it. -/
structure Terms (S ρ π : Type) where
  /-- The smooth term `f`. -/
  smooth : Option (Functional S)
  /-- The proximable term `g`. -/
  proximable : Option (Functional S)
  rule : StepChoice S ρ
  preconditioner : Option π

namespace Terms

variable {S ρ π : Type} [Scalar S]

/-- `f x + g x`. -/
def objective (t : Terms S ρ π) (x : Vec S) : Option S := do
  let f ← valueOrZero t.smooth x
  let g ← valueOrZero t.proximable x
  return f + g

variable [StepRule ρ S]

omit [Scalar S] in
/-- The step, if it is constant. -/
def stepSize (t : Terms S ρ π) : Except Error S :=
  match StepRule.constant? t.rule with
  | some a => .ok a
  | none => .error .nonConstantStepSize

/-- Whether the step is constant and at most `factor / L`. There is nothing to compare with when `f` is
    absent, and no criterion when the gradient is preconditioned. -/
def isProvablyConvergent (t : Terms S ρ π) (factor : S) : Except Error Bool :=
  match t.preconditioner with
  | some _ => .error .preconditionedConvergence
  | none => do
    let a ← t.stepSize
    match t.smooth with
    | none => .ok true
    | some f =>
      match f.lipschitz with
      | none => .error .unknownLipschitz
      | some l => .ok (a ≤ factor / l)

end Terms

/-- The state of a step: the terms, the point it starts from, and the buffers for the gradient and for the
    result. -/
structure Stepping (S ρ π : Type) where
  terms : Terms S ρ π
  point : Vec S
  gradient : Vec S
  out : Vec S

namespace Stepping

variable {S ρ π : Type} [Scalar S] [StepRule ρ S] [Preconditioner π S]

omit [StepRule ρ S] [Preconditioner π S] in
/-- The gradient of the smooth term at the point. -/
def evaluate (s : Stepping S ρ π) : Outcome (Stepping S ρ π) Unit :=
  (gradientOrZero s.terms.smooth s.point s.gradient).mapState fun g => { s with gradient := g }

omit [Scalar S] [StepRule ρ S] in
/-- The preconditioned gradient in place of the gradient. -/
def precondition (iteration : Nat) (s : Stepping S ρ π) : Outcome (Stepping S ρ π) Unit :=
  match s.terms.preconditioner with
  | none => .ok () s
  | some p =>
    ((Preconditioner.apply p ⟨iteration, s.point⟩ s.gradient).guard fun (_, g) =>
        g.length = s.gradient.length).mapState fun (p, g) =>
      { s with
        terms := { s.terms with preconditioner := some p }
        gradient := g }

omit [Scalar S] [Preconditioner π S] in
/-- The step size. -/
def chooseStep (iteration : Nat) (s : Stepping S ρ π) : Outcome (Stepping S ρ π) S :=
  (StepRule.query s.terms.rule ⟨iteration, s.terms.smooth, s.point, s.gradient⟩).mapState fun r =>
    { s with terms := { s.terms with rule := r } }

omit [StepRule ρ S] [Preconditioner π S] in
/-- The forward point in place of the point. -/
def forward (a : S) (s : Stepping S ρ π) : Outcome (Stepping S ρ π) Unit :=
  .put ((Vec.zip? (fun x g => x + -a * g) s.point s.gradient).map fun p => { s with point := p })

omit [StepRule ρ S] [Preconditioner π S] in
/-- The proximal map at the forward point. -/
def backward (a : S) (s : Stepping S ρ π) : Outcome (Stepping S ρ π) Unit :=
  (proximalOrIdentity s.terms.proximable s.point a s.out).mapState fun x => { s with out := x }

/-- **One forward-backward step,** in iteration `iteration`. -/
def step (iteration : Nat) (s : Stepping S ρ π) : Outcome (Stepping S ρ π) S :=
  s.evaluate.bind fun _ s =>
    (s.precondition iteration).bind fun _ s =>
      (s.chooseStep iteration).bind fun a s =>
        (s.forward a).bind fun _ s =>
          (s.backward a).map fun _ => a

end Stepping

end Splitting
