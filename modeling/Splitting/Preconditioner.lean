import Splitting.Operator.Basic
import Splitting.Outcome

/-!
# `Splitting.Preconditioner` — rescaling the gradient

A preconditioner overwrites the gradient in place, right after it is computed and before the step is chosen. It
may keep a state of its own.

* `Iterate` — what a preconditioner may look at;
* `Preconditioner` — the interface;
* `Sensitivity` — scaling by the inverse column sums of an operator. With the data weighted by the inverse row
  sums, gradient descent so preconditioned is simultaneous iterative reconstruction.
-/

namespace Splitting

/-- The iterate at which a preconditioner is applied. -/
structure Iterate (S : Type) where
  /-- The number of completed iterations. -/
  iteration : Nat
  /-- The point at which the gradient was taken. -/
  point : Vec S

/-- A preconditioner, with a state of type `π`. -/
class Preconditioner (π : Type) (S : outParam Type) where
  /-- The preconditioned gradient, in place of the gradient. -/
  apply : π → Iterate S → Vec S → Outcome (π × Vec S) Unit

/-- The inverse of each column sum that is positive, and zero for the others: what the operator does not see
    is not moved. -/
structure Sensitivity (S : Type) where
  weights : Vec S

namespace Sensitivity

variable {S : Type} [Scalar S]

/-- The weight that belongs to a column sum. -/
def weightOf (sum : S) : S := if 0 < sum then 1 / sum else 0

/-- The weights `1 / Kᵀ1` of an operator. -/
def of? (op : LinearOperator S) : Option (Sensitivity S) := do
  let sums ← op.adjointInto (List.replicate op.rangeDim 1) (Vec.zeros op.domainDim)
  return ⟨sums.map weightOf⟩

/-- The gradient scaled entry by entry. -/
def apply (p : Sensitivity S) (gradient : Vec S) : Outcome (Sensitivity S × Vec S) Unit :=
  (Outcome.put (Vec.zip? (· * ·) gradient p.weights)).mapState fun g => (p, g)

instance : Preconditioner (Sensitivity S) S where
  apply p _ gradient := p.apply gradient

end Sensitivity

end Splitting
