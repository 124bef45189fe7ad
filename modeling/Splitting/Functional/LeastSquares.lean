import Splitting.Functional.Basic
import Splitting.Operator.Norm

/-!
# `Splitting.Functional.LeastSquares` — the data term of an inverse problem

The function `c · ‖A x - b‖²` of an operator `A` and data `b`. Its gradient is `2 c Aᵀ(A x - b)`, with the
Lipschitz constant `2 c ‖A‖²`; the norm is taken once, when the term is made.
-/

namespace Splitting

/-- The function `scale · ‖A x - data‖²`, with the Lipschitz constant that its gradient is said to have. -/
structure LeastSquares (S : Type) where
  operator : LinearOperator S
  data : Vec S
  scale : S
  lipschitz : S

namespace LeastSquares

variable {S : Type} [Scalar S]

/-- The term with the Lipschitz constant `2 c ‖A‖²` that its operator's norm gives. -/
def of? {W : Type} [Scalar W] [Precision S W] (a : LinearOperator S) (b : Vec S) (c : S) :
    Option (LeastSquares S) := do
  let n ← a.norm?
  return ⟨a, b, c, (c + c) * n * n⟩

/-- `A x - b`; a single datum stands for all places of `A x`. -/
def residual? (f : LeastSquares S) (x : Vec S) : Option (Vec S) := do
  let image ← f.operator.directInto x (Vec.zeros f.operator.rangeDim)
  Vec.zip? (· - ·) image (← Vec.spread? image.length f.data)

def value? (f : LeastSquares S) (x : Vec S) : Option S := do
  return f.scale * (← f.residual? x).normSq

def gradient? (f : LeastSquares S) (x out : Vec S) : Option (Vec S) := do
  let back ← f.operator.adjointInto (← f.residual? x) out
  return back.map ((f.scale + f.scale) * ·)

/-- The operations of a least-squares term. It has no proximal map. -/
def functional (f : LeastSquares S) : Functional S :=
  { Functional.ofProximal f.value? fun _ _ out => Functional.unsupported "proximal" out with
    gradient := fun x out => .put (f.gradient? x out)
    lipschitz := some f.lipschitz }

end LeastSquares

end Splitting
