import Splitting.Functional.Basic

/-!
# `Splitting.Functional.OneNorm` — the scaled one-norm

The function `α · ‖x‖₁`. Its proximal map is soft thresholding; its conjugate is zero on the box of half-width
`α` and infinite outside, so that the proximal map of the conjugate clips to the box.
-/

namespace Splitting

/-- The function `alpha · ‖x‖₁`. -/
structure OneNorm (S : Type) where
  alpha : S

namespace OneNorm

variable {S : Type} [Scalar S]

def value (f : OneNorm S) (x : Vec S) : S :=
  f.alpha * x.foldl (fun total a => total + Scalar.abs a) 0

/-- Moves a number towards zero by `threshold`, and not beyond. -/
def softThreshold (threshold a : S) : S :=
  Scalar.signum a * Scalar.max (Scalar.abs a - threshold) 0

/-- The half-width of the box on which the conjugate counts as zero: a little more than `alpha`, for iterates
    that rounding has pushed over the boundary. -/
def radius (f : OneNorm S) : S := f.alpha * (1 + 1e-10)

/-- The conjugate: zero in the box, infinite outside. -/
def conjugate (f : OneNorm S) (y : Vec S) : S :=
  if y.all fun v => Scalar.abs v ≤ f.radius then 0 else Scalar.infinity

/-- The nearest number to `a` of magnitude at most `alpha`. -/
def clip (f : OneNorm S) (a : S) : S := Scalar.min (Scalar.max a (-f.alpha)) f.alpha

/-- The operations of a one-norm. It has no gradient. -/
def functional (f : OneNorm S) : Functional S :=
  { Functional.ofProximal (fun x => some (f.value x)) fun x tau out =>
      Functional.overwrite out (some (x.map (softThreshold (tau * f.alpha)))) with
    conjugate := fun y => .ok (f.conjugate y)
    proximalConjugate := fun y _ out => Functional.overwrite out (some (y.map f.clip)) }

end OneNorm

end Splitting
