import Splitting.Error
import Splitting.Scalar.Basic

/-!
# `Splitting.PrimalDual.StepSizes` — primal and dual steps that converge

Block `i` is drawn with probability `pᵢ`, and its operator has the norm `nᵢ`. The stochastic primal-dual method
converges if

  `σᵢ · τ · nᵢ² ≤ pᵢ`

for every block. Steps that are not given are derived from this bound with a margin `ρ` below it and a
trade-off `γ` between the dual and the primal side.

* `DualScale` — the probability and the norm of a block, all that the steps depend on;
* `leastRatio?` — the least `pᵢ / (σᵢ nᵢ²)`, ratios up to a floor left out;
* `resolveSteps`, `stepsFromRatio` — the steps from what is given, and from a trade-off and a margin.
-/

namespace Splitting

/-- The probability with which a block is drawn, and the norm of its operator. -/
structure DualScale (S : Type) where
  weight : S
  norm : S

namespace PrimalDual

variable {S : Type} [Scalar S]

/-- The trade-off between the dual and the primal side that is used unless one is given. -/
def tradeOff : S := 1

/-- The margin below the bound that is used unless one is given. -/
def margin : S := 0.99

/-- Ratios up to this one do not limit the primal step. -/
def ratioFloor : S := 1e-8

/-- A step parameter, which has to be positive. -/
def requirePositive (which : PrimalDualStep) (value : S) : Except Error Unit :=
  if 0 < value then .ok ()
  else .error (.invalidParameter (.primalDualStepNotPositive which (Scalar.text value)))

/-- The ratio `p / (σ n²)` of a block. -/
def ratio (b : DualScale S) (sigma : S) : S := b.weight / (sigma * b.norm * b.norm)

/-- The least of some numbers, unless there are none. -/
def least? : List S → Option S
  | [] => none
  | r :: rs => some (rs.foldl Scalar.min r)

/-- The least ratio above the floor. -/
def leastRatio? (blocks : List (DualScale S)) (sigma : List S) : Option S :=
  least? ((List.zipWith ratio blocks sigma).filter fun r => ratioFloor < r)

/-- The primal step at the bound that the least ratio sets. -/
def primalStep (gamma rho : S) (blocks : List (DualScale S)) (sigma : List S) : Except Error S :=
  match leastRatio? blocks sigma with
  | none => .error (.invalidParameter .noPrimalStep)
  | some r => .ok (rho / gamma * r)

/-- The dual steps where neither side is given. -/
def balancedDualSteps (gamma rho : S) (blocks : List (DualScale S)) : List S :=
  blocks.map fun b => gamma * rho / b.norm

/-- The dual steps that go with a primal one. -/
def matchingDualSteps (gamma rho : S) (blocks : List (DualScale S)) (tau : S) : List S :=
  blocks.map fun b => gamma * rho * b.weight / (tau * b.norm * b.norm)

/-- Checks that dual steps are positive, from the first on. -/
def requireAllPositive : List S → Except Error Unit
  | [] => .ok ()
  | s :: rest =>
    match requirePositive .sigma s with
    | .error e => .error e
    | .ok () => requireAllPositive rest

/-- The dual steps: as they are given, or derived. -/
def dualSteps (blocks : List (DualScale S)) (sigma : Option (List S)) (tau : Option S) :
    Except Error (List S) :=
  match sigma, tau with
  | some sigma, _ =>
    if sigma.length ≠ blocks.length then .error (.lengthMismatch .dualSteps blocks.length sigma.length)
    else
      match requireAllPositive sigma with
      | .error e => .error e
      | .ok () => .ok sigma
  | none, none => .ok (balancedDualSteps tradeOff margin blocks)
  | none, some tau => .ok (matchingDualSteps tradeOff margin blocks tau)

/-- **The steps of the method:** those that are given, which have to be positive and one for each block, and
    the others derived from them. -/
def resolveSteps (blocks : List (DualScale S)) (sigma : Option (List S)) (tau : Option S) :
    Except Error (List S × S) := do
  match tau with
  | some t => requirePositive .tau t
  | none => .ok ()
  let sigma ← dualSteps blocks sigma tau
  match tau with
  | some t => .ok (sigma, t)
  | none =>
    let t ← primalStep tradeOff margin blocks sigma
    .ok (sigma, t)

/-- **The steps that belong to a trade-off and a margin.** A larger trade-off favours the dual side. -/
def stepsFromRatio (blocks : List (DualScale S)) (gamma rho : S) : Except Error (List S × S) := do
  requirePositive .gamma gamma
  requirePositive .rho rho
  let sigma := balancedDualSteps gamma rho blocks
  let t ← primalStep gamma rho blocks sigma
  .ok (sigma, t)

end PrimalDual

end Splitting
