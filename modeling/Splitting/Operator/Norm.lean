import Splitting.Generator.Weighted
import Splitting.Operator.Basic

/-!
# `Splitting.Operator.Norm` — the norm of an operator by power iteration

The largest singular value of `K` is estimated by iterating `Kᵀ K` on a vector of length one. The length of
the image is the current estimate of its square. The iteration ends after a number of rounds, or when the
estimate changes by no more than a fraction of itself; an image of length zero ends it with the estimate zero.

* `LinearOperator.startVector` — the fixed pseudo-random vector that every estimate starts from;
* `LinearOperator.powerMethodFrom?`, `LinearOperator.powerMethod?` — the estimate;
* `LinearOperator.norm?` — the known norm, or else the estimate.
-/

namespace Splitting

namespace LinearOperator

variable {S W : Type} [Scalar S] [Scalar W] [Precision S W]

/-- The first `n` random numbers, each raised by one half. -/
def startEntries : Nat → Generator → Vec S
  | 0, _ => []
  | n + 1, g =>
    let (u, g) : W × Generator := g.unit53
    Precision.narrow (u + 0.5) :: startEntries n g

/-- The vector that every estimate starts from: entries between one half and three halves, always the same. -/
def startVector (n : Nat) : Vec S := startEntries n (Generator.ofSeed 0)

omit [Scalar W] [Precision S W] in
/-- The rounds of the iteration. `x` has length one, `image` and `back` are the buffers of `K x` and of
    `Kᵀ K x`, and `square` is the estimate of the squared norm so far. -/
def powerRounds? (op : LinearOperator S) (tol : S) (rounds : Nat) (x image back : Vec S) (square : S) :
    Option S :=
  match rounds with
  | 0 => some (Scalar.sqrt square)
  | n + 1 => do
    let image ← op.directInto x image
    let back ← op.adjointInto image back
    let length := Scalar.sqrt back.normSq
    if length ≤ 0 then some 0
    else if Scalar.abs (length - square) ≤ tol * length then some (Scalar.sqrt length)
    else powerRounds? op tol n (back.map (· / length)) image back length

omit [Scalar W] [Precision S W] in
/-- The estimate that begins with a given vector, after at most `rounds` rounds. -/
def powerMethodFrom? (op : LinearOperator S) (start : Vec S) (rounds : Nat) (tol : S) : Option S :=
  let length := Scalar.sqrt start.normSq
  if length ≤ 0 then some 0
  else powerRounds? op tol rounds (start.map (· / length)) (Vec.zeros op.rangeDim) (Vec.zeros op.domainDim) 0

/-- The estimate of the norm after at most `rounds` rounds. -/
def powerMethod? (op : LinearOperator S) (rounds : Nat) (tol : S) : Option S :=
  op.powerMethodFrom? (startVector op.domainDim) rounds tol

/-- The norm of an operator: the one that it knows, or the estimate after at most a hundred rounds. -/
def norm? (op : LinearOperator S) : Option S :=
  match op.knownNorm with
  | some n => some n
  | none => op.powerMethod? 100 1e-8

end LinearOperator

end Splitting
