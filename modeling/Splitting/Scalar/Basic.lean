/-!
# `Splitting.Scalar.Basic` — the arithmetic every method is written in

The methods of this library use their scalars through a fixed set of operations and no laws, so that one text
runs in double and in single precision and can be reasoned about in exact arithmetic.

* `Scalar` — the operations of one number type;
* `Precision` — how the scalars of a method meet the precision in which probabilities and random numbers are
  kept, which may be a wider one.
-/

namespace Splitting

/-- The operations that the methods use, without any law about them. Comparisons are decidable propositions;
    in floating-point arithmetic every comparison with a number that is not one is false. -/
class Scalar (S : Type) extends Zero S, One S, Add S, Sub S, Mul S, Div S, Neg S, NatCast S, OfScientific S,
    LT S, LE S where
  decLt : (x y : S) → Decidable (x < y)
  decLe : (x y : S) → Decidable (x ≤ y)
  /-- The magnitude. -/
  abs : S → S
  /-- One with the sign of the argument; positive zero counts as positive and negative zero as negative. -/
  signum : S → S
  sqrt : S → S
  /-- The logarithm to base ten. -/
  log10 : S → S
  /-- The larger argument, the second of two equal ones. An argument that is not a number is ignored. -/
  max : S → S → S
  /-- The smaller argument, the second of two equal ones. An argument that is not a number is ignored. -/
  min : S → S → S
  /-- The value of a function outside its domain. -/
  infinity : S
  isFinite : S → Bool
  isNaN : S → Bool
  /-- The least natural number that is not below the argument. There is none when the argument is not a
      number, is at most minus one, or would need more than 64 bits. -/
  ceilNat? : S → Option Nat
  /-- The number as it appears in messages. -/
  text : S → String

attribute [instance(100)] Scalar.toZero Scalar.toOne Scalar.toAdd Scalar.toSub Scalar.toMul Scalar.toDiv
  Scalar.toNeg Scalar.toNatCast Scalar.toOfScientific Scalar.toLT Scalar.toLE

instance (priority := low) Scalar.decidableLt {S : Type} [Scalar S] (x y : S) : Decidable (x < y) :=
  Scalar.decLt x y

instance (priority := low) Scalar.decidableLe {S : Type} [Scalar S] (x y : S) : Decidable (x ≤ y) :=
  Scalar.decLe x y

/-- Probabilities and random numbers are kept in a precision `W` of their own, whatever the scalars `S` of a
    method are: `narrow` rounds to a scalar, and `widen` is exact. -/
class Precision (S : Type) (W : outParam Type) where
  narrow : W → S
  widen : S → W

end Splitting
