/-!
# `Splitting.Decimal.Shortest` — the fewest digits that read back

A binary number `mantissa · 2 ^ exponent` stands for every real that rounds to it: an interval whose ends
lie half-way to the two neighbours and belong to it exactly when the mantissa is even. Its shortest decimal
is the point of that interval on the coarsest decimal grid `10 ^ k · ℕ` that has one; of two such points the
nearer is taken, and the upper one when they are equally near.

* `Binary` — the number, with the one fact about its neighbours that the interval needs;
* `Binary.onGrid` — the candidate of one grid, in exact natural-number arithmetic;
* `Binary.shortest` — the search from coarse to fine, which ends on the grid that holds the number itself;
* `Decimal.positional` — the digits written out without an exponent.
-/

namespace Splitting

-- Powers are those of the natural numbers themselves, also where they are a monoid among others.
attribute [local instance(2000)] instPowNat

/-- A decimal number `significand · 10 ^ exponent`. -/
structure Decimal where
  significand : Nat
  exponent : Int
deriving DecidableEq, Repr

namespace Decimal

/-- The decimal in positional notation: no exponent, and no point for a whole number. -/
def positional (d : Decimal) : String :=
  let digits := (toString d.significand).toList
  if 0 ≤ d.exponent then
    String.ofList (digits ++ List.replicate d.exponent.toNat '0')
  else
    let places := (-d.exponent).toNat
    let padded := List.replicate (places + 1 - digits.length) '0' ++ digits
    let whole := padded.length - places
    String.ofList (padded.take whole ++ '.' :: padded.drop whole)

end Decimal

/-- A positive binary number `mantissa · 2 ^ exponent`. `narrowBelow` says that the neighbour below is only
    half as far away as the one above, which happens at the powers of two. -/
structure Binary where
  mantissa : Nat
  exponent : Int
  narrowBelow : Bool
deriving DecidableEq, Repr

namespace Binary

/-- A multiple `quarters · 2 ^ (exponent - 2)` measured in units of `10 ^ k`: a numerator over a denominator
    that depends on `k` and `b` only. -/
def measure (b : Binary) (k : Int) (quarters : Nat) : Nat :=
  quarters * 2 ^ (b.exponent - 2).toNat * 10 ^ (-k).toNat

/-- The denominator that goes with `measure`. -/
def unit (b : Binary) (k : Int) : Nat :=
  2 ^ (2 - b.exponent).toNat * 10 ^ k.toNat

/-- Whether `d · 10 ^ k` rounds to `b`. -/
def covers (b : Binary) (k : Int) (d : Nat) : Bool :=
  let low := b.measure k (4 * b.mantissa - if b.narrowBelow then 1 else 2)
  let high := b.measure k (4 * b.mantissa + 2)
  let here := d * b.unit k
  if b.mantissa % 2 = 0 then low ≤ here && here ≤ high else low < here && here < high

/-- The point of the grid `10 ^ k · ℕ` nearest to `b`, if it rounds to `b`; the upper one of two equally near
    points. -/
def onGrid (b : Binary) (k : Int) : Option Nat :=
  let center := b.measure k (4 * b.mantissa)
  let below := center / b.unit k
  let above := below + 1
  match b.covers k below, b.covers k above with
  | true, true =>
    if above * b.unit k - center ≤ center - below * b.unit k then some above else some below
  | true, false => some below
  | false, true => some above
  | false, false => none

/-- The coarsest grid on which `b` itself lies whatever its mantissa: whole numbers, or as many places as
    there are binary ones. -/
def exactPlaces (b : Binary) : Nat := (-b.exponent).toNat

/-- The number itself, written on the grid of `exactPlaces`. -/
def exact (b : Binary) : Decimal :=
  ⟨b.mantissa * 2 ^ b.exponent.toNat * 5 ^ b.exactPlaces, -b.exactPlaces⟩

/-- The search over the grids from `10 ^ (n - exactPlaces)` downwards. -/
def shortestFrom (b : Binary) : Nat → Decimal
  | 0 => b.exact
  | n + 1 =>
    let k : Int := ((n + 1 : Nat) : Int) - b.exactPlaces
    match b.onGrid k with
    | some d => ⟨d, k⟩
    | none => b.shortestFrom n

/-- The shortest decimal that rounds to `b`. No power of ten above the number of digits of its whole part
    can round to it, so the search starts there. -/
def shortest (b : Binary) : Decimal :=
  let whole := b.measure 0 (4 * b.mantissa) / b.unit 0
  b.shortestFrom ((toString whole).length + b.exactPlaces)

end Binary

end Splitting
