import Splitting.Error

/-!
# `Splitting.Subsets.DigitReversal` — the Herman-Meyer order

Write `n` as a product of primes `p₁ ≤ … ≤ pₘ`. A position below `n` has the mixed-radix digits `dₖ < pₖ`, the
first digit varying fastest; the index visited there has the same digits in the opposite weight, the first
digit counting in steps of `p₂ ⋯ pₘ`. Consecutive indices then lie as far apart as the factors allow. For
powers of two this is bit reversal. The primes are found by trial division, which squares its divisors in words of
64 bits.

* `TrialDivision`, `TrialDivision.turn`, `TrialDivision.run` — trial division turn by turn, and to its end;
* `factors` — the prime factors, by trial division;
* `digitReversed` — the index at a position;
* `hermanMeyerOrder` — all indices in order; a number with fewer than two prime factors has none.
-/

namespace Splitting

-- The empty product is the literal one, also where the natural numbers are a monoid among others.
attribute [local instance(2000)] One.ofOfNat1

/-! ## Trial division -/

/-- Where trial division stands: the factors that are found, what is left to be divided, and the divisor that is
    tried next. -/
structure TrialDivision where
  found : List Nat
  left : Nat
  divisor : Nat
deriving DecidableEq, Repr

namespace TrialDivision

/-- The square of a number in a word of 64 bits. What exceeds the word is lost. -/
def wordSquare (i : Nat) : Nat := i * i % UInt64.size

/-- Nothing is found yet. -/
def start (n : Nat) : TrialDivision := ⟨[], n, 2⟩

/-- There is another turn as long as the square of the divisor, in a word, is not above what is left. -/
def Continues (t : TrialDivision) : Prop := wordSquare t.divisor ≤ t.left

instance (t : TrialDivision) : Decidable t.Continues :=
  inferInstanceAs (Decidable (wordSquare t.divisor ≤ t.left))

/-- One turn. A divisor that divides what is left is a factor, and may be one again; any other makes way for the
    next number. -/
def turn (t : TrialDivision) : TrialDivision :=
  if t.left % t.divisor = 0 then ⟨t.found ++ [t.divisor], t.left / t.divisor, t.divisor⟩
  else ⟨t.found, t.left, t.divisor + 1⟩

/-- The factors, when there is no other turn. What is left in the end, unless it is one, is a factor itself. -/
def result (t : TrialDivision) : List Nat := t.found ++ if 1 < t.left then [t.left] else []

/-- Turn by turn to the end. For a number that fits a word, divisors below two and above what is left do not come up
    where there is another turn; that they are excluded here makes the run end from everywhere. -/
def run (t : TrialDivision) : List Nat :=
  if _h : (2 ≤ t.divisor ∧ t.divisor ≤ t.left) ∧ t.Continues then t.turn.run else t.result
termination_by (t.left, t.left + 1 - t.divisor)
decreasing_by
  rw [turn]
  split
  · exact Prod.Lex.left _ _ (Nat.div_lt_self (by omega) (by omega))
  · exact Prod.Lex.right _ (by dsimp only; omega)

end TrialDivision

/-- The prime factors of `n` in increasing order, each as often as it divides; none for zero and one. -/
def factors (n : Nat) : List Nat := (TrialDivision.start n).run

/-! ## The order -/

/-- The index whose mixed-radix digits, in the radices given, are those of `position` with their weights
    turned round. -/
def digitReversed : List Nat → Nat → Nat
  | [], _ => 0
  | p :: ps, position => position % p * ps.prod + digitReversed ps (position / p)

/-- The Herman-Meyer order of the indices below `n`. For a prime, and for zero and one, it would be the
    sequential order and is refused. -/
def hermanMeyerOrder (n : Nat) : Except Error (Array Nat) :=
  let radices := factors n
  if radices.length < 2 then .error (.invalidSampler (.notComposite n))
  else .ok ((Array.range n).map (digitReversed radices))

end Splitting
