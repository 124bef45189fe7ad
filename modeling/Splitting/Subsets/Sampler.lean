import Splitting.Generator.Uniform
import Splitting.Generator.Weighted
import Splitting.Subsets.DigitReversal

/-!
# `Splitting.Subsets.Sampler` — which subset comes next

A stochastic method updates one subset of its problem at a time. A source of indices says which; a sampler is
such a source that either walks a list over and over, perhaps permuting it afresh for every round, or draws
each index independently with given probabilities.

* `IndexSource` — the interface of a source;
* `Sampler` and its constructors `sequential`, `customOrder`, `hermanMeyer`, `staggered`,
  `randomWithReplacement` and `randomWithoutReplacement`;
* `Sampler.draw` — the next index; `Sampler.preview` — the first indices since the sampler was made;
* `Sampler.frequencies` — how often each index comes up in the long run.
-/

namespace Splitting

/-- A source of subset indices, with a state of type `σ`; frequencies are numbers of type `W`. -/
class IndexSource (σ : Type) (W : outParam Type) where
  /-- The next index. -/
  next : σ → Nat × σ
  /-- How often each index comes up in the long run, if the source knows. -/
  frequencies? : σ → Option (List W)

/-- The ways of sampling. -/
inductive SamplingKind where
  | sequential
  | customOrder
  | hermanMeyer
  | staggered
  | randomWithReplacement
  | randomWithoutReplacement
deriving DecidableEq, Repr

/-- The name of a way of sampling. -/
def SamplingKind.name : SamplingKind → String
  | sequential => "sequential"
  | customOrder => "custom_order"
  | hermanMeyer => "herman_meyer"
  | staggered => "staggered"
  | randomWithReplacement => "random_with_replacement"
  | randomWithoutReplacement => "random_without_replacement"

/-- What a sampler draws from. -/
inductive Supply (W : Type) where
  /-- A list that is walked again and again, permuted before each round if `reshuffled`. The first list is kept
      beside the current one. -/
  | rounds (first current : Array Nat) (reshuffled : Bool)
  /-- Independent draws with these probabilities. -/
  | independent (probabilities : List W) (prepared : Weighted W)

/-- A sampler over the indices below `numSubsets`. -/
structure Sampler (W : Type) where
  kind : SamplingKind
  numSubsets : Nat
  /-- The seed of the generator; deterministic samplers never look at it. -/
  seed : UInt64
  supply : Supply W
  /-- The place in the round at which the next index stands. -/
  position : Nat
  generator : Generator

namespace Sampler

variable {W : Type}

/-- A sampler that has drawn nothing yet. -/
def fresh (kind : SamplingKind) (numSubsets : Nat) (seed : UInt64) (supply : Supply W) : Sampler W :=
  ⟨kind, numSubsets, seed, supply, 0, Generator.ofSeed seed⟩

/-- A sampler that walks a list as long as its number of subsets. The list must not be empty. -/
def ofOrder (kind : SamplingKind) (order : Array Nat) (reshuffled : Bool) (seed : UInt64) :
    Except Error (Sampler W) :=
  if order.size = 0 then .error (.invalidSampler .noSubsets)
  else .ok (fresh kind order.size seed (.rounds order order reshuffled))

/-- The indices from 0 to `n - 1`, again and again. -/
def sequential (n : Nat) : Except Error (Sampler W) := ofOrder .sequential (Array.range n) false 0

/-- A list of indices as it stands, again and again. Its entries need not be below its length. -/
def customOrder (order : Array Nat) : Except Error (Sampler W) := ofOrder .customOrder order false 0

/-- The Herman-Meyer order, again and again. -/
def hermanMeyer (n : Nat) : Except Error (Sampler W) := do
  ofOrder .hermanMeyer (← hermanMeyerOrder n) false 0

/-- The indices below `n` that lie `offset` apart, from a given one upwards. -/
def stride (n offset start : Nat) : List Nat := List.range' start ((n - start + offset - 1) / offset) offset

/-- The staggered order `0, a, 2a, …, 1, 1 + a, …` with `a` the offset. -/
def staggeredOrder (n offset : Nat) : Array Nat := ((List.range offset).flatMap (stride n offset)).toArray

/-- The staggered order, again and again. The offset has to be positive and less than `n`. -/
def staggered (n offset : Nat) : Except Error (Sampler W) :=
  if n ≤ offset then .error (.invalidSampler .offsetTooLarge)
  else if offset = 0 then .error (.invalidSampler .offsetZero)
  else ofOrder .staggered (staggeredOrder n offset) false 0

/-- Every index once in each round of `n`, in random order: a new order for each round if `reshuffled`, and the
    same one for ever if not. -/
def randomWithoutReplacement (n : Nat) (seed : UInt64) (reshuffled : Bool) : Except Error (Sampler W) :=
  if reshuffled then ofOrder .randomWithoutReplacement (Array.range n) true seed
  else ofOrder .randomWithoutReplacement ((Generator.ofSeed seed).shuffle (Array.range n)).1 false seed

/-- The sampler as it was when it was made. -/
def restart (s : Sampler W) : Sampler W :=
  { s with
    position := 0
    generator := Generator.ofSeed s.seed
    supply := match s.supply with
      | .rounds first _ reshuffled => .rounds first first reshuffled
      | .independent probabilities prepared => .independent probabilities prepared }

/-- The list that is being walked, as it is permuted now. -/
def order? (s : Sampler W) : Option (Array Nat) :=
  match s.supply with
  | .rounds _ current _ => some current
  | .independent .. => none

/-- The probabilities of independent draws. -/
def probabilities? (s : Sampler W) : Option (List W) :=
  match s.supply with
  | .rounds .. => none
  | .independent probabilities _ => some probabilities

variable [Scalar W]

/-- Independent draws with the given probabilities, or uniform ones. There has to be one for each index, and
    they have to sum to one up to a millionth. -/
def randomWithReplacement (n : Nat) (probabilities : Option (List W)) (seed : UInt64) :
    Except Error (Sampler W) :=
  if n = 0 then .error (.invalidSampler .noSubsets)
  else
    let probabilities := probabilities.getD (List.replicate n (1 / (n : W)))
    if probabilities.length ≠ n then .error (.lengthMismatch .probabilities n probabilities.length)
    else
      let total := (probabilities.tail.foldl (· + ·) (probabilities.headD 0))
      if 1e-6 < Scalar.abs (total - 1) then .error (.invalidSampler (.totalNotOne (Scalar.text total)))
      else match Weighted.ofWeights? probabilities with
        | none => .error (.invalidSampler .invalidWeight)
        | some prepared =>
          .ok (fresh .randomWithReplacement n seed (.independent probabilities prepared))

/-- The next index, and the sampler after it. -/
def draw (s : Sampler W) : Nat × Sampler W :=
  match s.supply with
  | .rounds first current reshuffled =>
    let (current, generator) :=
      if reshuffled ∧ s.position = 0 then s.generator.shuffle current else (current, s.generator)
    (current.getD s.position 0, { s with
      supply := .rounds first current reshuffled
      position := (s.position + 1) % s.numSubsets
      generator := generator })
  | .independent _ prepared =>
    let (i, generator) := prepared.draw s.generator
    (i, { s with generator := generator })

/-- The next `m` indices, and the sampler after them. -/
def draws (m : Nat) (s : Sampler W) : List Nat × Sampler W :=
  match m with
  | 0 => ([], s)
  | m + 1 =>
    let (i, s) := s.draw
    let (rest, s) := s.draws m
    (i :: rest, s)

/-- The first `m` indices since the sampler was made, whatever it has drawn since. -/
def preview (s : Sampler W) (m : Nat) : List Nat := (s.restart.draws m).1

/-- How often each index below `n` stands in a list. -/
def visits (n : Nat) (order : Array Nat) : Array Nat :=
  order.foldl (fun counts i => counts.modify i (· + 1)) (Array.replicate n 0)

/-- How often each index comes up in the long run: its probability, or its share of the list that is walked. -/
def frequencies (s : Sampler W) : List W :=
  match s.supply with
  | .rounds first _ _ => (visits s.numSubsets first).toList.map fun (c : Nat) => (c : W) / (first.size : W)
  | .independent probabilities _ => probabilities

instance : IndexSource (Sampler W) W where
  next := draw
  frequencies? s := some s.frequencies

end Sampler

end Splitting
