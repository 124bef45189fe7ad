import Splitting.Generator.ChaCha
import Splitting.Scalar.Basic

/-!
# `Splitting.Generator.Weighted` — random numbers and weighted indices

* `Generator.unit` — a number in [0, 1) on the grid of 2 ^ -52, and `Generator.unit53` on that of 2 ^ -53;
* `Weighted` — indices drawn with given weights: a draw picks a point below the total weight and counts the
  partial sums that do not exceed it.
-/

namespace Splitting

-- Powers are those of the natural numbers themselves, also where they are a monoid among others.
attribute [local instance(2000)] instPowNat

variable {W : Type} [Scalar W]

namespace Generator

/-- A number in [0, 1): the 52 highest bits of the next 64. -/
def unit (g : Generator) : W × Generator :=
  let (bits, g) := g.next64
  (((bits >>> 12).toNat : W) / ((2 ^ (52 : Nat) : Nat) : W), g)

/-- A number in [0, 1): the 53 highest bits of the next 64. -/
def unit53 (g : Generator) : W × Generator :=
  let (bits, g) := g.next64
  (((bits >>> 11).toNat : W) / ((2 ^ (53 : Nat) : Nat) : W), g)

end Generator

/-- Weights prepared for drawing: their total, and the partial sums of all of them but the last. -/
structure Weighted (W : Type) where
  partialSums : List W
  total : W

namespace Weighted

/-- The sums that a running sum passes through on its way to the total, the total left out. -/
def sums : W → List W → List W
  | _, [] => []
  | s, w :: ws => s :: sums (s + w) ws

/-- Prepares weights for drawing. None of them may be negative or not a number, and there has to be one. -/
def ofWeights? (weights : List W) : Option (Weighted W) :=
  match weights with
  | [] => none
  | w :: ws =>
    if weights.all fun v => 0 ≤ v then some ⟨sums w ws, ws.foldl (· + ·) w⟩ else none

/-- The index at the point `c` below the total weight. -/
def indexAt (d : Weighted W) (c : W) : Nat := d.partialSums.countP fun s => s ≤ c

/-- Draws an index. -/
def draw (d : Weighted W) (g : Generator) : Nat × Generator :=
  let (u, g) : W × Generator := g.unit
  (d.indexAt (u * d.total), g)

end Weighted

end Splitting
